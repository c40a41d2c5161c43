import ObjectLet.Proofs.Labels
import ObjectLet.Proofs.Typings
import ObjectLet.Toolchain

/-!
# Compiling accepted programs

A program without errors has its code, with one exception.  Name analysis and the code generator
work out the dispatch tables separately, and they agree as long as a method overrides only what has
a place in the dispatch table: each method then goes where its name stands among the methods of the
class (`emitMethods_eq`).  A field of a method type has no such place, but the layout of a subclass
takes it for a method; a method that overrides it is sent to a negative index.

* `Expr.emits`, `FunDecl.emits`: code that uses only what was found and is well typed is emitted.
* `Decl.emitAll_spec`: global declarations are emitted, or a method has no place.
* `Toolchain.compile_of_clean`: **a program without errors compiles exactly if no method overrides a
  field, and if it does not compile it is for that reason.**
-/

set_option autoImplicit false

namespace ObjectLet

open Table (insertIn insertAll lookupIn)

/-- What code is emitted for agrees with what is known about the program.  Types and errors have no
part in this, since the code does not depend on them. -/
structure Target.Knows (t : Target) (ctx : Context) : Prop where
  /-- The names used at nodes. -/
  resolutions : t.ctx.resolutions = ctx.resolutions
  /-- The members used at nodes. -/
  members : t.ctx.members = ctx.members
  /-- The places of declarations. -/
  layouts : t.ctx.layouts = ctx.layouts
  /-- The classes. -/
  classes : t.ctx.classes = ctx.classes

/-! ## Expressions -/

/-- Emitting that does not fail. -/
def Emit.Total {α : Type} (x : Emit α) : Prop := ∀ n, ∃ r, x n = .ok r

namespace Emit.Total

variable {α β : Type} {x : Emit α} {f : α → Emit β}

theorem bind (hx : Total x) (hf : ∀ a, Total (f a)) : Total (x >>= f) := by
  intro n
  obtain ⟨⟨a, n'⟩, ha⟩ := hx n
  obtain ⟨r, hr⟩ := hf a n'
  exact ⟨r, emit_bind_eq_ok.2 ⟨a, n', ha, hr⟩⟩

theorem pure (a : α) : Total (Pure.pure a : Emit α) := fun n ↦ ⟨(a, n), rfl⟩

theorem fresh (kind : Label.Kind) : Total (Label.fresh kind : Emit Label) := fun _ ↦ ⟨_, rfl⟩

end Emit.Total

section Expressions

open Checked

variable {ctx : Context} {env : Env} {t : Target}

theorem Target.Knows.resolution {site : Site} {r : Resolution} (hk : t.Knows ctx)
    (hr : ctx.resolutions.find? site.id = some r) : Emit.Total (t.resolution site) :=
  fun n ↦ ⟨(r, n), Target.resolution_eq_ok.2 ⟨hk.resolutions ▸ hr, rfl⟩⟩

theorem Target.Knows.memberOffset {site : Site} {e : Entry} (hk : t.Knows ctx)
    (he : ctx.members.find? site.id = some e) : Emit.Total (t.memberOffset site) :=
  fun n ↦ ⟨(e.offset, n), Target.memberOffset_eq_ok.2 ⟨⟨e, hk.members ▸ he, rfl⟩, rfl⟩⟩

theorem arity_eq {site : Site} {x : String} {s : Signature} {args : List Expr} {u : Unit}
    (h : (checkArity site x s args).result = .ok u) : args.length = s.params.length := by
  rw [checkArity, result_require, beq_iff_eq] at h
  exact h.symm

theorem Emit.Total.emitAll {es : List Expr} (h : ∀ e ∈ es, Emit.Total (e.emit t)) :
    Emit.Total (Expr.emitAll t es) := by
  induction es with
  | nil =>
    rw [Expr.emitAll]
    exact .pure _
  | cons e es ih =>
    rw [List.forall_mem_cons] at h
    rw [Expr.emitAll]
    exact .bind h.1 fun _ ↦ .bind (ih h.2) fun _ ↦ .pure _

theorem Emit.Total.emitBackwards {es : List Expr} (h : ∀ e ∈ es, Emit.Total (e.emit t)) :
    Emit.Total (Expr.emitBackwards t es) := by
  induction es with
  | nil =>
    rw [Expr.emitBackwards]
    exact .pure _
  | cons e es ih =>
    rw [List.forall_mem_cons] at h
    rw [Expr.emitBackwards]
    exact .bind (ih h.2) fun _ ↦ .bind h.1 fun _ ↦ .pure _

/-- The code of a well-typed expression is emitted. -/
theorem Expr.emits (hk : t.Knows ctx) (e : Expr) {ty : Ty} (hrec : Recorded ctx (e.resolve env))
    (hc : (e.check ctx).result = .ok ty) : Emit.Total (e.emit t) := by
  induction e using Expr.parts_induction generalizing ty with
  | step e ih =>
    have hparts : ∀ d ∈ e.parts, Emit.Total (d.emit t) := by
      intro d hd
      obtain ⟨⟨u, hu⟩, -⟩ := (Expr.notes_check hc).parts d hd
      exact ih d hd (Expr.recorded_parts hrec d hd) hu
    cases e with
    | int site v | bool site v | null site =>
      rw [Expr.emit]
      exact .pure _
    | arith site op l r =>
      simp only [Expr.parts, List.forall_mem_cons] at hparts
      rw [Expr.emit]
      exact .bind hparts.1 fun _ ↦ .bind hparts.2.1 fun _ ↦ .pure _
    | compare site op l r =>
      simp only [Expr.parts, List.forall_mem_cons] at hparts
      obtain ⟨hl, hr, -⟩ := hparts
      rw [Expr.emit_compare]
      refine .bind (.fresh _) fun _ ↦ .bind (.fresh _) fun _ ↦ ?_
      cases op with
      | ge => exact .bind hr fun _ ↦ .bind hl fun _ ↦ .pure _
      | eq | le => exact .bind hl fun _ ↦ .bind hr fun _ ↦ .pure _
    | logic site op l r =>
      simp only [Expr.parts, List.forall_mem_cons] at hparts
      rw [Expr.emit]
      exact .bind (.fresh _) fun _ ↦ .bind (.fresh _) fun _ ↦
        .bind hparts.1 fun _ ↦ .bind hparts.2.1 fun _ ↦ .pure _
    | not site e =>
      simp only [Expr.parts, List.forall_mem_cons] at hparts
      rw [Expr.emit]
      exact .bind hparts.1 fun _ ↦ .pure _
    | print site e =>
      simp only [Expr.parts, List.forall_mem_cons] at hparts
      rw [Expr.emit]
      exact .bind hparts.1 fun _ ↦ .pure _
    | cond site c a b =>
      simp only [Expr.parts, List.forall_mem_cons] at hparts
      obtain ⟨hc, ha, hb, -⟩ := hparts
      rw [Expr.emit]
      exact .bind (.fresh _) fun _ ↦ .bind (.fresh _) fun _ ↦
        .bind hc fun _ ↦ .bind hb fun _ ↦ .bind ha fun _ ↦ .pure _
    | ident site x =>
      obtain ⟨e, -, hr⟩ := recorded_useName hrec
      rw [Expr.emit]
      exact .bind (hk.resolution hr) fun _ ↦ .pure _
    | call site f args =>
      rw [Expr.resolve, recorded_append] at hrec
      obtain ⟨e, -, hr⟩ := recorded_useName hrec.1
      rw [Expr.emit]
      exact .bind (hk.resolution hr) fun _ ↦ .bind (.emitBackwards hparts) fun _ ↦ .pure _
    | field site x m =>
      obtain ⟨_, hobj, -⟩ := result_bind.1 hc
      obtain ⟨_, _, e', -, hr, -, -, he'⟩ := recorded_receiver hrec hobj
      rw [Expr.emit]
      exact .bind (hk.resolution hr) fun _ ↦ .bind (hk.memberOffset he') fun _ ↦ .pure _
    | invoke site x m args =>
      rw [Expr.resolve, recorded_append] at hrec
      obtain ⟨_, hobj, -⟩ := result_bind.1 hc
      obtain ⟨_, _, e', -, hr, -, -, he'⟩ := recorded_receiver hrec.1 hobj
      rw [Expr.emit]
      exact .bind (hk.resolution hr) fun _ ↦ .bind (hk.memberOffset he') fun _ ↦
        .bind (.emitBackwards hparts) fun _ ↦ .pure _
    | new site c args =>
      rw [Expr.resolve, recorded_append] at hrec
      obtain ⟨e, -, hr⟩ := recorded_useClass hrec.1
      rw [Expr.emit]
      exact .bind (hk.resolution hr) fun _ ↦ .bind (.emitAll hparts) fun _ ↦ .pure _

end Expressions

/-! ## Functions -/

/-- Emitting that does not fail and leaves the dispatch tables alone.  Code of functions may be
added on the way. -/
def Emitter.Total {α : Type} (x : Emitter α) : Prop :=
  ∀ s, ∃ a s', x s = .ok a s' ∧ s'.dispatch = s.dispatch ∧ s.functions <+: s'.functions

namespace Emitter.Total

variable {α β : Type} {x : Emitter α} {f : α → Emitter β}

theorem bind (hx : Total x) (hf : ∀ a, Total (f a)) : Total (x >>= f) := by
  intro s
  obtain ⟨a, s₁, ha, hd, hp⟩ := hx s
  obtain ⟨b, s₂, hb, hd', hp'⟩ := hf a s₁
  exact ⟨b, s₂, emitter_bind_eq_ok.2 ⟨a, s₁, ha, hb⟩, hd'.trans hd, hp.trans hp'⟩

theorem pure (a : α) : Total (Pure.pure a : Emitter α) := fun s ↦ ⟨a, s, rfl, rfl, List.prefix_rfl⟩

theorem labels {x : Emit α} (h : Emit.Total x) : Total (Emitter.labels x) := by
  intro s
  obtain ⟨⟨a, n⟩, ha⟩ := h s.nextLabel
  exact ⟨a, _, emitter_labels_eq_ok.2 ⟨n, ha, rfl⟩, rfl, List.prefix_rfl⟩

theorem note (e : Event) : Total (Emitter.note e) := fun _ ↦ ⟨_, _, rfl, rfl, List.prefix_rfl⟩

theorem addFunction (code : List Instr) : Total (Emitter.addFunction code) :=
  fun s ↦ ⟨_, _, rfl, rfl, List.prefix_append s.functions code⟩

/-- What it does whenever it has a result. -/
theorem of_eq_ok {a : α} {s s' : Emission} (h : Total x) (hx : x s = .ok a s') :
    s'.dispatch = s.dispatch ∧ s.functions <+: s'.functions := by
  obtain ⟨_, _, hx', hs⟩ := h s
  cases hx.symm.trans hx'
  exact hs

end Emitter.Total

section Functions

variable {ctx : Context} {env : Env} {t : Target}

theorem Env.declareParams_of_recorded {bs : List Binder} {offset : Int}
    (h : Recorded ctx (env.declareParams offset bs).2) :
    (env.declareParams offset bs).1.level = env.level ∧
      (env.declareParams offset bs).1.classes = env.classes ∧
      (env.declareParams offset bs).1.nextOffset = env.nextOffset := by
  induction bs generalizing env offset with
  | nil => exact ⟨rfl, rfl, rfl⟩
  | cons b bs ih =>
    simp only [declareParams, recorded_append] at h ⊢
    obtain ⟨scopes, hs, henv⟩ := Env.declare_of_recorded h.1
    obtain ⟨hl, hc, hn⟩ := ih h.2
    rw [hl, hc, hn, henv]
    exact ⟨Scopes.nestingLevel_of_declare? hs, rfl, rfl⟩

theorem Env.level_enter (h : env.scopes.frames ≠ []) : env.enter.level = env.level + 1 := by
  have := List.length_pos_iff.2 h
  simp only [enter, level, Scopes.nestingLevel, Scopes.push, List.length_cons]
  omega

theorem FunDecl.typeErrors_check {f : FunDecl} (h : typeErrors (f.check ctx).remarks = []) :
    typeErrors (Decl.checkAll ctx f.locals) = [] ∧
      typeErrors (checkBody ctx f.site f.name f.ret f.body).remarks = [] := by
  obtain ⟨site, name, ret, params, locals, body⟩ := f
  rw [FunDecl.check, typeErrors_append, List.append_eq_nil_iff] at h
  exact h

@[simp] theorem typeErrors_recover {x : Checked Unit} {name : String} :
    typeErrors (x.recover name) = typeErrors x.remarks := by
  rw [Checked.recover]
  split <;> simp [typeErrors]

@[simp] theorem typeErrors_recoverMethod {x : Checked Unit} {cls name : String} :
    typeErrors (x.recoverMethod cls name) = typeErrors x.remarks := by
  rw [Checked.recoverMethod]
  split <;> simp [typeErrors]

/-- The body of a function without errors has a type that fits its result type. -/
theorem FunDecl.body_typed {f : FunDecl} (hwithin : env.classes.Within ctx.classes)
    (hrec : Recorded ctx (f.body.resolve env))
    (h : typeErrors (checkBody ctx f.site f.name f.ret f.body).remarks = []) :
    ∃ ty, (f.body.check ctx).result = .ok ty ∧ ctx.subtype ty f.ret = true := by
  obtain ⟨u, hu⟩ := accounts_checkBody.exists_ok
    (resolves_checkBody (f.body.check_resolves hwithin hrec)) h
  simpa [checkBody] using hu

/-- The initial value of a variable without errors has a type that fits that of the variable. -/
theorem Decl.init_typed {site : Site} {x : String} {ty : Ty} {e : Expr}
    (hwithin : env.classes.Within ctx.classes) (hrec : Recorded ctx (e.resolve env))
    (h : typeErrors (Decl.check ctx (.var site x ty e)) = []) :
    ∃ ty', (e.check ctx).result = .ok ty' ∧ ctx.subtype ty' ty = true := by
  rw [Decl.check, typeErrors_recover] at h
  obtain ⟨u, hu⟩ := accounts_checkInit.exists_ok
    (resolves_checkInit (e.check_resolves hwithin hrec)) h
  simpa [checkInit] using hu

/-- A variable or function declared without an error adds its name to the scope. -/
theorem Decl.declares_of_recorded {d : Decl} (hd : d.classes = [])
    (hrec : Recorded ctx (d.resolve env).2) :
    ∃ ty, env.Declares d.name ty (d.resolve env).1 := by
  cases d with
  | var site x ty e =>
    simp only [Decl.resolve, recorded_append] at hrec ⊢
    exact ⟨_, Env.declares_of_recorded hrec.2⟩
  | func f =>
    simp only [Decl.resolve, recorded_append] at hrec ⊢
    exact ⟨_, Env.declares_of_recorded hrec.1.2⟩
  | cls c => cases hd

/-- No class is declared inside a function, if there is no error. -/
theorem Decl.classes_eq_nil {d : Decl} (hlevel : env.level ≠ 0)
    (hrec : Recorded ctx (d.resolve env).2) : d.classes = [] := by
  cases d with
  | cls c =>
    simp only [Decl.resolve, ClassDecl.resolve_eq, recorded_append] at hrec
    exact absurd (Env.classHead_of_recorded hrec.1).1 hlevel
  | _ => rfl

mutual

/-- The code of variables and functions without errors is emitted. -/
theorem Decl.emits (hk : t.Knows ctx) :
    ∀ (d : Decl) {env : Env}, d.classes = [] → env.scopes.frames ≠ [] →
      env.classes.Within ctx.classes → Recorded ctx (d.resolve env).2 →
      typeErrors (d.check ctx) = [] → (Decl.emit t d).Total
  | .var site x ty e, env, _, _, hwithin, hrec, hcheck => by
    simp only [Decl.resolve, recorded_append] at hrec
    obtain ⟨ty', hty, -⟩ := Decl.init_typed hwithin hrec.1.1 hcheck
    rw [Decl.emit]
    exact .labels (Expr.emits hk e hrec.1.1 hty)
  | .func f, env, _, hne, hwithin, hrec, hcheck => by
    simp only [Decl.resolve, recorded_append] at hrec
    rw [Decl.check, typeErrors_recover] at hcheck
    have hd := Env.declares_of_recorded hrec.1.2
    obtain ⟨frame, rest, -, -, hframes⟩ := hd.frames_eq
    rw [Decl.emit]
    refine .bind (.labels (.fresh _)) fun entry ↦
      .bind (FunDecl.emits hk f entry ?_ ?_ hrec.2 hcheck) fun _ ↦ .pure _
    · rw [hframes]
      exact List.cons_ne_nil _ _
    · rw [hd.classes_eq]
      exact hwithin
  | .cls _, _, hd, _, _, _, _ => nomatch hd
termination_by structural d => d

/-- The code of a function without errors is emitted. -/
theorem FunDecl.emits (hk : t.Knows ctx) :
    ∀ (f : FunDecl) {env : Env} (entry : Label), env.scopes.frames ≠ [] →
      env.classes.Within ctx.classes → Recorded ctx (f.resolveBody env) →
      typeErrors (f.check ctx).remarks = [] → (f.emit t entry).Total
  | ⟨site, name, ret, params, locals, body⟩, env, entry, hne, hwithin, hrec, hcheck => by
    rw [FunDecl.resolveBody_eq, recorded_append, recorded_append] at hrec
    obtain ⟨⟨hparams, hlocals⟩, hbody⟩ := hrec
    obtain ⟨hcl, hcb⟩ := FunDecl.typeErrors_check hcheck
    obtain ⟨hlevel, hclasses, -⟩ := Env.declareParams_of_recorded hparams
    have hlevel : (env.enter.declareParams firstParamOffset params).1.level ≠ 0 := by
      rw [hlevel, Env.level_enter hne]
      omega
    have hwithin' : (env.enter.declareParams firstParamOffset params).1.classes.Within
        ctx.classes := hclasses ▸ hwithin
    obtain ⟨hemit, hwithin''⟩ := Decl.emits_all hk locals hlevel hwithin' hlocals hcl
    obtain ⟨ty, hty, -⟩ := FunDecl.body_typed hwithin'' hbody hcb
    rw [FunDecl.emit]
    exact .bind (.note _) fun _ ↦ .bind hemit fun _ ↦
      .bind (.labels (Expr.emits hk body hbody hty)) fun _ ↦ .addFunction _
termination_by structural f => f

theorem Decl.emits_all (hk : t.Knows ctx) :
    ∀ (ds : List Decl) {env : Env}, env.level ≠ 0 → env.classes.Within ctx.classes →
      Recorded ctx (Decl.resolveAll env ds).2 → typeErrors (Decl.checkAll ctx ds) = [] →
      (Decl.emitAll t ds).Total ∧ (Decl.resolveAll env ds).1.classes.Within ctx.classes
  | [], env, _, hwithin, _, _ => by
    rw [Decl.emitAll]
    exact ⟨.pure _, hwithin⟩
  | d :: ds, env, hlevel, hwithin, hrec, hcheck => by
    simp only [Decl.resolveAll, recorded_append] at hrec ⊢
    rw [Decl.checkAll, typeErrors_append, List.append_eq_nil_iff] at hcheck
    have hnil := Decl.classes_eq_nil hlevel hrec.1
    obtain ⟨ty, hd⟩ := Decl.declares_of_recorded hnil hrec.1
    have hne : env.scopes.frames ≠ [] := by
      obtain ⟨frame, rest, hf, -⟩ := hd.frames_eq
      rw [hf]
      exact List.cons_ne_nil _ _
    obtain ⟨hrest, hwithin'⟩ := Decl.emits_all hk ds (hd.level_eq ▸ hlevel)
      (hd.classes_eq ▸ hwithin) hrec.2 hcheck.2
    rw [Decl.emitAll]
    exact ⟨.bind (Decl.emits hk d hnil hne hwithin hrec.1 hcheck.1) fun _ ↦
      .bind hrest fun _ ↦ .pure _, hwithin'⟩
termination_by structural ds => ds

end

end Functions

/-! ## Classes -/

section Methods

variable {ctx : Context} {env : Env} {t : Target}

/-- An entry goes where the name of its method stands. -/
theorem placeEntry?_position (x : String) (entry : Label) (entries : List (String × Label)) :
    placeEntry? (entries.map Prod.snd) (position x entries) entry
      = some ((insertIn x entry entries).map Prod.snd) := by
  have hlen : (entries.map Prod.snd).length = entries.length := List.length_map _
  rw [ placeEntry?, if_neg (by omega), Int.toNat_natCast, hlen]
  by_cases hx : x ∈ entries.map Prod.fst
  · rw [if_pos (position_lt_length hx), Table.map_snd_insertIn_of_mem hx]
    rfl
  · rw [position_eq_length hx, if_neg (Nat.lt_irrefl _), if_pos rfl,
      Table.insertIn_of_not_mem hx, List.map_append]
    rfl

theorem position_congr {α β : Type} {l : List (String × α)} {l' : List (String × β)}
    (h : l.map Prod.fst = l'.map Prod.fst) (x : String) : position x l = position x l' := by
  rw [position, position, h]

theorem map_fst_insertIn_congr {α β : Type} {l : List (String × α)} {l' : List (String × β)}
    (h : l.map Prod.fst = l'.map Prod.fst) (x : String) (v : α) (w : β) :
    (insertIn x v l).map Prod.fst = (insertIn x w l').map Prod.fst := by
  by_cases hx : x ∈ l.map Prod.fst
  · rw [Table.map_fst_insertIn_of_mem hx, Table.map_fst_insertIn_of_mem (h ▸ hx), h]
  · rw [Table.insertIn_of_not_mem hx, Table.insertIn_of_not_mem (h ▸ hx), List.map_append,
      List.map_append, h]
    rfl

/-- How the functions of some methods were emitted: each with its entry, at some point before the
state `last`. -/
def EmittedAs (t : Target) (last : Emission) (f : FunDecl) (entry : Label) : Prop :=
  ∃ s s', f.emit t entry s = .ok () s' ∧ s'.functions <+: last.functions

variable {l : ClassLayout} {base : MemberTable} {fields : List (String × Ty)}

theorem methodOffset_eq {f : FunDecl} {e : Entry} (hk : t.Knows ctx)
    (he : ctx.layouts.find? f.site.id = some e) (hnonneg : 0 ≤ e.offset) (s : Emission) :
    t.methodOffset f.site f.name s = .ok e.offset s :=
  Target.methodOffset_eq_ok.2 ⟨⟨e, hk.layouts ▸ he, hnonneg, rfl⟩, rfl⟩

/-- **Each method goes where its name stands** among the methods of the class.  So the table comes
out in step with the list that the layout amounts to. -/
theorem emitMethods_eq (hk : t.Knows ctx) {fs : List FunDecl}
    {methods : List (String × Signature)} {entries : List (String × Label)}
    (hl : Laid l.info fields methods) (hkeeps : l.Keeps base)
    (hrec : Recorded ctx (l.addMethods fs).2)
    (hover : ∀ f ∈ fs, ∀ e, base.find? f.name = some e → 0 ≤ e.offset)
    (hentries : entries.map Prod.fst = methods.map Prod.fst)
    (hemit : ∀ f ∈ fs, ∀ entry, (f.emit t entry).Total) (s : Emission) :
    ∃ own s', own.map Prod.fst = fs.map FunDecl.name ∧
      FunDecl.emitMethods t (entries.map Prod.snd) fs s
        = .ok ((insertAll own entries).map Prod.snd) s' ∧
      s'.dispatch = s.dispatch ∧ s.functions <+: s'.functions ∧
      List.Forall₂ (fun f p ↦ EmittedAs t s' f p.2) fs own := by
  induction fs generalizing l methods entries s with
  | nil => exact ⟨[], s, rfl, rfl, rfl, List.prefix_rfl, .nil⟩
  | cons f fs ih =>
    simp only [ClassLayout.addMethods, recorded_append] at hrec
    obtain ⟨hlaid, hk', hnoted⟩ :=
      ClassLayout.laid_recorded hl hkeeps hrec.1 (hover f List.mem_cons_self)
    let entry : Label := ⟨.method, s.nextLabel⟩
    obtain ⟨⟨⟩, s₁, hf, hd, hp⟩ := hemit f List.mem_cons_self entry
      { s with nextLabel := s.nextLabel + 1 }
    obtain ⟨own, s₂, hnames, hrest, hd', hp', hall⟩ := ih hlaid hk' hrec.2
      (fun g hg ↦ hover g (List.mem_cons_of_mem _ hg))
      (map_fst_insertIn_congr hentries f.name entry f.signature)
      (fun g hg ↦ hemit g (List.mem_cons_of_mem _ hg)) s₁
    refine ⟨(f.name, entry) :: own, s₂, by rw [List.map_cons, hnames]; rfl, ?_, hd'.trans hd,
      hp.trans hp', .cons ⟨_, s₁, hf, hp'⟩ hall⟩
    refine FunDecl.emitMethods_cons_eq_ok.2
      ⟨_, s₁, _, hk.layouts ▸ hnoted, Int.natCast_nonneg _, hf, ?_, hrest⟩
    rw [← position_congr hentries, placeEntry?_position]

/-- A method that overrides a field has no place, and nothing is emitted. -/
theorem emitMethods_eq_error (hk : t.Knows ctx) {fs : List FunDecl}
    {methods : List (String × Signature)} {entries : List (String × Label)}
    (hl : Laid l.info fields methods) (hkeeps : l.Keeps base)
    (hrec : Recorded ctx (l.addMethods fs).2)
    (hmethod : ∀ f ∈ fs, ∀ e, base.find? f.name = some e → e.ty.isMethod = true)
    (hentries : entries.map Prod.fst = methods.map Prod.fst)
    (hemit : ∀ f ∈ fs, ∀ entry, (f.emit t entry).Total)
    (hbad : ∃ f ∈ fs, ∃ e, base.find? f.name = some e ∧ e.offset < 0) (s : Emission) :
    ∃ f ∈ fs, (∃ e, base.find? f.name = some e ∧ e.offset < 0) ∧
      ∃ s', FunDecl.emitMethods t (entries.map Prod.snd) fs s
        = .error (.missingLayout f.name f.site.line) s' := by
  induction fs generalizing l methods entries s with
  | nil => obtain ⟨f, hf, -⟩ := hbad; cases hf
  | cons f fs ih =>
    simp only [ClassLayout.addMethods, recorded_append] at hrec
    have hnew := ClassLayout.addMethod_new hrec.1
    by_cases hf : ∃ e, base.find? f.name = some e ∧ e.offset < 0
    · obtain ⟨e, he, hneg⟩ := hf
      refine ⟨f, List.mem_cons_self, ⟨e, he, hneg⟩, s, ?_⟩
      have hplace : (l.methodPlace f.name f.signature).1 = e.offset := by
        rw [ClassLayout.methodPlace, hkeeps f.name hnew, he, Option.filter_some,
          if_pos (hmethod f List.mem_cons_self e he)]
      have hlayout := hrec.1
      rw [ClassLayout.addMethod_eq hnew, hplace, recorded_cons] at hlayout
      have hoffset : t.methodOffset f.site f.name s
          = .error (.missingLayout f.name f.site.line) s := by
        have hfind : t.ctx.layouts.find? f.site.id = some ⟨1, .method f.signature, e.offset⟩ :=
          hk.layouts ▸ hlayout.1
        simp only [Target.methodOffset, hfind]
        rw [if_neg (by omega)]
        rfl
      rw [FunDecl.emitMethods]
      simp only [bind, EStateM.bind, hoffset]
    · have hgood : ∀ e, base.find? f.name = some e → 0 ≤ e.offset := fun e he ↦ by
        by_contra hneg
        exact hf ⟨e, he, by omega⟩
      obtain ⟨hlaid, hk', hnoted⟩ := ClassLayout.laid_recorded hl hkeeps hrec.1 hgood
      obtain ⟨g, hg, hover⟩ := hbad
      have hg : g ∈ fs := (List.mem_cons.1 hg).resolve_left fun e ↦ hf (e ▸ hover)
      let entry : Label := ⟨.method, s.nextLabel⟩
      obtain ⟨⟨⟩, s₁, hemitted, -, -⟩ := hemit f List.mem_cons_self entry
        { s with nextLabel := s.nextLabel + 1 }
      obtain ⟨g', hg', hover', s', herr⟩ := ih hlaid hk' hrec.2
        (fun g hg ↦ hmethod g (List.mem_cons_of_mem _ hg))
        (map_fst_insertIn_congr hentries f.name entry f.signature)
        (fun g hg ↦ hemit g (List.mem_cons_of_mem _ hg)) ⟨g, hg, hover⟩ s₁
      refine ⟨g', List.mem_cons_of_mem _ hg', hover', s', ?_⟩
      have hmo := methodOffset_eq hk hnoted (Int.natCast_nonneg _) s
      have hfresh : Emitter.labels (Label.fresh .method) s
          = .ok entry { s with nextLabel := s.nextLabel + 1 } := rfl
      rw [FunDecl.emitMethods]
      simp only [bind, EStateM.bind, hmo, hfresh, hemitted]
      rw [← position_congr hentries, placeEntry?_position]
      exact herr

end Methods

/-- The nearest declaration of a method, from a class upwards, given the classes declared so far,
newest first. -/
def nearestMethod (x : String) : List ClassDecl → String → Option FunDecl
  | [], _ => none
  | c :: older, name =>
    if c.name = name then
      match c.methods.find? fun f ↦ f.name = x with
      | some f => some f
      | none =>
        match c.superclass with
        | some s => nearestMethod x older s
        | none => none
    else nearestMethod x older name

/-- The entries of a dispatch table: one for each method of the class, and each the entry of its
nearest declaration. -/
structure EntriesOf (t : Target) (s : Emission) (cs : List ClassDecl) (name : String)
    (entries : List (String × Label)) : Prop where
  /-- There is an entry for each method. -/
  names : entries.map Prod.fst = (membersOf ClassDecl.ownMethods cs name).map Prod.fst
  /-- It belongs to the nearest declaration. -/
  emitted : ∀ x l, lookupIn x entries = some l →
    ∃ f, nearestMethod x cs name = some f ∧ EmittedAs t s f l

/-- All registered classes have their dispatch tables, and these consist of the entries that their
methods have been given. -/
def Emission.Tables (t : Target) (s : Emission) (classes : ClassTable) (cs : List ClassDecl) :
    Prop :=
  ∀ name i, classes.info? name = some i →
    ∃ entries, EntriesOf t s cs name entries ∧ s.dispatch.find? name = some (entries.map Prod.snd)

theorem EmittedAs.mono {t : Target} {s s' : Emission} {f : FunDecl} {l : Label}
    (h : EmittedAs t s f l) (hp : s.functions <+: s'.functions) : EmittedAs t s' f l := by
  obtain ⟨s₁, s₂, hf, hpre⟩ := h
  exact ⟨s₁, s₂, hf, hpre.trans hp⟩

theorem EntriesOf.mono {t : Target} {s s' : Emission} {cs : List ClassDecl} {name : String}
    {entries : List (String × Label)} (h : EntriesOf t s cs name entries)
    (hp : s.functions <+: s'.functions) : EntriesOf t s' cs name entries :=
  ⟨h.names, fun x l hl ↦ (h.emitted x l hl).imp fun _ hf ↦ ⟨hf.1, hf.2.mono hp⟩⟩

/-- The entries of a class that is not the newest one. -/
theorem EntriesOf.older {t : Target} {s : Emission} {cs : List ClassDecl} {c : ClassDecl}
    {name : String} {entries : List (String × Label)} (h : EntriesOf t s cs name entries)
    (hne : c.name ≠ name) : EntriesOf t s (c :: cs) name entries := by
  refine ⟨by rw [membersOf_cons, if_neg hne, h.names], fun x l hl ↦ ?_⟩
  rw [nearestMethod, if_neg hne]
  exact h.emitted x l hl

theorem find?_of_forall₂ {R : FunDecl → String × Label → Prop} {fs : List FunDecl}
    {own : List (String × Label)} (h : List.Forall₂ R fs own)
    (hnames : own.map Prod.fst = fs.map FunDecl.name) (x : String) :
    (lookupIn x own = none ∧ fs.find? (fun f ↦ f.name = x) = none) ∨
      ∃ f p, lookupIn x own = some p.2 ∧ fs.find? (fun f ↦ f.name = x) = some f ∧ R f p := by
  induction h with
  | nil => exact .inl ⟨rfl, rfl⟩
  | @cons f p fs own hR _ ih =>
    obtain ⟨y, l⟩ := p
    rw [List.map_cons, List.map_cons, List.cons.injEq] at hnames
    obtain ⟨hy, hnames⟩ := hnames
    rw [lookupIn, List.find?_cons]
    by_cases hx : y = x
    · right
      have hfx : decide (f.name = x) = true := by simpa [← hy] using hx
      simp only [hx, if_true, hfx]
      exact ⟨f, (y, l), rfl, rfl, hR⟩
    · have hfx : decide (f.name = x) = false := by simpa [← hy] using hx
      simp only [hx, if_false, hfx]
      exact ih hnames

section Classes

variable {ctx : Context} {env : Env} {t : Target} {cs : List ClassDecl} {c : ClassDecl}

theorem typeErrors_checkMethods {cls : String} {fs : List FunDecl}
    (h : typeErrors (FunDecl.checkMethods ctx cls fs) = []) :
    ∀ f ∈ fs, typeErrors (f.check ctx).remarks = [] := by
  induction fs with
  | nil => nofun
  | cons f fs ih =>
    rw [FunDecl.checkMethods, typeErrors_append, typeErrors_recoverMethod,
      List.append_eq_nil_iff] at h
    exact List.forall_mem_cons.2 ⟨h.1, ih h.2⟩

theorem ClassDecl.typeErrors_check (h : typeErrors (c.check ctx) = []) :
    (∀ f ∈ c.methods, typeErrors (f.check ctx).remarks = []) ∧
      typeErrors (ctx.checkOverrides c) = [] := by
  obtain ⟨site, name, superclass, fields, methods⟩ := c
  rw [ClassDecl.check, typeErrors_append, List.append_eq_nil_iff] at h
  exact ⟨typeErrors_checkMethods h.1, h.2⟩

/-- What analysis without errors finds out about a global class, at the point of the program
where it is declared. -/
structure Env.Accepts (ctx : Context) (env : Env) (c : ClassDecl) : Prop where
  /-- Name analysis has found no error. -/
  recorded : Recorded ctx (c.resolve env).2
  /-- Type checking has found no error. -/
  checked : typeErrors (c.check ctx) = []
  /-- The classes are known. -/
  within : (c.resolve env).1.classes.Within ctx.classes

namespace Env.Accepts

theorem head (h : env.Accepts ctx c) : Recorded ctx (env.classHead c).2.2 := by
  have := h.recorded
  rw [ClassDecl.resolve_eq, recorded_append] at this
  exact this.1

theorem resolve_fst (env : Env) (c : ClassDecl) : (c.resolve env).1 = (env.classHead c).1 := by
  rw [ClassDecl.resolve_eq]

theorem bodies (h : env.Accepts ctx c) :
    ∀ f ∈ c.methods, Recorded ctx (f.resolveBody (env.classHead c).2.1) := by
  have := h.recorded
  rw [ClassDecl.resolve_eq, recorded_append] at this
  exact recorded_resolveBodies this.2

/-- The classes are known before a class as well. -/
theorem within_before (hg : env.Global ctx cs) (h : env.Accepts ctx c) :
    env.classes.Within ctx.classes :=
  (hg.top.resolve (d := .cls c) (by rw [Decl.resolve]; exact h.recorded)).2.trans
    (by rw [Decl.resolve]; exact h.within)

theorem base_members (hg : env.Global ctx cs) (h : env.Accepts ctx c) :
    (env.classes.base c).members = ctx.inheritedMembers c :=
  ClassTable.base_members (h.within_before hg) (Env.classHead_of_recorded h.head).2.1

theorem sound (hg : env.Global ctx cs) (h : env.Accepts ctx c) :
    c.Sound ctx (env.classes.base c).members :=
  h.base_members hg ▸ ClassDecl.sound_of_checkOverrides (ClassDecl.typeErrors_check h.checked).2

theorem methods_emit (hk : t.Knows ctx) (h : env.Accepts ctx c) :
    ∀ f ∈ c.methods, ∀ entry, (f.emit t entry).Total := by
  obtain ⟨-, -, -, hd, hinside⟩ := Env.classHead_of_recorded h.head
  intro f hf entry
  refine FunDecl.emits hk f entry ?_ ?_ (h.bodies f hf)
    ((ClassDecl.typeErrors_check h.checked).1 f hf)
  · rw [hinside]
    exact List.cons_ne_nil _ _
  · rw [hinside, ← resolve_fst]
    exact h.within

/-- The layout of a class after its fields. -/
theorem laid_fields (hg : env.Global ctx cs) (h : env.Accepts ctx c) :
    ∃ fields, Laid ((ClassLayout.inherit (env.classes.base c)).addFields c.fields).1.info fields
        (inheritedOf ClassDecl.ownMethods cs c) ∧
      ((ClassLayout.inherit (env.classes.base c)).addFields c.fields).1.Keeps
        (env.classes.base c).members ∧
      Recorded ctx (((ClassLayout.inherit (env.classes.base c)).addFields c.fields).1.addMethods
        c.methods).2 := by
  obtain ⟨-, hknown, hlaid, -, -⟩ := Env.classHead_of_recorded h.head
  have hlaid := recorded_append.1 hlaid
  obtain ⟨hf, hkeeps⟩ := ClassLayout.laid_addFields (l := .inherit (env.classes.base c))
    (laid_base hknown fun s i ↦ hg.classes.laid) (ClassLayout.keeps_inherit _) hlaid.1
    fun b hb e he ↦ Context.isMethod_of_fieldOverrides ((h.sound hg).fields b hb e he)
  exact ⟨_, hf, hkeeps, hlaid.2⟩

/-- What is known about an accepted class, and about the class above it. -/
theorem info_eq (htop : env.AtTop) (h : env.Accepts ctx c) :
    (c.resolve env).1.classes.info? c.name = some (env.classes.layout c) ∧
      ctx.classes.superclass? c.name = c.superclass := by
  obtain ⟨-, -, -, hd, -⟩ := Env.classHead_of_recorded h.head
  have hnew := htop.info?_eq_none hd
  have hinfo : (c.resolve env).1.classes.info? c.name = some (env.classes.layout c) := by
    rw [resolve_fst, hd.classes_eq, ClassTable.info?_extend hnew, if_pos rfl]
  refine ⟨hinfo, ?_⟩
  rw [h.within.superclass hinfo, resolve_fst, hd.classes_eq,
    ClassTable.superclass?_extend hnew (htop.links _ hnew), if_pos rfl]

/-- A class starts out with the dispatch table of its superclass. -/
theorem inheritedDispatch (hg : env.Global ctx cs) (h : env.Accepts ctx c) (hk : t.Knows ctx)
    {s : Emission} (htables : s.Tables t env.classes cs) :
    ∃ entries, t.inheritedDispatch c.name s = .ok (entries.map Prod.snd) s ∧
      entries.map Prod.fst = (inheritedOf ClassDecl.ownMethods cs c).map Prod.fst ∧
      ∀ x l, lookupIn x entries = some l →
        ∃ f, (c.superclass.bind fun s ↦ nearestMethod x cs s) = some f ∧ EmittedAs t s f l := by
  obtain ⟨-, hknown, -, -, -⟩ := Env.classHead_of_recorded h.head
  have hsup : t.ctx.classes.superclass? c.name = c.superclass := by
    rw [hk.classes, (h.info_eq hg.top).2]
  have heq : ∀ table, ((t.ctx.classes.superclass? c.name).bind s.dispatch.find?).getD [] = table →
      t.inheritedDispatch c.name s = .ok table s := by
    rintro table rfl
    rfl
  rw [hsup] at heq
  rw [inheritedOf]
  cases hs : c.superclass with
  | none => exact ⟨[], heq _ (by rw [hs]; rfl), rfl, fun x l h ↦ by cases h⟩
  | some s' =>
    obtain ⟨i, hi⟩ := hknown s' hs
    obtain ⟨entries, hentries, hfind⟩ := htables s' i hi
    exact ⟨entries, heq _ (by simp [hs, hfind]), hentries.names, hentries.emitted⟩

/-- **The dispatch table of a class** has the entry of the nearest declaration for each method, and
is built by the code of the class. -/
theorem emit_spec (hg : env.Global ctx cs) (h : env.Accepts ctx c) (hk : t.Knows ctx)
    {s : Emission} (htables : s.Tables t env.classes cs)
    (hdisp : c.Dispatched (ctx.inheritedMembers c)) :
    ∃ entries s', c.emit t s = .ok (buildDispatch (entries.map Prod.snd)) s' ∧
      EntriesOf t s' (c :: cs) c.name entries ∧
      s'.Tables t (c.resolve env).1.classes (c :: cs) ∧ s.functions <+: s'.functions := by
  obtain ⟨inherited, hinherited, hnames, hemitted⟩ := h.inheritedDispatch hg hk htables
  obtain ⟨fields, hlaid, hkeeps, hrec⟩ := h.laid_fields hg
  obtain ⟨own, s₁, hown, htable, hd, hp, hall⟩ := emitMethods_eq hk hlaid hkeeps hrec
    (h.base_members hg ▸ hdisp) hnames (h.methods_emit hk) s
  have hnd : (own.map Prod.fst).Nodup := by
    rw [hown]
    exact (laid_layout (laid_base (Env.classHead_of_recorded h.head).2.1
      fun s i ↦ hg.classes.laid) (Env.classHead_of_recorded h.head).2.2.1 (h.sound hg)
      (h.base_members hg ▸ hdisp)).2.2
  let s' : Emission := { s₁ with
    log := s₁.log ++ [.dispatchTable c.name ((insertAll own inherited).map Prod.snd).length]
    dispatch := s₁.dispatch.insert c.name ((insertAll own inherited).map Prod.snd) }
  have hentries : EntriesOf t s' (c :: cs) c.name (insertAll own inherited) := by
    refine ⟨?_, fun x l hl ↦ ?_⟩
    · rw [membersOf_cons, if_pos rfl, Table.map_fst_insertAll hnd,
        Table.map_fst_insertAll (by rw [c.map_fst_ownMethods, ClassDecl.methodNames, ← hown]
                                    exact hnd), hnames, hown, c.map_fst_ownMethods]
      rfl
    · rw [Table.lookupIn_insertAll hnd] at hl
      rw [nearestMethod, if_pos rfl]
      rcases find?_of_forall₂ hall hown x with ⟨hno, hfind⟩ | ⟨f, p, hyes, hfind, hf⟩
      · rw [hno, Option.none_or] at hl
        obtain ⟨f, hf, hf'⟩ := hemitted x l hl
        refine ⟨f, ?_, hf'.mono hp⟩
        rw [hfind]
        cases hs : c.superclass with
        | none => rw [hs] at hf; cases hf
        | some s => rw [hs] at hf; exact hf
      · rw [hyes, Option.some_or, Option.some.injEq] at hl
        rw [hfind]
        exact ⟨f, rfl, hl ▸ hf⟩
  refine ⟨insertAll own inherited, s', ?_, hentries, fun name i hi ↦ ?_, hp⟩
  · obtain ⟨site, name, superclass, fields', methods⟩ := c
    rw [ClassDecl.emit, emitter_bind_eq_ok]
    refine ⟨_, s, hinherited, ?_⟩
    rw [emitter_bind_eq_ok]
    exact ⟨_, s₁, htable, rfl⟩
  · obtain ⟨-, -, -, hd', -⟩ := Env.classHead_of_recorded h.head
    rw [resolve_fst, hd'.classes_eq, ClassTable.info?_extend (hg.top.info?_eq_none hd')] at hi
    by_cases hname : c.name = name
    · subst hname
      exact ⟨_, hentries, Table.find?_insert_self _ _ _⟩
    · rw [if_neg hname] at hi
      obtain ⟨entries, hold, hfind⟩ := htables name i hi
      have hold' : EntriesOf t s' cs name entries := hold.mono hp
      refine ⟨entries, hold'.older hname, ?_⟩
      rw [Table.find?_insert_of_ne _ _ hname, hd, hfind]

/-- A class in which a method overrides a field has no dispatch table. -/
theorem emit_eq_error (hg : env.Global ctx cs) (h : env.Accepts ctx c) (hk : t.Knows ctx)
    {s : Emission} (htables : s.Tables t env.classes cs)
    (hdisp : ¬ c.Dispatched (ctx.inheritedMembers c)) :
    ∃ f ∈ c.methods, (∃ e, (ctx.inheritedMembers c).find? f.name = some e ∧ e.offset < 0) ∧
      ∃ s', c.emit t s = .error (.missingLayout f.name f.site.line) s' := by
  obtain ⟨inherited, hinherited, hnames, -⟩ := h.inheritedDispatch hg hk htables
  obtain ⟨fields, hlaid, hkeeps, hrec⟩ := h.laid_fields hg
  simp only [ClassDecl.Dispatched, not_forall, Int.not_le] at hdisp
  obtain ⟨f, hf, e, he, hneg⟩ := hdisp
  rw [← h.base_members hg] at he
  obtain ⟨g, hg', hover, s', herr⟩ := emitMethods_eq_error hk hlaid hkeeps hrec
    (fun f hf e he ↦ Context.isMethod_of_methodOverrides ((h.sound hg).methods f hf e he))
    hnames (h.methods_emit hk) ⟨f, hf, e, he, hneg⟩ s
  refine ⟨g, hg', h.base_members hg ▸ hover, s', ?_⟩
  obtain ⟨site, name, superclass, fields', methods⟩ := c
  rw [ClassDecl.emit]
  simp only [bind, EStateM.bind, hinherited, herr]

end Env.Accepts

end Classes

/-! ## Programs -/

section Programs

variable {ctx : Context} {t : Target}

/-- What analysis without errors finds out about a program.  Every lemma about the code of a program
begins with this. -/
structure Program.Accepted (ctx : Context) (p : Program) : Prop where
  /-- Everything that name analysis has found is known. -/
  recorded : Recorded ctx (p.resolve .empty).2
  /-- Type checking has found no error. -/
  checked : typeErrors (p.check ctx).remarks = []
  /-- The classes are known. -/
  classes : ctx.classes = (p.resolve .empty).1

/-- What has been found out about an expression without declarations. -/
theorem Program.Accepted.of_bare {body : Expr} (h : (bare body).Accepted ctx) :
    Recorded ctx (body.resolve ⟨.empty, .empty, firstDeclOffset⟩) ∧ ctx.classes = .empty ∧
      ∃ ty, (body.check ctx).result = .ok ty := by
  have hcheck := h.checked
  rw [Program.check, typeErrors_append, List.append_eq_nil_iff] at hcheck
  have hclasses : ctx.classes = .empty := h.classes
  exact ⟨h.recorded, hclasses, Expr.check_succeeds (hclasses ▸ .refl _) h.recorded hcheck.2⟩

/-- What has been found out about declarations and the expression after them. -/
theorem Program.Accepted.of_letIn {line : Nat} {decls : List Decl} {body : Expr}
    (h : (letIn line decls body).Accepted ctx) :
    Recorded ctx (Decl.resolveAll ⟨.push .empty ∅, .empty, firstDeclOffset⟩ decls).2 ∧
      typeErrors (Decl.checkAll ctx decls) = [] ∧
      ctx.classes = (Decl.resolveAll ⟨.push .empty ∅, .empty, firstDeclOffset⟩ decls).1.classes ∧
      Recorded ctx
        (body.resolve (Decl.resolveAll ⟨.push .empty ∅, .empty, firstDeclOffset⟩ decls).1) ∧
      ∃ ty, (body.check ctx).result = .ok ty := by
  have hrec := h.recorded
  have hcheck := h.checked
  have hclasses := h.classes
  rw [Program.check, typeErrors_append, List.append_eq_nil_iff] at hcheck
  simp only [Program.resolve, recorded_append] at hrec hclasses
  exact ⟨hrec.1, hcheck.1, hclasses, hrec.2,
    Expr.check_succeeds (hclasses ▸ .refl _) hrec.2 hcheck.2⟩

/-- No method of a program overrides a field.  Type checking does not see to this: a field declared
with the type of a method looks like a method to it. -/
def Program.Dispatched (ctx : Context) (p : Program) : Prop :=
  ∀ d ∈ p.decls, ∀ c ∈ d.classes, c.Dispatched (ctx.inheritedMembers c)

/-- A global declaration is emitted, and the classes have their dispatch tables after it. -/
theorem Decl.emit_global (hk : t.Knows ctx) {d : Decl} {env : Env} {cs : List ClassDecl}
    {s : Emission} (hg : env.Global ctx cs) (htables : s.Tables t env.classes cs)
    (hrec : Recorded ctx (d.resolve env).2) (hcheck : typeErrors (d.check ctx) = [])
    (hwithin : (d.resolve env).1.classes.Within ctx.classes)
    (hdisp : ∀ c ∈ d.classes, c.Dispatched (ctx.inheritedMembers c)) :
    ∃ is s', d.emit t s = .ok is s' ∧
      s'.Tables t (d.resolve env).1.classes (d.classes ++ cs) := by
  by_cases hnil : d.classes = []
  · obtain ⟨frame, hframes, -⟩ := hg.top.scope
    obtain ⟨ty, hdecl⟩ := Decl.declares_of_recorded hnil hrec
    have hclasses := hdecl.classes_eq
    obtain ⟨is, s', hd, hdispatch, hp⟩ := Decl.emits hk d hnil (hframes ▸ List.cons_ne_nil _ _)
      (hclasses ▸ hwithin) hrec hcheck s
    refine ⟨is, s', hd, fun name i hi ↦ ?_⟩
    rw [hclasses] at hi
    obtain ⟨entries, hentries, hfind⟩ := htables name i hi
    rw [hnil]
    exact ⟨entries, hentries.mono hp, hdispatch ▸ hfind⟩
  · cases d with
    | cls c =>
      rw [Decl.resolve] at hrec hwithin ⊢
      obtain ⟨entries, s', hemit, -, htables', -⟩ := Env.Accepts.emit_spec hg
        ⟨hrec, hcheck, hwithin⟩ hk htables (hdisp c (List.mem_singleton_self c))
      exact ⟨_, s', by rw [Decl.emit]; exact hemit, htables'⟩
    | _ => exact absurd rfl hnil

/-- **Global declarations** are emitted if the methods of their classes override only what has a
place in the dispatch table; otherwise the first method that does not is reported. -/
theorem Decl.emitAll_spec (hk : t.Knows ctx) {ds : List Decl} {env : Env} {cs : List ClassDecl}
    {s : Emission} (hg : env.Global ctx cs) (htables : s.Tables t env.classes cs)
    (hrec : Recorded ctx (Decl.resolveAll env ds).2)
    (hcheck : typeErrors (Decl.checkAll ctx ds) = [])
    (hwithin : (Decl.resolveAll env ds).1.classes.Within ctx.classes) :
    ((∀ d ∈ ds, ∀ c ∈ d.classes, c.Dispatched (ctx.inheritedMembers c)) →
      ∃ is s' cs', Decl.emitAll t ds s = .ok is s' ∧
        (Decl.resolveAll env ds).1.Global ctx cs') ∧
    ((¬ ∀ d ∈ ds, ∀ c ∈ d.classes, c.Dispatched (ctx.inheritedMembers c)) →
      ∃ d ∈ ds, ∃ c ∈ d.classes, ∃ f ∈ c.methods,
        (∃ e, (ctx.inheritedMembers c).find? f.name = some e ∧ e.offset < 0) ∧
        ∃ s', Decl.emitAll t ds s = .error (.missingLayout f.name f.site.line) s') := by
  induction ds generalizing env cs s with
  | nil =>
    exact ⟨fun _ ↦ ⟨[], s, cs, rfl, hg⟩,
      fun h ↦ absurd (fun d hd ↦ absurd hd List.not_mem_nil) h⟩
  | cons d ds ih =>
    simp only [Decl.resolveAll, recorded_append] at hrec hwithin ⊢
    rw [Decl.checkAll, typeErrors_append, List.append_eq_nil_iff] at hcheck
    obtain ⟨htop, hwithin₁⟩ := hg.top.resolve hrec.1
    have hwithin' := (htop.within_resolveAll hrec.2).trans hwithin
    by_cases hdisp : ∀ c ∈ d.classes, c.Dispatched (ctx.inheritedMembers c)
    · have hg' := hg.resolve hrec.1 hcheck.1 (hwithin₁.trans hwithin') hdisp
      obtain ⟨is, s₁, hd, htables'⟩ := Decl.emit_global hk hg htables hrec.1 hcheck.1 hwithin' hdisp
      obtain ⟨hgood, hbad⟩ := ih hg' htables' hrec.2 hcheck.2 hwithin
      refine ⟨fun hall ↦ ?_, fun hnot ↦ ?_⟩
      · obtain ⟨js, s₂, cs', hds, hfinal⟩ := hgood fun d hd ↦ hall d (List.mem_cons_of_mem _ hd)
        refine ⟨is ++ js, s₂, cs', ?_, hfinal⟩
        simp only [Decl.emitAll, emitter_bind_eq_ok]
        exact ⟨is, s₁, hd, js, s₂, hds, rfl⟩
      · rw [List.forall_mem_cons, not_and] at hnot
        obtain ⟨d', hd', c, hc, f, hf, hover, s₂, herr⟩ := hbad (hnot hdisp)
        refine ⟨d', List.mem_cons_of_mem _ hd', c, hc, f, hf, hover, s₂, ?_⟩
        rw [Decl.emitAll]
        simp only [bind, EStateM.bind, hd, herr]
    · refine ⟨fun hall ↦ absurd (hall d List.mem_cons_self) hdisp, fun _ ↦ ?_⟩
      cases d with
      | cls c =>
        rw [Decl.resolve] at hrec hwithin'
        have hdisp : ¬ c.Dispatched (ctx.inheritedMembers c) := fun h ↦
          hdisp (by simpa [Decl.classes] using h)
        obtain ⟨f, hf, hover, s₁, herr⟩ := Env.Accepts.emit_eq_error hg
          ⟨hrec.1, hcheck.1, hwithin'⟩ hk htables hdisp
        refine ⟨.cls c, List.mem_cons_self, c, List.mem_singleton_self c, f, hf, hover, s₁, ?_⟩
        rw [Decl.emitAll, Decl.emit]
        simp only [bind, EStateM.bind, herr]
      | _ => exact absurd (fun c hc ↦ absurd hc List.not_mem_nil) hdisp

/-- The code of a program is its main code with the functions after it. -/
theorem Program.emit_of_emitMain {p : Program} {main : List Instr} {s : Emission}
    (h : p.emitMain t {} = .ok main s) :
    p.emit t {} = .ok (main ++ s.functions)
      { s with log := s.log ++
        [.codeGenerated main.length (main ++ s.functions).length s.dispatch.size] } := by
  rw [Program.emit]
  simp only [bind, EStateM.bind, h]
  rfl

/-- The main code of a program is emitted, or a method has no place. -/
theorem Program.emitMain_spec (hk : t.Knows ctx) {p : Program} (h : p.Accepted ctx) :
    (p.Dispatched ctx → ∃ is s, p.emitMain t {} = .ok is s) ∧
    (¬ p.Dispatched ctx → ∃ d ∈ p.decls, ∃ c ∈ d.classes, ∃ f ∈ c.methods,
      (∃ e, (ctx.inheritedMembers c).find? f.name = some e ∧ e.offset < 0) ∧
      ∃ s, p.emitMain t {} = .error (.missingLayout f.name f.site.line) s) := by
  cases p with
  | bare body =>
    obtain ⟨hrec, -, ty, hty⟩ := h.of_bare
    refine ⟨fun _ ↦ ?_, fun hnot ↦ absurd (fun d hd ↦ absurd hd List.not_mem_nil) hnot⟩
    obtain ⟨⟨is, n⟩, hemit⟩ := Expr.emits hk body hrec hty 0
    refine ⟨is ++ [.plain .halt], { nextLabel := n }, ?_⟩
    simp only [Program.emitMain, emitter_bind_eq_ok, emitter_labels_eq_ok, emitter_pure]
    exact ⟨is, _, ⟨n, hemit, rfl⟩, rfl⟩
  | letIn line decls body =>
    obtain ⟨hrec, hcheck, hclasses, hbody, ty, hty⟩ := h.of_letIn
    obtain ⟨hgood, hbad⟩ := Decl.emitAll_spec hk (s := {}) (.start ctx) (fun _ _ h ↦ by cases h)
      hrec hcheck (hclasses ▸ .refl _)
    refine ⟨fun hdisp ↦ ?_, fun hnot ↦ ?_⟩
    · obtain ⟨is, s, cs, hds, hfinal⟩ := hgood hdisp
      obtain ⟨⟨js, n⟩, hemit⟩ := Expr.emits hk body hbody hty s.nextLabel
      refine ⟨[.push 0] ++ is ++ js ++ [.plain .halt], { s with nextLabel := n }, ?_⟩
      simp only [Program.emitMain, emitter_bind_eq_ok, emitter_labels_eq_ok, emitter_pure]
      exact ⟨is, s, hds, js, _, ⟨n, hemit, rfl⟩, rfl⟩
    · obtain ⟨d, hd, c, hc, f, hf, hover, s, herr⟩ := hbad hnot
      refine ⟨d, hd, c, hc, f, hf, hover, s, ?_⟩
      rw [Program.emitMain]
      simp only [bind, EStateM.bind, herr]

end Programs

/-! ## Analysis without errors -/

section Analysis

variable {t : Toolchain} {p : Program}

/-- What name analysis finds out about a program.  Type checking only adds types and errors to
it. -/
def Program.resolved (p : Program) : Context :=
  { classes := (p.resolve .empty).1 : Context }.addFindings (p.resolve .empty).2

theorem classes_addFindings (ctx : Context) (fs : List Finding) :
    (ctx.addFindings fs).classes = ctx.classes := by
  induction fs generalizing ctx with
  | nil => rfl
  | cons f fs ih =>
    rw [Context.addFindings, List.foldl_cons, ← Context.addFindings, ih]
    cases f <;> rfl

theorem knows_addRemarks (ctx : Context) (rs : List Remark) (base : Int32) :
    Target.Knows ⟨ctx.addRemarks rs, base⟩ ctx := by
  induction rs generalizing ctx with
  | nil => exact ⟨rfl, rfl, rfl, rfl⟩
  | cons r rs ih =>
    rw [Context.addRemarks, List.foldl_cons, ← Context.addRemarks]
    obtain ⟨h₁, h₂, h₃, h₄⟩ := ih (ctx.addRemark r)
    cases r <;> exact ⟨h₁, h₂, h₃, h₄⟩

theorem Toolchain.knows (t : Toolchain) (p : Program) :
    (t.target (t.analyze p)).Knows p.resolved :=
  knows_addRemarks p.resolved (p.check p.resolved).remarks t.options.globalBase

/-- The errors that are counted are those that the analyses find. -/
theorem Toolchain.counts_eq (t : Toolchain) (p : Program) :
    (t.analyze p).counts =
      { lexical := t.lexical, syntactic := t.syntactic
        scope := (scopeErrors (p.resolve .empty).2).length
        types := (typeErrors (p.check p.resolved).remarks).length } := by
  have hcounts : (t.analyze p).counts =
      { lexical := t.lexical, syntactic := t.syntactic
        scope := (p.resolved.addRemarks (p.check p.resolved).remarks).scopeErrors.length
        types := (p.resolved.addRemarks (p.check p.resolved).remarks).typeErrors.length } := rfl
  rw [hcounts, Context.scopeErrors_addRemarks, Context.typeErrors_addRemarks, Program.resolved,
    Context.scopeErrors_addFindings, Context.typeErrors_addFindings, List.nil_append,
    List.nil_append]

/-- What it means that the analyses find no errors. -/
theorem Toolchain.isClean_iff :
    (t.analyze p).counts.isClean = true ↔
      t.lexical = 0 ∧ t.syntactic = 0 ∧ scopeErrors (p.resolve .empty).2 = [] ∧
        typeErrors (p.check p.resolved).remarks = [] := by
  rw [ErrorCounts.isClean_iff, Toolchain.counts_eq]
  simp only [List.length_eq_zero_iff]

/-- After a name analysis without errors, everything that it has found is known. -/
theorem Program.recorded_resolved (hids : p.ids.Nodup)
    (hscope : scopeErrors (p.resolve .empty).2 = []) :
    Recorded p.resolved (p.resolve .empty).2 :=
  recorded_addFindings (nodup_slots_resolve .empty hids) hscope

/-- **A program with different node numbers in which no errors are found** is known completely.
Nothing that was found has been replaced by something found elsewhere. -/
theorem Toolchain.accepted (hids : p.ids.Nodup) (h : (t.analyze p).counts.isClean = true) :
    p.Accepted p.resolved := by
  obtain ⟨-, -, hscope, htypes⟩ := Toolchain.isClean_iff.1 h
  exact ⟨p.recorded_resolved hids hscope, htypes, classes_addFindings _ _⟩

/-- A bare expression in which no errors are found uses no names at all. -/
theorem Toolchain.accepted_bare {e : Expr}
    (h : (t.analyze (.bare e)).counts.isClean = true) :
    (Program.bare e).Accepted (Program.bare e).resolved := by
  obtain ⟨-, -, hscope, htypes⟩ := Toolchain.isClean_iff.1 h
  have hnone := Expr.resolve_bare .empty firstDeclOffset e hscope
  refine ⟨?_, htypes, classes_addFindings _ _⟩
  rw [Program.resolve, hnone]
  exact recorded_nil

theorem Toolchain.compile_eq (h : (t.analyze p).counts.isClean = true) :
    (t.compile p).result =
      match p.emit (t.target (t.analyze p)) {} with
      | .ok code _ => Compiled.ofInstrs code
      | .error e _ => .error e := by
  have hclean : (t.target (t.analyze p)).ctx.errorCounts.isClean = true := by
    rw [ErrorCounts.isClean_iff] at h ⊢
    exact ⟨rfl, rfl, h.2.2⟩
  rw [Toolchain.compile]
  simp only [h, if_true, generate, hclean]
  cases p.emit (t.target (t.analyze p)) {} <;> rfl

/-- A program about which everything is known compiles, or a method has no place. -/
theorem Toolchain.compile_of_accepted (h : (t.analyze p).counts.isClean = true)
    (hacc : p.Accepted p.resolved) :
    (p.Dispatched p.resolved → ∃ code, (t.compile p).result = .ok code) ∧
    (¬ p.Dispatched p.resolved → ∃ d ∈ p.decls, ∃ c ∈ d.classes, ∃ f ∈ c.methods,
      (∃ e, (p.resolved.inheritedMembers c).find? f.name = some e ∧ e.offset < 0) ∧
      (t.compile p).result = .error (.missingLayout f.name f.site.line)) := by
  obtain ⟨hgood, hbad⟩ := Program.emitMain_spec (t.knows p) hacc
  refine ⟨fun hdisp ↦ ?_, fun hnot ↦ ?_⟩
  · obtain ⟨main, s, hmain⟩ := hgood hdisp
    have hemit := Program.emit_of_emitMain hmain
    obtain ⟨b, hb⟩ := Program.assembles hemit
    exact ⟨⟨main ++ s.functions, b⟩, by
      simp only [Toolchain.compile_eq h, hemit, Compiled.ofInstrs, hb]⟩
  · obtain ⟨d, hd, c, hc, f, hf, hover, s, herr⟩ := hbad hnot
    refine ⟨d, hd, c, hc, f, hf, hover, ?_⟩
    have hemit : p.emit (t.target (t.analyze p)) {}
        = .error (.missingLayout f.name f.site.line) s := by
      rw [Program.emit]
      simp only [bind, EStateM.bind, herr]
    rw [Toolchain.compile_eq h, hemit]

/-- **A program without errors compiles exactly if no method overrides a field.**  If one does, that
is why there is no code: the method has no place in the dispatch table. -/
theorem Toolchain.compile_of_clean (hids : p.ids.Nodup)
    (h : (t.analyze p).counts.isClean = true) :
    (p.Dispatched (t.analyze p).context → ∃ code, (t.compile p).result = .ok code) ∧
    (¬ p.Dispatched (t.analyze p).context → ∃ d ∈ p.decls, ∃ c ∈ d.classes, ∃ f ∈ c.methods,
      (∃ e, ((t.analyze p).context.inheritedMembers c).find? f.name = some e ∧ e.offset < 0) ∧
      (t.compile p).result = .error (.missingLayout f.name f.site.line)) := by
  have hmembers : ∀ c, (t.analyze p).context.inheritedMembers c
      = p.resolved.inheritedMembers c := fun c ↦ by
    have hclasses : (t.analyze p).context.classes = p.resolved.classes := (t.knows p).classes
    rw [Context.inheritedMembers, hclasses, ← Context.inheritedMembers]
  simp only [Program.Dispatched, hmembers]
  exact Toolchain.compile_of_accepted h (Toolchain.accepted hids h)

end Analysis

/-- The method `f` of a class `B` takes the place of a field that it inherits from `A`, whose type
is that of a method. -/
def overriddenField : Program :=
  let base : ClassDecl := ⟨⟨1, 1⟩, "A", none, [⟨⟨0, 1⟩, "f", .method ⟨[], .int⟩⟩], []⟩
  let derived : ClassDecl :=
    ⟨⟨4, 1⟩, "B", some "A", [], [⟨⟨3, 1⟩, "f", .int, [], [], .int ⟨2, 1⟩ 1⟩]⟩
  .letIn 1 [.cls base, .cls derived] (.int ⟨5, 1⟩ 0)

/-- The analyses find no error in a method that overrides a field, but there is no code for it. -/
theorem overriddenField_clean_not_compiled :
    overriddenField.ids.Nodup ∧ (Toolchain.analyze {} overriddenField).counts.isClean = true ∧
      (Toolchain.compile {} overriddenField).result = .error (.missingLayout "f" 1) :=
  ⟨by decide, rfl, rfl⟩

/-- The field is what keeps the program from being compiled. -/
theorem overriddenField_missingLayout :
    ∃ d ∈ overriddenField.decls, ∃ c ∈ d.classes, ∃ f ∈ c.methods,
      (∃ e, ((Toolchain.analyze {} overriddenField).context.inheritedMembers c).find? f.name
        = some e ∧ e.offset < 0) ∧
      (Toolchain.compile {} overriddenField).result
        = .error (.missingLayout f.name f.site.line) := by
  refine (Toolchain.compile_of_clean (t := {}) (p := overriddenField) (by decide) rfl).2 ?_
  intro h
  have hoffset := h _ (List.mem_cons_of_mem _ List.mem_cons_self) _ List.mem_cons_self _
    List.mem_cons_self ⟨1, .method ⟨[], .int⟩, -1⟩ rfl
  exact absurd hoffset (by decide)

end ObjectLet
