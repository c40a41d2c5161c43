import ObjectLet.Proofs.Checking

/-!
# What type checking leaves behind

The notes of type checking tell the types of the expressions.  Which notes are made is seen one step
at a time, from an expression to its parts (`Expr.notes_check`, `Expr.notesOnly_check`), and so for
all nodes of a program:

* `Expr.result_nodes`: **an expression has a type only if everything inside it has one.**
* `Program.exists_node_of_typed`: **the types that are noted are those that the nodes have.**
* `Program.not_givesUp`: no check is given up on account of a name, if none is unresolved.
-/

set_option autoImplicit false

namespace ObjectLet

/-! ## Notes of the steps of a check -/

namespace Checked

variable {α β : Type} {x : Checked α} {f : α → Checked β} {site : Site} {r : Remark}

@[simp] theorem mem_remarks_bind :
    r ∈ (x >>= f).remarks ↔ r ∈ x.remarks ∨ ∃ a, x.result = .ok a ∧ r ∈ (f a).remarks := by
  simp only [bind]
  cases x.result with
  | ok a => simp
  | error e => simp

/-- What the rest of a check notes is noted if the check gets that far. -/
theorem subset_remarks_bind {rs : List Remark} {a : α} (h : x.result = .ok a)
    (hrs : rs ⊆ (f a).remarks) : rs ⊆ (x >>= f).remarks := fun _ hr ↦
  mem_remarks_bind.2 (.inr ⟨a, h, hrs hr⟩)

theorem subset_remarks_bind_left {rs : List Remark} (hrs : rs ⊆ x.remarks) :
    rs ⊆ (x >>= f).remarks := fun _ hr ↦ mem_remarks_bind.2 (.inl (hrs hr))

@[simp] theorem mem_remarks_typed {ty : Ty} :
    r ∈ (typed site ty).remarks ↔ r = .typed site.id ty := List.mem_singleton

@[simp] theorem mem_remarks_fail {cause : TypeError.Cause} :
    r ∈ (fail site cause : Checked α).remarks ↔ r = .error ⟨cause, site.line⟩ :=
  List.mem_singleton

/-- A check notes nothing but errors. -/
def OnlyErrors (x : Checked α) : Prop := ∀ r ∈ x.remarks, ∃ e, r = .error e

theorem onlyErrors_fail {cause : TypeError.Cause} : (fail site cause : Checked α).OnlyErrors :=
  fun _ hr ↦ ⟨_, mem_remarks_fail.1 hr⟩

theorem onlyErrors_require {holds : Bool} {cause : TypeError.Cause} :
    (require site holds cause).OnlyErrors := by
  cases holds with
  | true => exact nofun
  | false => exact onlyErrors_fail

theorem onlyErrors_resolved {o : Option α} : (resolved site o).OnlyErrors := by
  cases o <;> exact nofun

theorem onlyErrors_signature {o : Except TypeError.Cause Signature} :
    (Checked.signature site o).OnlyErrors := by
  cases o with
  | ok s => exact nofun
  | error cause => exact onlyErrors_fail

theorem OnlyErrors.bind (hx : x.OnlyErrors) (hf : ∀ a, (f a).OnlyErrors) :
    (x >>= f).OnlyErrors := by
  intro r hr
  rcases mem_remarks_bind.1 hr with hr | ⟨a, -, hr⟩
  · exact hx r hr
  · exact hf a r hr

end Checked

section Expressions

open Checked

variable {ctx : Context} {n : NodeId} {ty : Ty}

theorem onlyErrors_checkReceiver {site : Site} {x : String} :
    (ctx.checkReceiver site x).OnlyErrors := by
  refine .bind onlyErrors_resolved fun a ↦ ?_
  cases a.entry.ty with
  | ref c => exact nofun
  | _ => exact onlyErrors_fail

theorem onlyErrors_constructor {site : Site} {c : String} :
    (ctx.constructor site c).OnlyErrors :=
  .bind onlyErrors_resolved fun _ ↦ .bind onlyErrors_resolved fun _ ↦ nofun

theorem Expr.mem_remarks_checkArgs {site : Site} {name : String} {position : Nat} {es : List Expr}
    {ps : List Ty} {r : Remark}
    (h : r ∈ (Expr.checkArgs ctx site name position es ps).remarks) :
    (∃ e, r = .error e) ∨ ∃ e ∈ es, r ∈ (e.check ctx).remarks := by
  induction es generalizing position ps with
  | nil =>
    rw [Expr.checkArgs] at h
    · cases h
    · rintro _ _ _ _ ⟨⟩
  | cons e es ih =>
    cases ps with
    | nil =>
      rw [Expr.checkArgs] at h
      · cases h
      · rintro _ _ _ _ _ ⟨⟩
    | cons p ps =>
      simp only [Expr.checkArgs, mem_remarks_bind] at h
      rcases h with h | ⟨_, _, h | ⟨_, _, h⟩⟩
      · exact .inr ⟨e, List.mem_cons_self, h⟩
      · exact .inl (onlyErrors_require _ h)
      · exact (ih h).imp_right (Exists.imp fun e' h ↦ ⟨List.mem_cons_of_mem _ h.1, h.2⟩)

theorem Expr.result_checkArgs {site : Site} {name : String} {position : Nat} {es : List Expr}
    {ps : List Ty} {u : Unit} (hlen : ps.length = es.length)
    (h : (Expr.checkArgs ctx site name position es ps).result = .ok u) :
    ∀ e ∈ es, (∃ t, (e.check ctx).result = .ok t) ∧
      (e.check ctx).remarks ⊆ (Expr.checkArgs ctx site name position es ps).remarks := by
  induction es generalizing position ps with
  | nil => exact fun e he ↦ absurd he List.not_mem_nil
  | cons e es ih =>
    cases ps with
    | nil => cases hlen
    | cons p ps =>
      simp only [Expr.checkArgs, result_bind] at h ⊢
      obtain ⟨t, ht, v, hv, hrest⟩ := h
      refine List.forall_mem_cons.2 ⟨⟨⟨t, ht⟩, subset_remarks_bind_left (List.Subset.refl _)⟩,
        fun e' he' ↦ ?_⟩
      obtain ⟨hok, hsub⟩ := ih (Nat.succ.inj hlen) hrest e' he'
      exact ⟨hok, subset_remarks_bind ht (subset_remarks_bind hv hsub)⟩

/-- A check notes a type for a node, and all that there is to note about some expressions. -/
structure Checked.Notes (ctx : Context) (x : Checked Ty) (n : NodeId) (ty : Ty)
    (parts : List Expr) : Prop where
  /-- The type is noted. -/
  own : .typed n ty ∈ x.remarks
  /-- The expressions have types, and what their checks note is noted. -/
  parts : ∀ d ∈ parts, (∃ u, (d.check ctx).result = .ok u) ∧ (d.check ctx).remarks ⊆ x.remarks

theorem Checked.Notes.bind {α : Type} {x : Checked α} {f : α → Checked Ty} {a : α}
    {parts : List Expr} (ha : x.result = .ok a) (h : (f a).Notes ctx n ty parts) :
    (x >>= f).Notes ctx n ty parts :=
  ⟨mem_remarks_bind.2 (.inr ⟨a, ha, h.own⟩),
    fun d hd ↦ ⟨(h.parts d hd).1, subset_remarks_bind ha (h.parts d hd).2⟩⟩

theorem Checked.Notes.cons {d : Expr} {f : Ty → Checked Ty} {t : Ty} {parts : List Expr}
    (ht : (d.check ctx).result = .ok t) (h : (f t).Notes ctx n ty parts) :
    (d.check ctx >>= f).Notes ctx n ty (d :: parts) :=
  ⟨(h.bind ht).own, List.forall_mem_cons.2
    ⟨⟨⟨t, ht⟩, subset_remarks_bind_left (List.Subset.refl _)⟩, (h.bind ht).parts⟩⟩

theorem Checked.notes_typed {site : Site} : (typed site ty).Notes ctx site.id ty [] :=
  ⟨mem_remarks_typed.2 rfl, fun _ hd ↦ absurd hd List.not_mem_nil⟩

theorem Checked.notes_judge {site : Site} {o : Except TypeError.Cause Ty}
    (h : (judge site o).result = .ok ty) : (judge site o).Notes ctx site.id ty [] := by
  rw [result_judge.1 h]
  exact notes_typed

/-- All that a check notes is the type that it results in, for a node, what is noted for some
expressions, and errors. -/
def Checked.NotesOnly (ctx : Context) (x : Checked Ty) (n : NodeId) (parts : List Expr) : Prop :=
  ∀ r ∈ x.remarks, (∃ ty, x.result = .ok ty ∧ r = .typed n ty) ∨ (∃ e, r = .error e) ∨
    ∃ d ∈ parts, r ∈ (d.check ctx).remarks

theorem Checked.NotesOnly.bind {α : Type} {x : Checked α} {f : α → Checked Ty}
    {parts : List Expr} (hx : x.OnlyErrors) (hf : ∀ a, (f a).NotesOnly ctx n parts) :
    (x >>= f).NotesOnly ctx n parts := by
  intro r h
  rcases mem_remarks_bind.1 h with h | ⟨a, ha, h⟩
  · exact .inr (.inl (hx r h))
  · exact (hf a r h).imp_left fun ⟨ty, hty, hr⟩ ↦ ⟨ty, result_bind.2 ⟨a, ha, hty⟩, hr⟩

theorem Checked.NotesOnly.cons {d : Expr} {f : Ty → Checked Ty} {parts : List Expr}
    (hf : ∀ t, (f t).NotesOnly ctx n parts) :
    (d.check ctx >>= f).NotesOnly ctx n (d :: parts) := by
  intro r h
  rcases mem_remarks_bind.1 h with h | ⟨t, ht, h⟩
  · exact .inr (.inr ⟨d, List.mem_cons_self, h⟩)
  · refine (hf t r h).imp (fun ⟨ty, hty, hr⟩ ↦ ⟨ty, result_bind.2 ⟨t, ht, hty⟩, hr⟩) ?_
    exact .imp_right fun ⟨d', hd', h⟩ ↦ ⟨d', List.mem_cons_of_mem _ hd', h⟩

theorem Checked.notesOnly_typed {site : Site} : (typed site ty).NotesOnly ctx site.id [] :=
  fun _ h ↦ .inl ⟨ty, rfl, mem_remarks_typed.1 h⟩

theorem Checked.notesOnly_judge {site : Site} {o : Except TypeError.Cause Ty} :
    (judge site o).NotesOnly ctx site.id [] := by
  cases o with
  | ok ty => exact notesOnly_typed
  | error cause => exact fun r h ↦ .inr (.inl (onlyErrors_fail r h))

/-- What remains to be checked of a call when its signature is known.  Calls of functions and
methods and the making of objects have this in common. -/
def Expr.checkCall (ctx : Context) (site : Site) (name : String) (s : Signature)
    (args : List Expr) : Checked Ty := do
  checkArity site name s args
  Expr.checkArgs ctx site name 1 args s.params
  .typed site s.ret

section Calls

variable {site : Site} {name : String} {s : Signature} {args : List Expr}

theorem Expr.notesOnly_checkCall :
    (Expr.checkCall ctx site name s args).NotesOnly ctx site.id args := by
  refine .bind onlyErrors_require fun u r h ↦ ?_
  rcases mem_remarks_bind.1 h with h | ⟨v, hv, h⟩
  · exact .inr (Expr.mem_remarks_checkArgs h)
  · exact .inl ⟨s.ret, result_bind.2 ⟨v, hv, rfl⟩, mem_remarks_typed.1 h⟩

theorem Expr.notes_checkCall
    (h : (Expr.checkCall ctx site name s args).result = .ok ty) :
    (Expr.checkCall ctx site name s args).Notes ctx site.id ty args := by
  simp only [Expr.checkCall, checkArity, result_bind, result_typed, Except.ok.injEq] at h ⊢
  obtain ⟨u, harity, v, hargs, rfl⟩ := h
  have hlen : s.params.length = args.length := by simpa [Signature.arity] using harity
  refine ⟨mem_remarks_bind.2 (.inr ⟨u, harity, mem_remarks_bind.2
    (.inr ⟨v, hargs, mem_remarks_typed.2 rfl⟩)⟩), fun d hd ↦ ?_⟩
  obtain ⟨hok, hsub⟩ := Expr.result_checkArgs hlen hargs d hd
  exact ⟨hok, subset_remarks_bind harity (subset_remarks_bind_left hsub)⟩

end Calls

/-! ## From an expression to its parts -/

/-- All that is noted is the type of the expression, what is noted for its parts, and errors. -/
theorem Expr.notesOnly_check (e : Expr) : (e.check ctx).NotesOnly ctx e.site.id e.parts := by
  cases e with
  | int site v | bool site v | null site => exact notesOnly_typed
  | arith site op l r | compare site op l r | logic site op l r =>
    exact .cons fun _ ↦ .cons fun _ ↦ notesOnly_judge
  | not site e => exact .cons fun _ ↦ notesOnly_judge
  | print site e => exact .cons fun _ ↦ notesOnly_typed
  | cond site c a b =>
    exact .cons fun _ ↦ .bind onlyErrors_require fun _ ↦
      .cons fun _ ↦ .cons fun _ ↦ notesOnly_judge
  | ident site x => exact .bind onlyErrors_resolved fun _ ↦ notesOnly_judge
  | field site x f =>
    exact .bind onlyErrors_checkReceiver fun _ ↦ .bind onlyErrors_resolved fun _ ↦ notesOnly_judge
  | call site f args =>
    exact .bind onlyErrors_resolved fun _ ↦ .bind onlyErrors_signature fun _ ↦
      Expr.notesOnly_checkCall
  | invoke site x m args =>
    exact .bind onlyErrors_checkReceiver fun _ ↦ .bind onlyErrors_resolved fun _ ↦
      .bind onlyErrors_signature fun _ ↦ Expr.notesOnly_checkCall
  | new site c args => exact .bind onlyErrors_constructor fun _ ↦ Expr.notesOnly_checkCall

/-- An expression has a type only if its parts have, and then its type is noted after theirs. -/
theorem Expr.notes_check {e : Expr} (h : (e.check ctx).result = .ok ty) :
    (e.check ctx).Notes ctx e.site.id ty e.parts := by
  cases e with
  | int site v | bool site v | null site =>
    obtain rfl := Except.ok.inj h
    exact notes_typed
  | arith site op l r | compare site op l r | logic site op l r =>
    obtain ⟨t, ht, h⟩ := result_bind.1 h
    obtain ⟨u, hu, h⟩ := result_bind.1 h
    exact .cons ht (.cons hu (notes_judge h))
  | not site e =>
    obtain ⟨t, ht, h⟩ := result_bind.1 h
    exact .cons ht (notes_judge h)
  | print site e =>
    obtain ⟨t, ht, h⟩ := result_bind.1 h
    obtain rfl := Except.ok.inj h
    exact .cons ht notes_typed
  | cond site c a b =>
    obtain ⟨s, hs, h⟩ := result_bind.1 h
    obtain ⟨v, hv, h⟩ := result_bind.1 h
    obtain ⟨t, ht, h⟩ := result_bind.1 h
    obtain ⟨u, hu, h⟩ := result_bind.1 h
    exact .cons hs (.bind hv (.cons ht (.cons hu (notes_judge h))))
  | ident site x =>
    obtain ⟨r, hr, h⟩ := result_bind.1 h
    exact .bind hr (notes_judge h)
  | field site x f =>
    obtain ⟨u, hu, h⟩ := result_bind.1 h
    obtain ⟨m, hm, h⟩ := result_bind.1 h
    exact .bind hu (.bind hm (notes_judge h))
  | call site f args =>
    obtain ⟨r, hr, h⟩ := result_bind.1 h
    obtain ⟨s, hs, h⟩ := result_bind.1 h
    exact .bind hr (.bind hs (Expr.notes_checkCall h))
  | invoke site x m args =>
    obtain ⟨u, hu, h⟩ := result_bind.1 h
    obtain ⟨r, hr, h⟩ := result_bind.1 h
    obtain ⟨s, hs, h⟩ := result_bind.1 h
    exact .bind hu (.bind hr (.bind hs (Expr.notes_checkCall h)))
  | new site c args =>
    obtain ⟨s, hs, h⟩ := result_bind.1 h
    exact .bind hs (Expr.notes_checkCall h)

/-- **An expression has a type only if everything inside it has one**, and all these types are
noted. -/
theorem Expr.result_nodes {e : Expr} (h : (e.check ctx).result = .ok ty) :
    ∀ u ∈ e.nodes, ∃ t, (u.check ctx).result = .ok t ∧
      .typed u.site.id t ∈ (e.check ctx).remarks := by
  have hnodes : ∀ u ∈ e.nodes, (∃ t, (u.check ctx).result = .ok t) ∧
      (u.check ctx).remarks ⊆ (e.check ctx).remarks := by
    refine Expr.forall_nodes (fun u ⟨⟨t, ht⟩, hsub⟩ d hd ↦ ?_) ⟨⟨ty, h⟩, List.Subset.refl _⟩
    obtain ⟨hok, hd⟩ := (Expr.notes_check ht).parts d hd
    exact ⟨hok, List.Subset.trans hd hsub⟩
  intro u hu
  obtain ⟨⟨t, ht⟩, hsub⟩ := hnodes u hu
  exact ⟨t, ht, hsub (Expr.notes_check ht).own⟩

/-- **All that is noted in an expression are types that its nodes have, and errors.** Nothing is
noted for a node by anything but the check of that node. -/
theorem Expr.exists_node_of_mem {e : Expr} {r : Remark} (h : r ∈ (e.check ctx).remarks) :
    (∃ u ∈ e.nodes, ∃ t, (u.check ctx).result = .ok t ∧ r = .typed u.site.id t) ∨
      ∃ err, r = .error err := by
  induction e using Expr.parts_induction with
  | step e ih =>
    rcases e.notesOnly_check r h with ⟨t, ht, hr⟩ | herr | ⟨d, hd, h⟩
    · exact .inl ⟨e, e.mem_nodes_self, t, ht, hr⟩
    · exact .inr herr
    · exact (ih d hd h).imp_left fun ⟨u, hu, hr⟩ ↦ ⟨u, Expr.mem_nodes_iff.2 (.inr ⟨d, hd, hu⟩), hr⟩

end Expressions

/-! ## Declarations -/

/-- The check of a declaration or method was given up on account of an unresolved name. -/
def Remark.GivesUp : Remark → Prop
  | .unresolved _ _ | .skippedMethod _ _ (.unresolved _) => True
  | _ => False

/-- Where a remark on a declaration comes from, given the initial values and bodies in it. -/
inductive Remark.Stems (ctx : Context) (roots : List Expr) : Remark → Prop
  /-- It is noted in one of the expressions. -/
  | noted {e : Expr} {r : Remark} (he : e ∈ roots) (hr : r ∈ (e.check ctx).remarks) :
    Stems ctx roots r
  /-- It is an error, in an expression or about how one fits. -/
  | error (e : TypeError) : Stems ctx roots (.error e)
  /-- An error has ended the check of a declaration. -/
  | skipped (declaration : String) (e : TypeError) : Stems ctx roots (.skipped declaration e)
  /-- An error has ended the check of a method. -/
  | skippedMethod (cls method : String) (e : TypeError) :
    Stems ctx roots (.skippedMethod cls method (.type e))
  /-- There is an unresolved name in one of the expressions. -/
  | unresolved {e : Expr} {line : Nat} {r : Remark} (he : e ∈ roots)
    (hline : (e.check ctx).result = .error (.unresolved line)) (hr : r.GivesUp) :
    Stems ctx roots r

section Declarations

open Checked

variable {ctx : Context} {n : NodeId} {ty : Ty} {r : Remark}

theorem Remark.Stems.mono {es fs : List Expr} (h : r.Stems ctx es) (hsub : es ⊆ fs) :
    r.Stems ctx fs := by
  cases h with
  | noted he hr => exact .noted (hsub he) hr
  | error e => exact .error e
  | skipped d e => exact .skipped d e
  | skippedMethod c m e => exact .skippedMethod c m e
  | unresolved he hline hr => exact .unresolved (hsub he) hline hr

/-- All remarks of a check stem from some expressions, and so does an unresolved name that ends
it. -/
structure Checked.StemsFrom (ctx : Context) (x : Checked Unit) (es : List Expr) : Prop where
  /-- The remarks stem from them. -/
  remarks : ∀ r ∈ x.remarks, r.Stems ctx es
  /-- An unresolved name is found in one of them. -/
  unresolved : ∀ line, x.result = .error (.unresolved line) →
    ∃ e ∈ es, (e.check ctx).result = .error (.unresolved line)

namespace Checked.StemsFrom

variable {x : Checked Unit} {es : List Expr} {name : String}

/-- A value that is to fit a type. -/
theorem fitting {e : Expr} {site : Site} {fits : Ty → Bool} {cause : TypeError.Cause} :
    (e.check ctx >>= fun t ↦ require site (fits t) cause).StemsFrom ctx [e] := by
  refine ⟨fun r hr ↦ ?_, fun line h ↦ ⟨e, List.mem_singleton_self e, ?_⟩⟩
  · rcases mem_remarks_bind.1 hr with hr | ⟨t, -, hr⟩
    · exact .noted (List.mem_singleton_self e) hr
    · obtain ⟨err, rfl⟩ := onlyErrors_require r hr
      exact .error err
  · cases hr : (e.check ctx).result with
    | error err =>
      simp only [Bind.bind, hr, Except.error.injEq] at h
      rw [h]
    | ok t =>
      simp only [Bind.bind, hr] at h
      exact absurd h (resolves_require line)

theorem recover (h : x.StemsFrom ctx es) : ∀ r ∈ x.recover name, r.Stems ctx es := by
  intro r hr
  rw [Checked.recover] at hr
  split at hr
  · exact h.remarks r hr
  · refine (List.mem_append.1 hr).elim (h.remarks r) fun hr ↦ ?_
    cases List.mem_singleton.1 hr
    exact .skipped _ _
  · rename_i line hline
    obtain ⟨e, he, hline⟩ := h.unresolved line hline
    refine (List.mem_append.1 hr).elim (h.remarks r) fun hr ↦ ?_
    cases List.mem_singleton.1 hr
    exact .unresolved he hline trivial

theorem recoverMethod {cls : String} (h : x.StemsFrom ctx es) :
    ∀ r ∈ x.recoverMethod cls name, r.Stems ctx es := by
  intro r hr
  rw [Checked.recoverMethod] at hr
  split at hr
  · exact h.remarks r hr
  · rename_i err herr
    refine (List.mem_append.1 hr).elim (h.remarks r) fun hr ↦ ?_
    cases List.mem_singleton.1 hr
    cases err with
    | type err => exact .skippedMethod _ _ _
    | unresolved line =>
      obtain ⟨e, he, hline⟩ := h.unresolved line herr
      exact .unresolved he hline trivial

end Checked.StemsFrom

theorem Decl.checkAll_eq (ds : List Decl) :
    Decl.checkAll ctx ds = ds.flatMap (Decl.check ctx) := by
  induction ds with
  | nil => rfl
  | cons d ds ih => rw [Decl.checkAll, ih, List.flatMap_cons]

theorem FunDecl.checkMethods_eq (cls : String) (fs : List FunDecl) :
    FunDecl.checkMethods ctx cls fs
      = fs.flatMap fun f ↦ (f.check ctx).recoverMethod cls f.name := by
  induction fs with
  | nil => rfl
  | cons f fs ih => rw [FunDecl.checkMethods, ih, List.flatMap_cons]

theorem FunDecl.check_eq (f : FunDecl) :
    f.check ctx = ⟨f.locals.flatMap (Decl.check ctx)
        ++ (checkBody ctx f.site f.name f.ret f.body).remarks,
      (checkBody ctx f.site f.name f.ret f.body).result⟩ := by
  rw [← Decl.checkAll_eq]
  cases f
  rfl

theorem ClassDecl.check_eq (c : ClassDecl) :
    c.check ctx = (c.methods.flatMap fun f ↦ (f.check ctx).recoverMethod c.name f.name)
      ++ ctx.checkOverrides c := by
  rw [← FunDecl.checkMethods_eq]
  cases c
  rfl

theorem FunDecl.stems_check {f : FunDecl}
    (h : ∀ d ∈ f.locals, ∀ r ∈ d.check ctx, r.Stems ctx d.roots) :
    (f.check ctx).StemsFrom ctx f.roots := by
  have hbody : (checkBody ctx f.site f.name f.ret f.body).StemsFrom ctx [f.body] := .fitting
  have hroots : [f.body] ⊆ f.roots := by rw [FunDecl.roots_eq]; exact List.subset_append_right _ _
  rw [FunDecl.check_eq]
  refine ⟨fun r hr ↦ ?_, fun line hline ↦ ?_⟩
  · rcases List.mem_append.1 hr with hr | hr
    · obtain ⟨d, hd, hr⟩ := List.mem_flatMap.1 hr
      refine (h d hd r hr).mono fun e he ↦ ?_
      rw [FunDecl.roots_eq]
      exact List.mem_append_left _ (List.mem_flatMap.2 ⟨d, hd, he⟩)
    · exact (hbody.remarks r hr).mono hroots
  · obtain ⟨e, he, hline⟩ := hbody.unresolved line hline
    exact ⟨e, hroots he, hline⟩

theorem Context.error_of_mem_checkOverrides {c : ClassDecl} (h : r ∈ ctx.checkOverrides c) :
    ∃ e, r = .error e := by
  simp only [Context.checkOverrides, List.mem_append, List.mem_flatMap] at h
  obtain ⟨b, -, h⟩ | ⟨f, -, h⟩ := h
  all_goals
    split at h
    · split at h
      · cases h
      · exact ⟨_, List.mem_singleton.1 h⟩
    · cases h

/-- **Every remark on a declaration stems from the expressions in it**, or is about an error. -/
theorem Decl.stems_check (d : Decl) : ∀ r ∈ d.check ctx, r.Stems ctx d.roots := by
  induction d using Decl.induction with
  | var site x ty e =>
    rw [Decl.check]
    exact Checked.StemsFrom.fitting.recover
  | func f ih =>
    rw [Decl.check]
    exact (FunDecl.stems_check ih).recover
  | cls c ih =>
    intro r hr
    rw [Decl.check, ClassDecl.check_eq, List.mem_append, List.mem_flatMap] at hr
    rcases hr with ⟨f, hf, hr⟩ | hr
    · refine ((FunDecl.stems_check (ih f hf)).recoverMethod r hr).mono fun e he ↦ ?_
      rw [Decl.roots, ClassDecl.roots_eq]
      exact List.mem_flatMap.2 ⟨f, hf, he⟩
    · obtain ⟨e, rfl⟩ := Context.error_of_mem_checkOverrides hr
      exact .error e

theorem Checked.subset_recover (x : Checked Unit) (name : String) :
    x.remarks ⊆ x.recover name := by
  rw [Checked.recover]
  split
  · exact List.Subset.refl _
  all_goals exact List.subset_append_left _ _

theorem Checked.subset_recoverMethod (x : Checked Unit) (cls name : String) :
    x.remarks ⊆ x.recoverMethod cls name := by
  rw [Checked.recoverMethod]
  split
  · exact List.Subset.refl _
  · exact List.subset_append_left _ _

theorem FunDecl.noted_check {f : FunDecl}
    (h : ∀ d ∈ f.locals, ∀ e ∈ d.roots, (e.check ctx).remarks ⊆ d.check ctx) :
    ∀ e ∈ f.roots, (e.check ctx).remarks ⊆ (f.check ctx).remarks := by
  intro e he r hr
  rw [FunDecl.roots_eq, List.mem_append, List.mem_flatMap] at he
  rw [FunDecl.check_eq, List.mem_append, List.mem_flatMap]
  rcases he with ⟨d, hd, he⟩ | he
  · exact .inl ⟨d, hd, h d hd e he hr⟩
  · rw [← List.mem_singleton.1 he]
    exact .inr (subset_remarks_bind_left (List.Subset.refl _) hr)

/-- **Whatever is noted in one of the expressions in a declaration is noted**, even if the check of
the declaration ends early. -/
theorem Decl.noted_check (d : Decl) : ∀ e ∈ d.roots, (e.check ctx).remarks ⊆ d.check ctx := by
  induction d using Decl.induction with
  | var site x ty e =>
    rw [Decl.roots, List.forall_mem_singleton, Decl.check]
    exact List.Subset.trans (subset_remarks_bind_left (List.Subset.refl _))
      (Checked.subset_recover _ _)
  | func f ih =>
    rw [Decl.roots, Decl.check]
    exact fun e he ↦ List.Subset.trans (FunDecl.noted_check ih e he) (Checked.subset_recover _ _)
  | cls c ih =>
    intro e he r hr
    rw [Decl.roots, ClassDecl.roots_eq, List.mem_flatMap] at he
    obtain ⟨f, hf, he⟩ := he
    rw [Decl.check, ClassDecl.check_eq, List.mem_append, List.mem_flatMap]
    exact .inl ⟨f, hf, Checked.subset_recoverMethod _ _ _ (FunDecl.noted_check (ih f hf) e he hr)⟩

/-! ## Programs -/

/-- **Every remark on a program stems from the expressions in it**, or is about an error. -/
theorem Program.stems_check {p : Program} (h : r ∈ (p.check ctx).remarks) :
    r.Stems ctx p.roots := by
  rw [Program.check, Decl.checkAll_eq, List.mem_append, List.mem_flatMap] at h
  rcases h with ⟨d, hd, hr⟩ | hr
  · exact (d.stems_check r hr).mono fun e he ↦
      List.mem_append_left _ (List.mem_flatMap.2 ⟨d, hd, he⟩)
  · exact .noted (List.mem_append_right _ (List.mem_singleton_self _)) hr

theorem Program.noted_check (p : Program) :
    ∀ e ∈ p.roots, (e.check ctx).remarks ⊆ (p.check ctx).remarks := by
  intro e he r hr
  rw [Program.check, Decl.checkAll_eq, List.mem_append, List.mem_flatMap]
  rcases List.mem_append.1 he with he | he
  · obtain ⟨d, hd, he⟩ := List.mem_flatMap.1 he
    exact .inl ⟨d, hd, d.noted_check e he hr⟩
  · rw [← List.mem_singleton.1 he]
    exact .inr hr

/-- **The types that are noted in a program are those that its nodes have**, and each under the
number of its node. -/
theorem Program.exists_node_of_typed {p : Program}
    (h : .typed n ty ∈ (p.check ctx).remarks) :
    ∃ u ∈ p.nodes, u.site.id = n ∧ (u.check ctx).result = .ok ty := by
  cases Program.stems_check h with
  | noted he hr =>
    obtain ⟨u, hu, t, ht, hr⟩ | ⟨err, hr⟩ := Expr.exists_node_of_mem hr
    · cases hr
      exact ⟨u, List.mem_flatMap.2 ⟨_, he, hu⟩, rfl, ht⟩
    · cases hr
  | unresolved _ _ hr => exact hr.elim

/-- **No check is given up on account of a name**, if no expression in the program has one that is
unresolved. -/
theorem Program.not_givesUp {p : Program} (h : ∀ e ∈ p.roots, (e.check ctx).Resolves)
    (hr : r ∈ (p.check ctx).remarks) : ¬ r.GivesUp := by
  cases Program.stems_check hr with
  | noted he hr =>
    obtain ⟨u, hu, t, ht, rfl⟩ | ⟨err, rfl⟩ := Expr.exists_node_of_mem hr <;> exact id
  | unresolved he hline _ => exact absurd hline (h _ he _)
  | _ => exact id

end Declarations

/-! ## The table of types -/

section Types

variable {ctx : Context} {rs : List Remark} {n : NodeId} {ty : Ty}

/-- The type of a node is the first one that was noted for it. -/
theorem types_addRemarks (ctx : Context) (rs : List Remark) (n : NodeId) :
    (ctx.addRemarks rs).types.find? n = (ctx.types.find? n).or
      (rs.findSome? fun | .typed m ty => if m = n then some ty else none | _ => none) := by
  induction rs generalizing ctx with
  | nil => simp [Context.addRemarks]
  | cons r rs ih =>
    rw [Context.addRemarks, List.foldl_cons, ← Context.addRemarks, ih]
    cases r with
    | typed m ty =>
      simp only [Context.addRemark, Table.find?_insertNew, List.findSome?_cons]
      by_cases hm : m = n
      · subst hm
        cases ctx.types.find? m <;> simp
      · simp [hm]
    | _ => rfl

/-- A node has a type if one was noted for it, and then it is one that was noted. -/
theorem exists_type_addRemarks (hctx : ctx.types.find? n = none) (h : .typed n ty ∈ rs) :
    ∃ u, (ctx.addRemarks rs).types.find? n = some u ∧ .typed n u ∈ rs := by
  rw [types_addRemarks, hctx, Option.none_or]
  cases hfound : rs.findSome? fun | .typed m ty => if m = n then some ty else none | _ => none with
  | none => simpa using List.findSome?_eq_none_iff.1 hfound _ h
  | some u =>
    obtain ⟨r, hr, hru⟩ := List.exists_of_findSome?_eq_some hfound
    refine ⟨u, rfl, ?_⟩
    cases r with
    | typed m t =>
      simp only [Option.ite_none_right_eq_some, Option.some.injEq] at hru
      obtain ⟨rfl, rfl⟩ := hru
      exact hr
    | _ => cases hru

end Types

end ObjectLet
