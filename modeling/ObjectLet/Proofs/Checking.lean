import ObjectLet.Proofs.Declarations
import ObjectLet.Proofs.Nodes

/-!
# Type checking without errors

A check can end without a result and without an error, when it meets a name that name analysis has
not resolved.  `Expr.check_resolves` shows that this does not happen after a name analysis without
errors: **an expression in which type checking finds no error has a type.**

The lemmas `Checked.result_bind` and so on take the check of an expression apart into the checks of
its parts, and `recorded_useName` and so on do the same for what name analysis has found.
-/

set_option autoImplicit false

namespace ObjectLet

/-! ## Results of checks -/

namespace Checked

variable {α β : Type} {x : Checked α} {f : α → Checked β} {a : α} {b : β} {site : Site}

@[simp] theorem result_pure : (pure a : Checked α).result = .ok a := rfl

@[simp] theorem remarks_pure : (pure a : Checked α).remarks = [] := rfl

@[simp] theorem result_bind :
    (x >>= f).result = .ok b ↔ ∃ a, x.result = .ok a ∧ (f a).result = .ok b := by
  simp only [bind]
  cases x.result with
  | ok a => simp
  | error e => simp

@[simp] theorem result_typed {ty : Ty} : (typed site ty).result = .ok ty := rfl

@[simp] theorem result_judge {r : Except TypeError.Cause Ty} {ty : Ty} :
    (judge site r).result = .ok ty ↔ r = .ok ty := by
  cases r <;> simp [judge, fail]

@[simp] theorem result_require {holds : Bool} {cause : TypeError.Cause} {u : Unit} :
    (require site holds cause).result = .ok u ↔ holds = true := by
  cases holds <;> simp [require, fail]

@[simp] theorem result_resolved {o : Option α} : (resolved site o).result = .ok a ↔ o = some a := by
  cases o <;> simp [resolved]

@[simp] theorem result_signature {r : Except TypeError.Cause Signature} {s : Signature} :
    (Checked.signature site r).result = .ok s ↔ r = .ok s := by
  cases r <;> simp [signature, fail]

@[simp] theorem result_fail {cause : TypeError.Cause} :
    (fail site cause : Checked α).result ≠ .ok a := nofun

/-! ## How a check ends

A check that reports no error has a result, unless it has come upon an unresolved name.  The first
half of this, `Accounts`, is true of every check there is. -/

/-- The errors that a check is to report: the one that has ended it, if it is one. -/
def reported : Except CheckError α → List TypeError
  | .ok _ | .error (.unresolved _) => []
  | .error (.type e) => [e]

/-- A check reports the error that has ended it, and no other. -/
def Accounts (x : Checked α) : Prop := typeErrors x.remarks = reported x.result

/-- A check does not come upon an unresolved name. -/
def Resolves (x : Checked α) : Prop := ∀ line, x.result ≠ .error (.unresolved line)

theorem Accounts.bind (hx : x.Accounts) (hf : ∀ a, x.result = .ok a → (f a).Accounts) :
    (x >>= f).Accounts := by
  cases hr : x.result with
  | ok a =>
    have hnone : typeErrors x.remarks = [] := by rw [hx, hr, reported]
    simpa only [Accounts, Bind.bind, hr, typeErrors_append, hnone, List.nil_append] using hf a hr
  | error e =>
    rw [Accounts, hr] at hx
    simp only [Accounts, Bind.bind, hr, hx]
    cases e <;> rfl

theorem accounts_pure : (pure a : Checked α).Accounts := rfl

theorem accounts_typed {ty : Ty} : (typed site ty).Accounts := rfl

theorem accounts_fail {cause : TypeError.Cause} : (fail site cause : Checked α).Accounts := rfl

theorem accounts_judge {r : Except TypeError.Cause Ty} : (judge site r).Accounts := by
  cases r <;> rfl

theorem accounts_require {holds : Bool} {cause : TypeError.Cause} :
    (require site holds cause).Accounts := by
  cases holds <;> rfl

theorem accounts_signature {r : Except TypeError.Cause Signature} :
    (Checked.signature site r).Accounts := by
  cases r <;> rfl

theorem accounts_resolved {o : Option α} : (resolved site o).Accounts := by
  cases o <;> rfl

theorem Resolves.bind (hx : x.Resolves) (hf : ∀ a, x.result = .ok a → (f a).Resolves) :
    (x >>= f).Resolves := by
  intro line
  cases hr : x.result with
  | ok a => simpa only [Bind.bind, hr] using hf a hr line
  | error e =>
    simp only [Bind.bind, hr]
    rintro ⟨⟩
    exact hx line hr

theorem resolves_pure : (pure a : Checked α).Resolves := fun _ ↦ nofun

theorem resolves_typed {ty : Ty} : (typed site ty).Resolves := fun _ ↦ nofun

theorem resolves_fail {cause : TypeError.Cause} : (fail site cause : Checked α).Resolves :=
  fun _ ↦ nofun

theorem resolves_judge {r : Except TypeError.Cause Ty} : (judge site r).Resolves := by
  cases r <;> exact fun _ ↦ nofun

theorem resolves_require {holds : Bool} {cause : TypeError.Cause} :
    (require site holds cause).Resolves := by
  cases holds <;> exact fun _ ↦ nofun

theorem resolves_signature {r : Except TypeError.Cause Signature} :
    (Checked.signature site r).Resolves := by
  cases r <;> exact fun _ ↦ nofun

theorem resolves_resolved {o : Option α} (h : o = some a) : (resolved site o).Resolves :=
  h ▸ resolves_pure

/-- A check that comes upon no unresolved name has a result if it reports no error. -/
theorem Accounts.exists_ok (hx : x.Accounts) (hres : x.Resolves) (h : typeErrors x.remarks = []) :
    ∃ a, x.result = .ok a := by
  rw [hx] at h
  match hr : x.result with
  | .ok a => exact ⟨a, rfl⟩
  | .error (.type e) => simp [hr, reported] at h
  | .error (.unresolved line) => exact absurd hr (hres line)

end Checked

/-! ## Uses of names -/

section Uses

variable {ctx : Context} {env : Env} {site : Site}

theorem recorded_useName {x : String} (h : Recorded ctx (env.useName site x)) :
    ∃ e, env.scopes.lookup? x = some e ∧ ctx.resolutions.find? site.id = some ⟨e, env.level⟩ := by
  rw [Env.useName] at h
  split at h
  · rename_i e he
    exact ⟨e, he, (recorded_cons.1 h).1⟩
  · simp at h

theorem recorded_useMember {x m : String} (h : Recorded ctx (env.useMember site x m)) :
    ∃ e, env.scopes.lookup? x = some e ∧ ctx.resolutions.find? site.id = some ⟨e, env.level⟩ ∧
      ∀ cls, e.ty = .ref cls → ∃ e', env.classes.member? cls m = some e' ∧
        ctx.members.find? site.id = some e' := by
  rw [Env.useMember, recorded_append] at h
  obtain ⟨e, he, hr⟩ := recorded_useName h.1
  refine ⟨e, he, hr, fun cls hcls ↦ ?_⟩
  have hm := h.2
  simp only [he, Option.map_some, hcls] at hm
  split at hm
  · rename_i e' he'
    exact ⟨e', he', (recorded_cons.1 hm).1⟩
  · simp at hm

theorem Env.lookupClass?_eq_some {cls : String} {e : Entry} (h : env.lookupClass? cls = some e) :
    env.scopes.lookupGlobal? cls = some e ∧ (∃ shape, e.ty = .cls shape) ∧
      ∃ i, env.classes.info? cls = some i := by
  rw [lookupClass?] at h
  split at h
  · rename_i level shape offset hl
    split at h
    · rename_i hc
      obtain rfl := Option.some.inj h
      exact ⟨hl, ⟨shape, rfl⟩, Option.isSome_iff_exists.1 hc⟩
    · cases h
  · cases h

theorem recorded_useClass {cls : String} (h : Recorded ctx (env.useClass site cls)) :
    ∃ e, env.lookupClass? cls = some e ∧ ctx.resolutions.find? site.id = some ⟨e, env.level⟩ := by
  rw [Env.useClass] at h
  split at h
  · rename_i e he
    exact ⟨e, he, (recorded_cons.1 h).1⟩
  · simp at h

end Uses

/-! ## Expressions -/

section Expressions

open Checked

variable {ctx : Context} {env : Env}

theorem resolves_checkReceiver {site : Site} {x : String} {r : Resolution}
    (hr : ctx.resolutions.find? site.id = some r) : (ctx.checkReceiver site x).Resolves := by
  refine .bind (resolves_resolved hr) fun a _ ↦ ?_
  cases a.entry.ty <;> first | exact resolves_pure | exact resolves_fail

theorem result_checkReceiver {site : Site} {x : String} {r : Resolution} {u : Unit}
    (hr : ctx.resolutions.find? site.id = some r)
    (h : (ctx.checkReceiver site x).result = .ok u) : ∃ cls, r.entry.ty = .ref cls := by
  simp only [Context.checkReceiver, Context.resolution, result_bind, result_resolved, hr,
    Option.some.injEq] at h
  obtain ⟨_, rfl, h⟩ := h
  split at h
  · rename_i cls hcls
    exact ⟨cls, hcls⟩
  · cases h

/-- What is known of a member whose receiver has been checked. -/
theorem recorded_receiver {site : Site} {x m : String} {u : Unit}
    (h : Recorded ctx (env.useMember site x m))
    (hu : (ctx.checkReceiver site x).result = .ok u) :
    ∃ e cls e', env.scopes.lookup? x = some e ∧
      ctx.resolutions.find? site.id = some ⟨e, env.level⟩ ∧ e.ty = .ref cls ∧
      env.classes.member? cls m = some e' ∧ ctx.members.find? site.id = some e' := by
  obtain ⟨e, he, hr, hm⟩ := recorded_useMember h
  obtain ⟨cls, hcls⟩ := result_checkReceiver hr hu
  obtain ⟨e', he', hfound⟩ := hm cls hcls
  exact ⟨e, cls, e', he, hr, hcls, he', hfound⟩

theorem accounts_checkReceiver {site : Site} {x : String} :
    (ctx.checkReceiver site x).Accounts := by
  refine .bind accounts_resolved fun a _ ↦ ?_
  cases a.entry.ty <;> first | exact accounts_pure | exact accounts_fail

theorem accounts_constructor {site : Site} {c : String} : (ctx.constructor site c).Accounts :=
  .bind accounts_resolved fun _ _ ↦ .bind accounts_resolved fun _ _ ↦ accounts_pure

theorem Expr.checkArgs_accounts {es : List Expr} (h : ∀ e ∈ es, (e.check ctx).Accounts)
    (site : Site) (name : String) (position : Nat) (ps : List Ty) :
    (Expr.checkArgs ctx site name position es ps).Accounts := by
  induction es generalizing position ps with
  | nil =>
    rw [Expr.checkArgs]
    · exact accounts_pure
    · nofun
  | cons e es ih =>
    rw [List.forall_mem_cons] at h
    cases ps with
    | nil =>
      rw [Expr.checkArgs]
      · exact accounts_pure
      · nofun
    | cons p ps =>
      rw [Expr.checkArgs]
      exact .bind h.1 fun _ _ ↦ .bind accounts_require fun _ _ ↦ ih h.2 (position + 1) ps

/-- **The check of an expression reports the error that ends it, and no other.** An unresolved name
ends it without a report. -/
theorem Expr.check_accounts (ctx : Context) (e : Expr) : (e.check ctx).Accounts := by
  induction e using Expr.parts_induction with
  | step e ih =>
    cases e with
    | int site v | bool site v | null site =>
      rw [Expr.check]
      exact accounts_typed
    | arith site op l r | compare site op l r | logic site op l r =>
      simp only [Expr.parts, List.forall_mem_cons] at ih
      rw [Expr.check]
      exact .bind ih.1 fun _ _ ↦ .bind ih.2.1 fun _ _ ↦ accounts_judge
    | not site e =>
      simp only [Expr.parts, List.forall_mem_cons] at ih
      rw [Expr.check]
      exact .bind ih.1 fun _ _ ↦ accounts_judge
    | print site e =>
      simp only [Expr.parts, List.forall_mem_cons] at ih
      rw [Expr.check]
      exact .bind ih.1 fun _ _ ↦ accounts_typed
    | cond site c a b =>
      simp only [Expr.parts, List.forall_mem_cons] at ih
      rw [Expr.check]
      exact .bind ih.1 fun _ _ ↦ .bind accounts_require fun _ _ ↦ .bind ih.2.1 fun _ _ ↦
        .bind ih.2.2.1 fun _ _ ↦ accounts_judge
    | ident site x =>
      rw [Expr.check]
      exact .bind accounts_resolved fun _ _ ↦ accounts_judge
    | call site f args =>
      rw [Expr.check]
      exact .bind accounts_resolved fun _ _ ↦ .bind accounts_signature fun _ _ ↦
        .bind accounts_require fun _ _ ↦
        .bind (Expr.checkArgs_accounts ih _ _ _ _) fun _ _ ↦ accounts_typed
    | field site x f =>
      rw [Expr.check]
      exact .bind accounts_checkReceiver fun _ _ ↦ .bind accounts_resolved fun _ _ ↦
        accounts_judge
    | invoke site x m args =>
      rw [Expr.check]
      exact .bind accounts_checkReceiver fun _ _ ↦ .bind accounts_resolved fun _ _ ↦
        .bind accounts_signature fun _ _ ↦ .bind accounts_require fun _ _ ↦
        .bind (Expr.checkArgs_accounts ih _ _ _ _) fun _ _ ↦ accounts_typed
    | new site c args =>
      rw [Expr.check]
      exact .bind accounts_constructor fun _ _ ↦ .bind accounts_require fun _ _ ↦
        .bind (Expr.checkArgs_accounts ih _ _ _ _) fun _ _ ↦ accounts_typed

theorem recorded_flatMap {α : Type} {l : List α} {f : α → List Finding} :
    Recorded ctx (l.flatMap f) ↔ ∀ a ∈ l, Recorded ctx (f a) := by
  refine ⟨fun h a ha r hr ↦ h r (List.mem_flatMap.2 ⟨a, ha, hr⟩), fun h r hr ↦ ?_⟩
  obtain ⟨a, ha, hr⟩ := List.mem_flatMap.1 hr
  exact h a ha r hr

/-- What name analysis finds in the parts of an expression, it finds in the expression. -/
theorem Expr.recorded_parts {e : Expr} (h : Recorded ctx (e.resolve env)) :
    ∀ d ∈ e.parts, Recorded ctx (d.resolve env) := by
  cases e <;>
    simp only [Expr.resolve, Expr.resolveAll_eq, Expr.parts, recorded_append, recorded_flatMap]
      at h ⊢ <;>
    simp_all

theorem Expr.checkArgs_resolves {es : List Expr} (h : ∀ e ∈ es, (e.check ctx).Resolves)
    (site : Site) (name : String) (position : Nat) (ps : List Ty) :
    (Expr.checkArgs ctx site name position es ps).Resolves := by
  induction es generalizing position ps with
  | nil =>
    rw [Expr.checkArgs]
    · exact resolves_pure
    · nofun
  | cons e es ih =>
    rw [List.forall_mem_cons] at h
    cases ps with
    | nil =>
      rw [Expr.checkArgs]
      · exact resolves_pure
      · nofun
    | cons p ps =>
      rw [Expr.checkArgs]
      exact .bind h.1 fun _ _ ↦ .bind resolves_require fun _ _ ↦ ih h.2 (position + 1) ps

/-- The check of an expression meets no unresolved name, if everything is known that name analysis
finds in it. -/
theorem Expr.check_resolves (hwithin : env.classes.Within ctx.classes) (e : Expr)
    (h : Recorded ctx (e.resolve env)) : (e.check ctx).Resolves := by
  induction e using Expr.parts_induction with
  | step e ih =>
    have hparts : ∀ d ∈ e.parts, (d.check ctx).Resolves :=
      fun d hd ↦ ih d hd (Expr.recorded_parts h d hd)
    cases e with
    | int site v | bool site v | null site =>
      rw [Expr.check]
      exact resolves_typed
    | arith site op l r | compare site op l r | logic site op l r =>
      simp only [Expr.parts, List.forall_mem_cons] at hparts
      rw [Expr.check]
      exact .bind hparts.1 fun _ _ ↦ .bind hparts.2.1 fun _ _ ↦ resolves_judge
    | not site e =>
      simp only [Expr.parts, List.forall_mem_cons] at hparts
      rw [Expr.check]
      exact .bind hparts.1 fun _ _ ↦ resolves_judge
    | print site e =>
      simp only [Expr.parts, List.forall_mem_cons] at hparts
      rw [Expr.check]
      exact .bind hparts.1 fun _ _ ↦ resolves_typed
    | cond site c a b =>
      simp only [Expr.parts, List.forall_mem_cons] at hparts
      rw [Expr.check]
      exact .bind hparts.1 fun _ _ ↦ .bind resolves_require fun _ _ ↦
        .bind hparts.2.1 fun _ _ ↦ .bind hparts.2.2.1 fun _ _ ↦ resolves_judge
    | ident site x =>
      obtain ⟨e, -, hr⟩ := recorded_useName h
      rw [Expr.check]
      exact .bind (resolves_resolved hr) fun _ _ ↦ resolves_judge
    | call site f args =>
      rw [Expr.resolve, recorded_append] at h
      obtain ⟨e, -, hr⟩ := recorded_useName h.1
      rw [Expr.check]
      exact .bind (resolves_resolved hr) fun _ _ ↦ .bind resolves_signature fun _ _ ↦
        .bind resolves_require fun _ _ ↦
        .bind (Expr.checkArgs_resolves hparts _ _ _ _) fun _ _ ↦ resolves_typed
    | field site x m =>
      obtain ⟨e, -, hr, -⟩ := recorded_useMember h
      rw [Expr.check]
      refine .bind (resolves_checkReceiver hr) fun _ hobj ↦ ?_
      obtain ⟨_, _, e', -, -, -, -, he'⟩ := recorded_receiver h hobj
      exact .bind (resolves_resolved he') fun _ _ ↦ resolves_judge
    | invoke site x m args =>
      rw [Expr.resolve, recorded_append] at h
      obtain ⟨e, -, hr, -⟩ := recorded_useMember h.1
      rw [Expr.check]
      refine .bind (resolves_checkReceiver hr) fun _ hobj ↦ ?_
      obtain ⟨_, _, e', -, -, -, -, he'⟩ := recorded_receiver h.1 hobj
      exact .bind (resolves_resolved he') fun _ _ ↦ .bind resolves_signature fun _ _ ↦
        .bind resolves_require fun _ _ ↦
        .bind (Expr.checkArgs_resolves hparts _ _ _ _) fun _ _ ↦ resolves_typed
    | new site c args =>
      rw [Expr.resolve, recorded_append] at h
      obtain ⟨e, he, hr⟩ := recorded_useClass h.1
      obtain ⟨-, -, i, hi⟩ := Env.lookupClass?_eq_some he
      have hshape : ctx.classes.shape? c = some i.shape := by
        rw [ClassTable.shape?, hwithin.info hi]
        rfl
      rw [Expr.check]
      refine .bind ?_ fun _ _ ↦ .bind resolves_require fun _ _ ↦
        .bind (Expr.checkArgs_resolves hparts _ _ _ _) fun _ _ ↦ resolves_typed
      exact .bind (resolves_resolved hr) fun _ _ ↦
        .bind (resolves_resolved hshape) fun _ _ ↦ resolves_pure

/-- **An expression in which type checking finds no error has a type**, if name analysis has found
no error in it either. -/
theorem Expr.check_succeeds (hwithin : env.classes.Within ctx.classes) {e : Expr}
    (hrec : Recorded ctx (e.resolve env)) (h : typeErrors (e.check ctx).remarks = []) :
    ∃ ty, (e.check ctx).result = .ok ty :=
  (e.check_accounts ctx).exists_ok (e.check_resolves hwithin hrec) h

end Expressions

/-! ## Values and bodies -/

section Fitting

open Checked

variable {ctx : Context} {env : Env} {site : Site} {x : String} {ty : Ty} {e : Expr}

theorem accounts_checkInit : (checkInit ctx site x ty e).Accounts :=
  .bind (e.check_accounts ctx) fun _ _ ↦ accounts_require

theorem accounts_checkBody : (checkBody ctx site x ty e).Accounts :=
  .bind (e.check_accounts ctx) fun _ _ ↦ accounts_require

theorem resolves_checkInit (h : (e.check ctx).Resolves) : (checkInit ctx site x ty e).Resolves :=
  .bind h fun _ _ ↦ resolves_require

theorem resolves_checkBody (h : (e.check ctx).Resolves) : (checkBody ctx site x ty e).Resolves :=
  .bind h fun _ _ ↦ resolves_require

end Fitting

end ObjectLet
