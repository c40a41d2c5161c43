import ObjectLet.Proofs.Evaluation
import ObjectLet.Proofs.Leads

/-!
# The machine follows the evaluator

A computation of the evaluator ends with a value or with an interrupt.  `Image.Runs` says that the
machine gets just as far: to a configuration of a certain kind in the first case, and in the second
one to where the machine stops for the same reason (`Image.Halts`), unless it runs out of memory
before.  `Runs.bind` puts this together along the computation.

The evaluator runs out of fuel only when the machine has gone through as many steps as one likes.
In this way `Image.Runs` also says something about runs that never end.

* `Expr.grows`, `Callee.grows`: the evaluator only ever adds to what has been printed and to the
  heap.
-/

set_option autoImplicit false

namespace ObjectLet

/-! ## Stores that grow -/

/-- What never gets less from one store to another one.  This is what the machine can count on while
it does not know how an evaluation will end. -/
structure Store.Before (σ τ : Store) : Prop where
  /-- More is printed. -/
  printed : σ.printed <+: τ.printed
  /-- More of the heap is in use. -/
  next : σ.next ≤ τ.next

theorem Store.Before.refl (σ : Store) : σ.Before σ := ⟨List.prefix_rfl, Nat.le_refl _⟩

theorem Store.Before.trans {σ τ υ : Store} (h : σ.Before τ) (h' : τ.Before υ) : σ.Before υ :=
  ⟨h.printed.trans h'.printed, Nat.le_trans h.next h'.next⟩

namespace Eval

variable {α β : Type}

/-- Nothing gets less in a computation, whether it has a result or not. -/
def Grows (x : Eval α) : Prop :=
  ∀ σ, match x σ with
    | .ok _ τ | .error _ τ => σ.Before τ

/-- A computation that leaves the store as it is, such as looking up a name. -/
def Reads (x : Eval α) : Prop :=
  ∀ σ, (∃ a, x σ = .ok a σ) ∨ ∃ e, x σ = .error e σ

variable {x : Eval α} {f : α → Eval β}

theorem Grows.bind (hx : x.Grows) (hf : ∀ a, (f a).Grows) : Grows (x >>= f) := by
  intro σ
  have hσ := hx σ
  simp only [Bind.bind, EStateM.bind]
  cases hxσ : x σ with
  | ok a τ =>
    rw [hxσ] at hσ
    have hτ := hf a τ
    cases hfτ : f a τ with
    | ok b υ =>
      rw [hfτ] at hτ
      simp only [hfτ]
      exact hσ.trans hτ
    | error e υ =>
      rw [hfτ] at hτ
      simp only [hfτ]
      exact hσ.trans hτ
  | error e τ =>
    rw [hxσ] at hσ
    exact hσ

theorem Reads.grows (h : x.Reads) : x.Grows := by
  intro σ
  rcases h σ with ⟨a, ha⟩ | ⟨e, he⟩
  · rw [ha]
    exact .refl σ
  · rw [he]
    exact .refl σ

theorem reads_pure (a : α) : Reads (pure a : Eval α) := fun _ ↦ .inl ⟨a, rfl⟩

theorem reads_throw (e : Interrupt) : Reads (throw e : Eval α) := fun _ ↦ .inr ⟨e, rfl⟩

theorem grows_pure (a : α) : Grows (pure a : Eval α) := (reads_pure a).grows

theorem grows_throw (e : Interrupt) : Grows (throw e : Eval α) := (reads_throw e).grows

/-! ## What the operations of the evaluator do -/

variable {ρ : Bindings} {v : Int32} {σ : Store} {call : Caller}

theorem object_eq (v : Int32) (σ : Store) :
    object v σ =
      if v = -1 then .error .nullAccess σ
      else match σ.object? v with
        | some o => .ok o σ
        | none => .error .stuck σ := by
  rw [object]
  split
  · rfl
  · change (match σ.object? v with | some o => pure o | none => throw .stuck : Eval Object) σ = _
    cases σ.object? v <;> rfl

theorem reads_object (v : Int32) : (object v).Reads := by
  intro σ
  rw [object_eq]
  split
  · exact .inr ⟨_, rfl⟩
  · split
    · exact .inl ⟨_, rfl⟩
    · exact .inr ⟨_, rfl⟩

theorem reads_value (ρ : Bindings) (x : String) : (value ρ x).Reads := by
  rw [value]
  split
  · exact reads_pure _
  · exact reads_throw _

theorem grows_print (v : Int32) : (print v).Grows :=
  fun σ ↦ ⟨List.prefix_append σ.printed [v], Nat.le_refl _⟩

theorem grows_field (v : Int32) (x : String) : (field v x).Grows := by
  refine .bind (reads_object v).grows fun o ↦ ?_
  cases o.field? x with
  | some w => exact grows_pure w
  | none => exact grows_throw _

theorem grows_invoke (hcall : ∀ f vs, (call f vs).Grows) (v : Int32) (x : String)
    (vs : List Int32) : (invoke call v x vs).Grows := by
  refine .bind (reads_object v).grows fun o ↦ ?_
  cases o.home.method? x o.cls with
  | some m => exact hcall _ _
  | none => exact grows_throw _

theorem grows_call (hcall : ∀ f vs, (call f vs).Grows) (ρ : Bindings) (x : String)
    (vs : List Int32) : (Eval.call call ρ x vs).Grows := by
  rw [Eval.call]
  split
  · exact hcall _ _
  · exact grows_invoke hcall _ _ _
  · exact grows_throw _

theorem construct_eq {cls : String} {home : Layer} {vs : List Int32} (h : ρ.class? cls = some home)
    (hlen : (home.fieldNames cls).length = vs.length) (σ : Store) :
    construct ρ cls vs σ = .ok (Int32.ofNat (σ.next + vs.length))
      { σ with
        objects := (Int32.ofNat (σ.next + vs.length),
          ⟨cls, home, (home.fieldNames cls).zip vs⟩) :: σ.objects
        next := σ.next + vs.length + 1 } := by
  rw [construct, h]
  simp only [hlen, if_true]
  rfl

theorem grows_construct (ρ : Bindings) (cls : String) (vs : List Int32) :
    (construct ρ cls vs).Grows := by
  cases h : ρ.class? cls with
  | none =>
    rw [construct, h]
    exact grows_throw _
  | some home =>
    by_cases hlen : (home.fieldNames cls).length = vs.length
    · intro σ
      rw [construct_eq h hlen]
      exact ⟨List.prefix_rfl, by simp only; omega⟩
    · rw [construct, h]
      simp only [hlen, if_false]
      exact grows_throw _

end Eval

open Eval

theorem ArithOp.grows (op : ArithOp) (a b : Int32) : (op.eval a b).Grows := by
  cases op with
  | div =>
    rw [ArithOp.eval]
    split
    · exact grows_throw _
    · exact grows_pure _
  | _ => exact grows_pure _

section Grows

variable {call : Caller}

mutual

/-- **The evaluator only ever adds to what has been printed and to the heap**, if calls do so. -/
theorem Expr.grows (hcall : ∀ f vs, (call f vs).Grows) (ρ : Bindings) :
    ∀ e : Expr, (e.eval call ρ).Grows
  | .int _ _ | .bool _ _ | .null _ => by
    rw [Expr.eval]
    exact grows_pure _
  | .arith _ op l r => by
    rw [Expr.eval]
    exact .bind (Expr.grows hcall ρ l) fun a ↦ .bind (Expr.grows hcall ρ r) fun b ↦ op.grows a b
  | .compare _ op l r => by
    have hl := Expr.grows hcall ρ l
    have hr := Expr.grows hcall ρ r
    cases op <;> rw [Expr.eval]
    · exact .bind hl fun _ ↦ .bind hr fun _ ↦ grows_pure _
    · exact .bind hr fun _ ↦ .bind hl fun _ ↦ grows_pure _
    · exact .bind hl fun _ ↦ .bind hr fun _ ↦ grows_pure _
  | .logic _ op l r => by
    rw [Expr.eval]
    refine .bind (Expr.grows hcall ρ l) fun a ↦ ?_
    have hr := Expr.grows hcall ρ r
    cases op <;> simp only <;> split <;> first | exact hr | exact grows_pure _
  | .not _ e => by
    rw [Expr.eval]
    exact .bind (Expr.grows hcall ρ e) fun _ ↦ grows_pure _
  | .cond _ c a b => by
    rw [Expr.eval]
    refine .bind (Expr.grows hcall ρ c) fun v ↦ ?_
    have ha := Expr.grows hcall ρ a
    have hb := Expr.grows hcall ρ b
    split
    · exact ha
    · exact hb
  | .print _ e => by
    rw [Expr.eval]
    exact .bind (Expr.grows hcall ρ e) fun v ↦ .bind (grows_print v) fun _ ↦ grows_pure v
  | .ident _ x => by
    rw [Expr.eval]
    exact (reads_value ρ x).grows
  | .call _ f args => by
    rw [Expr.eval]
    exact .bind (Expr.grows_backwards hcall ρ args) fun vs ↦ grows_call hcall ρ f vs
  | .field _ x f => by
    rw [Expr.eval]
    exact .bind (reads_value ρ x).grows fun v ↦ grows_field v f
  | .invoke _ x m args => by
    rw [Expr.eval]
    exact .bind (Expr.grows_backwards hcall ρ args) fun vs ↦
      .bind (reads_value ρ x).grows fun v ↦ grows_invoke hcall v m vs
  | .new _ c args => by
    rw [Expr.eval]
    exact .bind (Expr.grows_all hcall ρ args) fun vs ↦ grows_construct ρ c vs
termination_by structural e => e

theorem Expr.grows_all (hcall : ∀ f vs, (call f vs).Grows) (ρ : Bindings) :
    ∀ es : List Expr, (Expr.evalAll call ρ es).Grows
  | [] => by
    rw [Expr.evalAll]
    exact grows_pure _
  | e :: es => by
    rw [Expr.evalAll]
    exact .bind (Expr.grows hcall ρ e) fun _ ↦
      .bind (Expr.grows_all hcall ρ es) fun _ ↦ grows_pure _
termination_by structural es => es

theorem Expr.grows_backwards (hcall : ∀ f vs, (call f vs).Grows) (ρ : Bindings) :
    ∀ es : List Expr, (Expr.evalBackwards call ρ es).Grows
  | [] => by
    rw [Expr.evalBackwards]
    exact grows_pure _
  | e :: es => by
    rw [Expr.evalBackwards]
    exact .bind (Expr.grows_backwards hcall ρ es) fun _ ↦
      .bind (Expr.grows hcall ρ e) fun _ ↦ grows_pure _
termination_by structural es => es

end

theorem Decl.grows (hcall : ∀ f vs, (call f vs).Grows) (ρ : Bindings) (d : Decl) :
    (d.eval call ρ).Grows := by
  cases d with
  | var site x ty e => exact .bind (Expr.grows hcall ρ e) fun v ↦ grows_pure _
  | func f => exact grows_pure _
  | cls c => exact .bind (fun σ ↦ ⟨List.prefix_rfl, Nat.le_add_right _ _⟩) fun _ ↦ grows_pure _

theorem Decl.grows_all (hcall : ∀ f vs, (call f vs).Grows) (ρ : Bindings) (ds : List Decl) :
    (Decl.evalAll call ρ ds).Grows := by
  induction ds generalizing ρ with
  | nil => exact grows_pure ρ
  | cons d ds ih => exact .bind (d.grows hcall ρ) ih

theorem Callee.grows (fuel : Nat) (f : Callee) (vs : List Int32) :
    (Callee.run fuel f vs).Grows := by
  induction fuel generalizing f vs with
  | zero => exact grows_throw _
  | succ fuel ih =>
    exact .bind (Decl.grows_all ih _ f.decl.locals) fun ρ ↦ f.decl.body.grows ih ρ

end Grows

/-! ## Runs -/

namespace Image

/-- A configuration in which there is no value: the machine is about to stop for the same reason as
the evaluator, or it has gone through a number of steps if the evaluator has run out of fuel. -/
structure Halts (m : Image) (n : Nat) (e : Interrupt) (τ : Store) (c : Config) : Prop where
  /-- The same has been printed. -/
  printed : c.printed = τ.printed
  /-- The machine is where it stops for this reason. -/
  reason : match e with
    | .divisionByZero => ∃ rest v st, CodeAt m.prog c.ip (.plain .div :: rest) ∧
        c.stack = 0 :: v :: st
    | .nullAccess => ∃ rest a st, CodeAt m.prog c.ip (.plain .loadWord :: rest) ∧
        c.stack = a :: st ∧ a < 0
    | .outOfFuel => n ≤ c.steps
    | .stuck => False

variable {m : Image} {n bound bound' : Nat} {α β : Type} {x : Eval α} {f : α → Eval β} {a : α}
  {σ τ : Store} {c : Config} {P : Config → Prop} {Q Q' : α → Store → Config → Prop}
  {R : β → Store → Config → Prop}

/-- The machine gets as far as a computation, with its stack within some bound.  If the computation
has a result, the machine gets to where `Q` holds of it; if there is none, it stops for the same
reason, or goes on for at least `n` steps if the fuel has run out. -/
def Runs (m : Image) (bound n : Nat) (x : Eval α) (σ : Store) (c : Config)
    (Q : α → Store → Config → Prop) : Prop :=
  match x σ with
  | .ok a τ => m.Leads τ.printed (bound + τ.next) (Q a τ) c
  | .error e τ => m.Leads τ.printed (bound + τ.next) (m.Halts n e τ) c

namespace Runs

theorem pure (h : m.Leads σ.printed (bound + σ.next) (Q a σ) c) :
    m.Runs bound n (Pure.pure a) σ c Q := h

theorem ok (h : x σ = .ok a τ) (hl : m.Leads τ.printed (bound + τ.next) (Q a τ) c) :
    m.Runs bound n x σ c Q := by
  rw [Runs, h]
  exact hl

theorem error {e : Interrupt} (h : x σ = .error e τ)
    (hl : m.Leads τ.printed (bound + τ.next) (m.Halts n e τ) c) : m.Runs bound n x σ c Q := by
  rw [Runs, h]
  exact hl

/-- **One computation after another one.** The second one may need more of the memory, and only adds
to what the first one has left. -/
theorem bind (hx : m.Runs bound n x σ c Q) (hb : bound ≤ bound') (hg : ∀ a, (f a).Grows)
    (hf : ∀ a τ d, Q a τ d → m.Runs bound' n (f a) τ d R) : m.Runs bound' n (x >>= f) σ c R := by
  rw [Runs] at hx ⊢
  simp only [Bind.bind, EStateM.bind]
  cases hxσ : x σ with
  | error e τ =>
    rw [hxσ] at hx
    exact hx.mono List.prefix_rfl (by omega) fun _ h ↦ h
  | ok a τ =>
    rw [hxσ] at hx
    have hτ := hg a τ
    have hf := hf a τ
    simp only [Runs] at hf
    cases hfτ : f a τ with
    | ok b υ =>
      rw [hfτ] at hτ hf
      simp only [hfτ]
      have hn := hτ.next
      exact (hx.mono hτ.printed (by omega) fun _ h ↦ h).bind hf
    | error e υ =>
      rw [hfτ] at hτ hf
      simp only [hfτ]
      have hn := hτ.next
      exact (hx.mono hτ.printed (by omega) fun _ h ↦ h).bind hf

/-- Some code before a computation, which does nothing that the evaluator would notice. -/
theorem after (h : m.Leads σ.printed (bound + σ.next) P c) (hg : x.Grows)
    (hx : ∀ d, P d → m.Runs bound n x σ d Q) : m.Runs bound n x σ c Q :=
  bind (x := Pure.pure ()) (f := fun _ ↦ x) (Q := fun _ τ d ↦ τ = σ ∧ P d)
    (h.imp fun _ hd ↦ ⟨rfl, hd⟩) (Nat.le_refl _) (fun _ ↦ hg) fun _ _ d hd ↦ hd.1 ▸ hx d hd.2

/-- Some code after a computation.  It may need more of the memory than the computation itself. -/
theorem andThen (h : m.Runs bound n x σ c Q) (hb : bound ≤ bound')
    (hQ : ∀ a τ d, Q a τ d → m.Leads τ.printed (bound' + τ.next) (Q' a τ) d) :
    m.Runs bound' n x σ c Q' := by
  rw [Runs] at h ⊢
  split at h
  · exact (h.mono List.prefix_rfl (by omega) fun _ h ↦ h).bind (hQ _ _)
  · exact h.mono List.prefix_rfl (by omega) fun _ h ↦ h

theorem imp (h : m.Runs bound n x σ c Q) (hb : bound ≤ bound')
    (hQ : ∀ a τ d, Q a τ d → Q' a τ d) : m.Runs bound' n x σ c Q' :=
  h.andThen hb fun a τ d hd ↦ .here (hQ a τ d hd)

end Runs

end Image

end ObjectLet
