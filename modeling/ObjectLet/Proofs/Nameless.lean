import ObjectLet.Proofs.Labels
import ObjectLet.Proofs.Runs
import ObjectLet.Proofs.Simulation

/-!
# Expressions without names

A bare expression is in no scope, so in one without errors no name is used.  Such an expression is
plain arithmetic: it needs no more of the stack than it has nodes, its code is not much longer than
that, and the only thing that can go wrong in it is a division by zero.
-/

set_option autoImplicit false

namespace ObjectLet

/-- No name is used in an expression.  Nothing is in scope in a bare expression, so without errors
it is of this kind. -/
def Expr.Nameless : Expr → Prop
  | .int _ _ | .bool _ _ | .null _ => True
  | .arith _ _ l r | .compare _ _ l r | .logic _ _ l r => l.Nameless ∧ r.Nameless
  | .not _ e | .print _ e => e.Nameless
  | .cond _ c a b => c.Nameless ∧ a.Nameless ∧ b.Nameless
  | .ident _ _ | .call _ _ _ | .field _ _ _ | .invoke _ _ _ _ | .new _ _ _ => False

/-- If nothing is found in an expression outside of every scope, no name is used in it. -/
theorem Expr.nameless_of_resolve (classes : ClassTable) (offset : Int) :
    ∀ e : Expr, e.resolve ⟨.empty, classes, offset⟩ = [] → e.Nameless
  | .int _ _ | .bool _ _ | .null _ => fun _ ↦ trivial
  | .arith _ _ l r | .compare _ _ l r | .logic _ _ l r => fun h ↦ by
    rw [Expr.resolve, List.append_eq_nil_iff] at h
    exact ⟨Expr.nameless_of_resolve classes offset l h.1,
      Expr.nameless_of_resolve classes offset r h.2⟩
  | .not _ e | .print _ e => fun h ↦ by
    rw [Expr.resolve] at h
    exact Expr.nameless_of_resolve classes offset e h
  | .cond _ c a b => fun h ↦ by
    rw [Expr.resolve, List.append_eq_nil_iff, List.append_eq_nil_iff] at h
    exact ⟨Expr.nameless_of_resolve classes offset c h.1.1,
      Expr.nameless_of_resolve classes offset a h.1.2,
      Expr.nameless_of_resolve classes offset b h.2⟩
  | .ident _ _ | .call _ _ _ | .field _ _ _ | .invoke _ _ _ _ | .new _ _ _ => fun h ↦ by
    simp [Expr.resolve, Env.useName, Env.useMember, Env.useClass, Env.lookupClass?,
      Scopes.lookup?, Scopes.lookupGlobal?, Scopes.empty] at h

/-- An expression without names needs at most one cell of the stack for each of its nodes. -/
theorem Expr.Nameless.cells_eq : ∀ {e : Expr}, e.Nameless → e.cells = e.ids.length
  | .int _ _, _ | .bool _ _, _ | .null _, _ => rfl
  | .arith _ _ _ _, h | .compare _ _ _ _, h | .logic _ _ _ _, h => by
    rw [Expr.cells, cells_eq h.1, cells_eq h.2, Expr.ids, List.length_cons, List.length_append]
  | .not _ e, h | .print _ e, h => by
    have he : e.Nameless := h
    rw [Expr.cells, cells_eq he, Expr.ids, List.length_cons]
  | .cond _ _ _ _, h => by
    rw [Expr.cells, cells_eq h.1, cells_eq h.2.1, cells_eq h.2.2, Expr.ids, List.length_cons,
      List.length_append, List.length_append]

/-! ## Evaluation -/

/-- A computation that may print or divide by zero, and leaves the heap as it is. -/
def Eval.Plain {α : Type} (x : Eval α) : Prop :=
  ∀ σ, (∃ a τ, x σ = .ok a τ ∧ τ.next = σ.next) ∨
    ∃ τ, x σ = .error .divisionByZero τ ∧ τ.next = σ.next

namespace Eval.Plain

variable {α β : Type} {x : Eval α} {f : α → Eval β}

theorem pure (a : α) : Plain (Pure.pure a : Eval α) := fun σ ↦ .inl ⟨a, σ, rfl, rfl⟩

theorem bind (hx : x.Plain) (hf : ∀ a, (f a).Plain) : Plain (x >>= f) := by
  intro σ
  simp only [Bind.bind, EStateM.bind]
  rcases hx σ with ⟨a, τ, ha, hτ⟩ | ⟨τ, he, hτ⟩
  · rw [ha]
    rcases hf a τ with ⟨b, υ, hb, hυ⟩ | ⟨υ, he, hυ⟩
    · exact .inl ⟨b, υ, hb, hυ.trans hτ⟩
    · exact .inr ⟨υ, he, hυ.trans hτ⟩
  · rw [he]
    exact .inr ⟨τ, rfl, hτ⟩

theorem arith (op : ArithOp) (a b : Int32) : (op.eval a b).Plain := by
  cases op with
  | div =>
    rw [ArithOp.eval]
    split
    · exact fun σ ↦ .inr ⟨σ, rfl, rfl⟩
    · exact .pure _
  | _ => exact .pure _

end Eval.Plain

/-- **Only a division by zero can go wrong in an expression without names**, and nothing is put on
the heap. -/
theorem Expr.Nameless.eval_plain {call : Caller} {ρ : Bindings} :
    ∀ {e : Expr}, e.Nameless → (e.eval call ρ).Plain
  | .int _ _, _ | .bool _ _, _ | .null _, _ => .pure _
  | .arith _ op _ _, h => by
    rw [Expr.eval]
    exact .bind (eval_plain h.1) fun a ↦ .bind (eval_plain h.2) fun b ↦ .arith op a b
  | .compare _ op l r, h => by
    have hl : (l.eval call ρ).Plain := eval_plain h.1
    have hr : (r.eval call ρ).Plain := eval_plain h.2
    cases op <;> rw [Expr.eval]
    · exact .bind hl fun _ ↦ .bind hr fun _ ↦ .pure _
    · exact .bind hr fun _ ↦ .bind hl fun _ ↦ .pure _
    · exact .bind hl fun _ ↦ .bind hr fun _ ↦ .pure _
  | .logic _ op l r, h => by
    have hr : (r.eval call ρ).Plain := eval_plain h.2
    rw [Expr.eval_logic]
    refine .bind (eval_plain h.1) fun a ↦ ?_
    split
    · exact .pure _
    · exact hr
  | .not _ e, h => by
    have he : e.Nameless := h
    rw [Expr.eval]
    exact .bind (eval_plain he) fun _ ↦ .pure _
  | .cond _ _ a b, h => by
    have ha : (a.eval call ρ).Plain := eval_plain h.2.1
    have hb : (b.eval call ρ).Plain := eval_plain h.2.2
    rw [Expr.eval]
    refine .bind (eval_plain h.1) fun v ↦ ?_
    split
    · exact ha
    · exact hb
  | .print _ e, h => by
    have he : e.Nameless := h
    rw [Expr.eval]
    exact .bind (eval_plain he) fun v ↦ .bind (fun σ ↦ .inl ⟨(), _, rfl, rfl⟩) fun _ ↦ .pure v

/-! ## The size of the code -/

/-- **The code of an expression without names** has at most eight words for each of its nodes. -/
theorem Expr.Nameless.codeSize_le {t : Target} :
    ∀ {e : Expr} {is : List Instr} {n n' : Nat}, e.Nameless → e.emit t n = .ok (is, n') →
      codeSize is + 6 ≤ 8 * e.ids.length
  | .int _ _, _, _, _, _, h | .bool _ _, _, _, _, _, h | .null _, _, _, _, _, h => by
    simp only [Expr.emit, emit_pure, Except.ok.injEq, Prod.mk.injEq] at h
    obtain ⟨rfl, -⟩ := h
    exact Nat.le_refl _
  | .arith _ _ _ _, _, _, _, hn, h => by
    obtain ⟨left, _, right, hl, hr, rfl⟩ := Expr.emit_arith_eq_ok h
    have hl := codeSize_le hn.1 hl
    have hr := codeSize_le hn.2 hr
    simp only [codeSize_append, codeSize_cons, codeSize_nil, Instr.size, Expr.ids, List.length_cons,
      List.length_append]
    omega
  | .compare _ op l r, _, _, _, hn, h => by
    obtain ⟨first, _, second, h₁, h₂, rfl⟩ := Expr.emit_compare_eq_ok h
    have hl := @codeSize_le t l
    have hr := @codeSize_le t r
    have hboth : codeSize first + codeSize second + 12 ≤ 8 * l.ids.length + 8 * r.ids.length := by
      cases op with
      | ge =>
        have hl := hl hn.1 h₂
        have hr := hr hn.2 h₁
        omega
      | _ =>
        have hl := hl hn.1 h₁
        have hr := hr hn.2 h₂
        omega
    simp only [select, codeSize_append, codeSize_cons, codeSize_nil, Instr.size, Expr.ids,
      List.length_cons, List.length_append]
    omega
  | .logic _ _ _ _, _, _, _, hn, h => by
    obtain ⟨left, _, right, hl, hr, rfl⟩ := Expr.emit_logic_eq_ok h
    have hl := codeSize_le hn.1 hl
    have hr := codeSize_le hn.2 hr
    simp only [select, codeSize_append, codeSize_cons, codeSize_nil, Instr.size, Expr.ids,
      List.length_cons, List.length_append]
    omega
  | .not _ e, _, _, _, hn, h => by
    obtain ⟨operand, he, rfl⟩ := Expr.emit_not_eq_ok h
    have he := codeSize_le (e := e) hn he
    simp only [codeSize_append, codeSize_cons, codeSize_nil, Instr.size, Expr.ids, List.length_cons]
    omega
  | .cond _ _ _ _, _, _, _, hn, h => by
    obtain ⟨condition, _, otherwise, _, consequent, hc, hb, ha, rfl⟩ := Expr.emit_cond_eq_ok h
    have hc := codeSize_le hn.1 hc
    have ha := codeSize_le hn.2.1 ha
    have hb := codeSize_le hn.2.2 hb
    simp only [codeSize_append, codeSize_cons, codeSize_nil, Instr.size, Expr.ids,
      List.length_cons, List.length_append]
    omega
  | .print _ e, _, _, _, hn, h => by
    obtain ⟨operand, he, rfl⟩ := Expr.emit_print_eq_ok h
    have he := codeSize_le (e := e) hn he
    simp only [duplicate, codeSize_append, codeSize_cons, codeSize_nil, Instr.size, Expr.ids,
      List.length_cons]
    omega

end ObjectLet
