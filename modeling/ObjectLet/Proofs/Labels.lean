import ObjectLet.Emission
import ObjectLet.Proofs.Placement

/-!
# Labels

All labels of a program come from one counter.  So the numbers of the labels that a piece of code
marks lie between the states of the counter before and after it was emitted, and none of them is
marked twice (`Numbered`).  For expressions this follows from the few ways in which their code is
put together (`Woven`).  Jumps stay inside the code of their expression.  What else is referred to
is the entry of a function or method, whose code has been emitted by then: `Emission.Closed` says so
of everything that has been collected, and `Emission.Adds` is what emitting a declaration does.

With `assemble_eq_ok_iff` this gives `Program.assembles`: **whatever code is emitted for a program
can be assembled.**
-/

set_option autoImplicit false

namespace ObjectLet

/-! ## Taking emitters apart -/

section Binds

variable {α β : Type}

@[simp] theorem emit_bind_eq_ok {x : Emit α} {f : α → Emit β} {n : Nat} {r : β × Nat} :
    (x >>= f) n = .ok r ↔ ∃ a n', x n = .ok (a, n') ∧ f a n' = .ok r := by
  simp only [bind, StateT.bind, Except.bind]
  cases x n with
  | error e => simp
  | ok p =>
    obtain ⟨a, n'⟩ := p
    simp

@[simp] theorem emit_pure {a : α} {n : Nat} : (pure a : Emit α) n = .ok (a, n) := rfl

@[simp] theorem emit_throw {e : CompileError} {n : Nat} : (throw e : Emit α) n = .error e := rfl

@[simp] theorem emit_fresh {kind : Label.Kind} {n : Nat} :
    (Label.fresh kind : Emit Label) n = .ok (⟨kind, n⟩, n + 1) := rfl

@[simp] theorem emitter_bind_eq_ok {x : Emitter α} {f : α → Emitter β} {s s'' : Emission} {b : β} :
    (x >>= f) s = .ok b s'' ↔ ∃ a s', x s = .ok a s' ∧ f a s' = .ok b s'' := by
  simp only [bind, EStateM.bind]
  cases x s with
  | error e s' => simp
  | ok a s' => simp

@[simp] theorem emitter_pure {a : α} {s : Emission} : (pure a : Emitter α) s = .ok a s := rfl

@[simp] theorem emitter_get {s : Emission} : (get : Emitter Emission) s = .ok s s := rfl

@[simp] theorem emitter_throw {e : CompileError} {s : Emission} :
    (throw e : Emitter α) s = .error e s := rfl

@[simp] theorem emitter_labels_eq_ok {x : Emit α} {s s' : Emission} {a : α} :
    Emitter.labels x s = .ok a s' ↔
      ∃ n, x s.nextLabel = .ok (a, n) ∧ s' = { s with nextLabel := n } := by
  simp only [Emitter.labels]
  cases x s.nextLabel with
  | error e => simp
  | ok p =>
    obtain ⟨a', n⟩ := p
    simp [eq_comm]

@[simp] theorem emitter_note {e : Event} {s : Emission} :
    Emitter.note e s = .ok () { s with log := s.log ++ [e] } := rfl

@[simp] theorem emitter_addFunction {code : List Instr} {s : Emission} :
    Emitter.addFunction code s = .ok () { s with functions := s.functions ++ code } := rfl

end Binds

/-! ## Expressions -/

namespace CompareOp

/-- The operands of a comparison in the order in which they are evaluated.  There is no jump for
`>=`, so its operands are exchanged. -/
def operands (op : CompareOp) (l r : Expr) : Expr × Expr :=
  match op with
  | .ge => (r, l)
  | .eq | .le => (l, r)

/-- The jump that is made if a comparison holds. -/
def jump : CompareOp → Jump
  | .eq => .ifEq
  | .ge | .le => .ifLessEq

end CompareOp

/-- The code of a comparison has the operands in the order in which they are evaluated. -/
theorem Expr.emit_compare (t : Target) (site : Site) (op : CompareOp) (l r : Expr) :
    (Expr.compare site op l r).emit t = do
      let taken ← Label.fresh .branch
      let done ← Label.fresh .branch
      let first ← (op.operands l r).1.emit t
      let second ← (op.operands l r).2.emit t
      return first ++ second ++ [.jump op.jump taken] ++ select taken done 0 1 := by
  cases op <;> simp [Expr.emit, CompareOp.operands, CompareOp.jump]

/-- The numbers of the labels that are marked. -/
def numbers (is : List Instr) : List Nat := (marks is).map Label.number

@[simp] theorem numbers_nil : numbers [] = [] := rfl

@[simp] theorem numbers_append (is js : List Instr) :
    numbers (is ++ js) = numbers is ++ numbers js := by
  simp [numbers]

/-- Code that marks labels with numbers from `n` up to `n'` only, none of them twice, and refers to
no other labels. -/
structure Numbered (n n' : Nat) (is : List Instr) : Prop where
  /-- The counter goes up. -/
  le : n ≤ n'
  /-- Each label is marked once at most. -/
  count : ∀ k, (numbers is).count k ≤ if n ≤ k ∧ k < n' then 1 else 0
  /-- All references are to labels marked here. -/
  references : ∀ l ∈ references is, l ∈ marks is

/-- The instructions that neither mark a label nor refer to one. -/
def Instr.isPlain : Instr → Bool
  | .push _ | .plain _ => true
  | _ => false

theorem labels_of_isPlain {is : List Instr} (h : is.all Instr.isPlain = true) :
    marks is = [] ∧ references is = [] := by
  induction is with
  | nil => exact ⟨rfl, rfl⟩
  | cons i is ih =>
    rw [List.all_cons, Bool.and_eq_true] at h
    obtain ⟨hm, hr⟩ := ih h.2
    cases i with
    | push v => exact ⟨hm, hr⟩
    | plain op => exact ⟨hm, hr⟩
    | _ => cases h.1

namespace Numbered

variable {n n' n'' : Nat} {is js : List Instr}

theorem plain (h : is.all Instr.isPlain = true) : Numbered n n is := by
  obtain ⟨hm, hr⟩ := labels_of_isPlain h
  exact ⟨Nat.le_refl n, by simp [numbers, hm], by simp [hr]⟩

theorem append (h : Numbered n n' is) (h' : Numbered n' n'' js) : Numbered n n'' (is ++ js) := by
  have hle := h.le
  have hle' := h'.le
  refine ⟨Nat.le_trans hle hle', fun k ↦ ?_, fun l hl ↦ ?_⟩
  · have hk := h.count k
    have hk' := h'.count k
    rw [numbers_append, List.count_append]
    split at hk <;> split at hk' <;> split <;> omega
  · rw [marks_append, List.mem_append]
    rw [references_append, List.mem_append] at hl
    exact hl.imp (h.references l) (h'.references l)

/-- Code around which two new labels are placed. -/
theorem branch (h : Numbered (n + 2) n' is)
    (hmarks : ∀ k, (numbers js).count k = (numbers is).count k + [n, n + 1].count k)
    (hsub : ∀ l ∈ marks is, l ∈ marks js)
    (hrefs : ∀ l ∈ ObjectLet.references js, l ∈ ObjectLet.references is ∨ l ∈ marks js) :
    Numbered n n' js := by
  have hle := h.le
  refine ⟨by omega, fun k ↦ ?_, fun l hl ↦ ?_⟩
  · have hk := h.count k
    rw [hmarks k]
    simp only [List.count_cons, List.count_nil, beq_iff_eq]
    repeat' split at *
    all_goals omega
  · exact (hrefs l hl).elim (fun hl ↦ hsub l (h.references l hl)) id

end Numbered

@[simp] theorem Target.resolution_eq_ok {t : Target} {site : Site} {n : Nat}
    {p : Resolution × Nat} :
    t.resolution site n = .ok p ↔ t.ctx.resolutions.find? site.id = some p.1 ∧ p.2 = n := by
  simp only [resolution]
  cases t.ctx.resolutions.find? site.id with
  | none => simp
  | some r => simp [Prod.ext_iff, eq_comm]

@[simp] theorem Target.memberOffset_eq_ok {t : Target} {site : Site} {n : Nat} {p : Int × Nat} :
    t.memberOffset site n = .ok p ↔
      (∃ m, t.ctx.members.find? site.id = some m ∧ p.1 = m.offset) ∧ p.2 = n := by
  simp only [memberOffset]
  cases t.ctx.members.find? site.id with
  | none => simp
  | some m => simp [Prod.ext_iff, eq_comm]

/-! ### The parts of the code -/

namespace Expr

variable {t : Target} {site : Site} {n n' : Nat} {is : List Instr}

theorem emit_arith_eq_ok {op : ArithOp} {l r : Expr}
    (h : (arith site op l r).emit t n = .ok (is, n')) :
    ∃ left n₁ right, l.emit t n = .ok (left, n₁) ∧ r.emit t n₁ = .ok (right, n') ∧
      is = left ++ right ++ [.plain op.operation] := by
  simp only [emit, emit_bind_eq_ok, emit_pure, Except.ok.injEq, Prod.mk.injEq] at h
  obtain ⟨left, n₁, hl, right, n₂, hr, rfl, rfl⟩ := h
  exact ⟨left, n₁, right, hl, hr, rfl⟩

theorem emit_compare_eq_ok {op : CompareOp} {l r : Expr}
    (h : (compare site op l r).emit t n = .ok (is, n')) :
    ∃ first n₁ second, (op.operands l r).1.emit t (n + 2) = .ok (first, n₁) ∧
      (op.operands l r).2.emit t n₁ = .ok (second, n') ∧
      is = first ++ second ++ [.jump op.jump ⟨.branch, n⟩]
        ++ select ⟨.branch, n⟩ ⟨.branch, n + 1⟩ 0 1 := by
  simp only [emit_compare, emit_bind_eq_ok, emit_pure, emit_fresh, Except.ok.injEq,
    Prod.mk.injEq] at h
  obtain ⟨taken, _, ⟨rfl, rfl⟩, done, _, ⟨rfl, rfl⟩, first, n₁, h₁, second, n₂, h₂, rfl, rfl⟩ := h
  exact ⟨first, n₁, second, h₁, h₂, rfl⟩

theorem emit_logic_eq_ok {op : LogicOp} {l r : Expr}
    (h : (logic site op l r).emit t n = .ok (is, n')) :
    ∃ left n₁ right, l.emit t (n + 2) = .ok (left, n₁) ∧ r.emit t n₁ = .ok (right, n') ∧
      is = left ++ [.push op.decisive, .jump .ifEq ⟨.branch, n⟩]
        ++ right ++ [.push op.decisive, .jump .ifEq ⟨.branch, n⟩]
        ++ select ⟨.branch, n⟩ ⟨.branch, n + 1⟩ (1 - op.decisive) op.decisive := by
  simp only [emit, emit_bind_eq_ok, emit_pure, emit_fresh, Except.ok.injEq, Prod.mk.injEq] at h
  obtain ⟨short, _, ⟨rfl, rfl⟩, done, _, ⟨rfl, rfl⟩, left, n₁, hl, right, n₂, hr, rfl, rfl⟩ := h
  exact ⟨left, n₁, right, hl, hr, rfl⟩

theorem emit_not_eq_ok {e : Expr} (h : (Expr.not site e).emit t n = .ok (is, n')) :
    ∃ operand, e.emit t n = .ok (operand, n') ∧ is = [.push 1] ++ operand ++ [.plain .sub] := by
  simp only [emit, emit_bind_eq_ok, emit_pure, Except.ok.injEq, Prod.mk.injEq] at h
  obtain ⟨operand, n₁, he, rfl, rfl⟩ := h
  exact ⟨operand, he, rfl⟩

theorem emit_cond_eq_ok {c a b : Expr} (h : (cond site c a b).emit t n = .ok (is, n')) :
    ∃ condition n₁ otherwise n₂ consequent, c.emit t (n + 2) = .ok (condition, n₁) ∧
      b.emit t n₁ = .ok (otherwise, n₂) ∧ a.emit t n₂ = .ok (consequent, n') ∧
      is = condition ++ [.push 1, .jump .ifEq ⟨.branch, n⟩] ++ otherwise
        ++ [.jump .always ⟨.branch, n + 1⟩, .mark ⟨.branch, n⟩] ++ consequent
        ++ [.mark ⟨.branch, n + 1⟩] := by
  simp only [emit, emit_bind_eq_ok, emit_pure, emit_fresh, Except.ok.injEq, Prod.mk.injEq] at h
  obtain ⟨chosen, _, ⟨rfl, rfl⟩, done, _, ⟨rfl, rfl⟩, condition, n₁, hc, otherwise, n₂, hb,
    consequent, n₃, ha, rfl, rfl⟩ := h
  exact ⟨condition, n₁, otherwise, n₂, consequent, hc, hb, ha, rfl⟩

theorem emit_print_eq_ok {e : Expr} (h : (print site e).emit t n = .ok (is, n')) :
    ∃ argument, e.emit t n = .ok (argument, n') ∧
      is = argument ++ duplicate ++ [.plain .print] := by
  simp only [emit, emit_bind_eq_ok, emit_pure, Except.ok.injEq, Prod.mk.injEq] at h
  obtain ⟨argument, n₁, he, rfl, rfl⟩ := h
  exact ⟨argument, he, rfl⟩

theorem emit_ident_eq_ok {x : String} (h : (ident site x).emit t n = .ok (is, n')) :
    ∃ r, t.ctx.resolutions.find? site.id = some r ∧ is = t.address r ++ [.plain .loadWord] ∧
      n' = n := by
  simp only [emit, emit_bind_eq_ok, Target.resolution_eq_ok, emit_pure, Except.ok.injEq,
    Prod.mk.injEq] at h
  obtain ⟨r, _, ⟨hr, rfl⟩, rfl, rfl⟩ := h
  exact ⟨r, hr, rfl, rfl⟩

theorem emit_call_eq_ok {f : String} {args : List Expr}
    (h : (call site f args).emit t n = .ok (is, n')) :
    ∃ r values, t.ctx.resolutions.find? site.id = some r ∧
      emitBackwards t args n = .ok (values, n') ∧
      is = [.plain .loadFp] ++ values ++ t.callNamed r := by
  simp only [emit, emit_bind_eq_ok, Target.resolution_eq_ok, emit_pure, Except.ok.injEq,
    Prod.mk.injEq] at h
  obtain ⟨r, _, ⟨hr, rfl⟩, values, _, hargs, rfl, rfl⟩ := h
  exact ⟨r, values, hr, hargs, rfl⟩

theorem emit_field_eq_ok {x f : String} (h : (field site x f).emit t n = .ok (is, n')) :
    ∃ r m, t.ctx.resolutions.find? site.id = some r ∧ t.ctx.members.find? site.id = some m ∧
      is = t.address r ++ [.plain .loadWord] ++ Target.loadAt m.offset ∧ n' = n := by
  simp only [emit, emit_bind_eq_ok, Target.resolution_eq_ok, Target.memberOffset_eq_ok, emit_pure,
    Except.ok.injEq, Prod.mk.injEq] at h
  obtain ⟨r, _, ⟨hr, rfl⟩, offset, _, ⟨⟨m, hm, rfl⟩, rfl⟩, rfl, rfl⟩ := h
  exact ⟨r, m, hr, hm, rfl, rfl⟩

theorem emit_invoke_eq_ok {x f : String} {args : List Expr}
    (h : (invoke site x f args).emit t n = .ok (is, n')) :
    ∃ r m values, t.ctx.resolutions.find? site.id = some r ∧
      t.ctx.members.find? site.id = some m ∧ emitBackwards t args n = .ok (values, n') ∧
      is = [.plain .loadFp] ++ values ++ t.callMethod r m.offset := by
  simp only [emit, emit_bind_eq_ok, Target.resolution_eq_ok, Target.memberOffset_eq_ok, emit_pure,
    Except.ok.injEq, Prod.mk.injEq] at h
  obtain ⟨r, _, ⟨hr, rfl⟩, offset, _, ⟨⟨m, hm, rfl⟩, rfl⟩, values, _, hargs, rfl, rfl⟩ := h
  exact ⟨r, m, values, hr, hm, hargs, rfl⟩

theorem emit_new_eq_ok {c : String} {args : List Expr}
    (h : (new site c args).emit t n = .ok (is, n')) :
    ∃ r values, t.ctx.resolutions.find? site.id = some r ∧
      emitAll t args n = .ok (values, n') ∧ is = values ++ t.construct r args.length := by
  simp only [emit, emit_bind_eq_ok, Target.resolution_eq_ok, emit_pure, Except.ok.injEq,
    Prod.mk.injEq] at h
  obtain ⟨r, _, ⟨hr, rfl⟩, values, _, hargs, rfl, rfl⟩ := h
  exact ⟨r, values, hr, hargs, rfl⟩

theorem emitAll_cons_eq_ok {e : Expr} {es : List Expr}
    (h : emitAll t (e :: es) n = .ok (is, n')) :
    ∃ first n₁ rest, e.emit t n = .ok (first, n₁) ∧ emitAll t es n₁ = .ok (rest, n') ∧
      is = first ++ rest := by
  simp only [emitAll, emit_bind_eq_ok, emit_pure, Except.ok.injEq, Prod.mk.injEq] at h
  obtain ⟨first, n₁, he, rest, n₂, hes, rfl, rfl⟩ := h
  exact ⟨first, n₁, rest, he, hes, rfl⟩

theorem emitBackwards_cons_eq_ok {e : Expr} {es : List Expr}
    (h : emitBackwards t (e :: es) n = .ok (is, n')) :
    ∃ rest n₁ first, emitBackwards t es n = .ok (rest, n₁) ∧ e.emit t n₁ = .ok (first, n') ∧
      is = rest ++ first := by
  simp only [emitBackwards, emit_bind_eq_ok, emit_pure, Except.ok.injEq, Prod.mk.injEq] at h
  obtain ⟨rest, n₁, hes, first, n₂, he, rfl, rfl⟩ := h
  exact ⟨rest, n₁, first, hes, he, rfl⟩

end Expr

/-! ### How code is put together -/

/-- The instructions that have nothing to do with labels and do not end the program. -/
def Instr.isStraight : Instr → Bool
  | .push _ => true
  | .plain op => op ≠ .halt
  | _ => false

section Straight

theorem all_isStraight_frame (t : Target) (r : Resolution) :
    (t.frame r).all Instr.isStraight = true := by
  rw [Target.frame]
  split
  · rfl
  · simp [Instr.isStraight]

theorem all_isStraight_address (t : Target) (r : Resolution) :
    (t.address r).all Instr.isStraight = true := by
  rw [Target.address]
  split
  · rfl
  · rw [List.all_append, all_isStraight_frame]
    rfl

theorem all_isStraight_callNamed (t : Target) (r : Resolution) :
    (t.callNamed r).all Instr.isStraight = true := by
  rw [Target.callNamed]
  simp only [List.all_append, all_isStraight_frame]
  split <;> rfl

theorem all_isStraight_callMethod (t : Target) (r : Resolution) (offset : Int) :
    (t.callMethod r offset).all Instr.isStraight = true := by
  simp only [Target.callMethod, List.all_append, all_isStraight_address]
  rfl

theorem all_isStraight_construct (t : Target) (r : Resolution) (fields : Nat) :
    (t.construct r fields).all Instr.isStraight = true := by
  simp only [Target.construct, List.all_append, all_isStraight_address, List.all_flatten]
  simp [storeOnHeap, bumpHeap, Instr.isStraight]

theorem Instr.isPlain_of_isStraight {i : Instr} (h : i.isStraight = true) : i.isPlain = true := by
  cases i with
  | push v => rfl
  | plain op => rfl
  | _ => cases h

end Straight

/-- How the code of expressions is put together, and what labels it takes: the counter is at the
first number before and at the second one after.  A test takes two new labels, one for the way that
it may jump and one for where both ways meet again. -/
inductive Woven : Nat → Nat → List Instr → Prop
  /-- Straight code takes no labels. -/
  | straight {n : Nat} {is : List Instr} (h : is.all Instr.isStraight = true) : Woven n n is
  /-- One piece after the other. -/
  | append {n n' n'' : Nat} {is js : List Instr} (h : Woven n n' is) (h' : Woven n' n'' js) :
      Woven n n'' (is ++ js)
  /-- A comparison of the values on the stack. -/
  | compare {n n' : Nat} {operands : List Instr} (j : Jump) (h : Woven (n + 2) n' operands) :
      Woven n n' (operands ++ [.jump j ⟨.branch, n⟩]
        ++ select ⟨.branch, n⟩ ⟨.branch, n + 1⟩ 0 1)
  /-- Two operands, of which each may be decisive. -/
  | logic {n n' n'' : Nat} {left right : List Instr} (v : Int32) (hl : Woven (n + 2) n' left)
      (hr : Woven n' n'' right) :
      Woven n n'' (left ++ [.push v, .jump .ifEq ⟨.branch, n⟩]
        ++ right ++ [.push v, .jump .ifEq ⟨.branch, n⟩]
        ++ select ⟨.branch, n⟩ ⟨.branch, n + 1⟩ (1 - v) v)
  /-- A condition and what is evaluated if it fails and if it holds. -/
  | cond {n n₁ n₂ n₃ : Nat} {condition otherwise consequent : List Instr}
      (hc : Woven (n + 2) n₁ condition) (hb : Woven n₁ n₂ otherwise)
      (ha : Woven n₂ n₃ consequent) :
      Woven n n₃ (condition ++ [.push 1, .jump .ifEq ⟨.branch, n⟩] ++ otherwise
        ++ [.jump .always ⟨.branch, n + 1⟩, .mark ⟨.branch, n⟩] ++ consequent
        ++ [.mark ⟨.branch, n + 1⟩])

mutual

/-- The code of an expression is woven, by one case for each kind of expression. -/
theorem Expr.woven_emit {t : Target} :
    ∀ (e : Expr) {n n' : Nat} {is : List Instr}, e.emit t n = .ok (is, n') → Woven n n' is
  | .int _ _, n, n', is, h | .bool _ _, n, n', is, h | .null _, n, n', is, h => by
    rw [Expr.emit] at h
    cases h
    exact .straight rfl
  | .arith _ op l r, n, n', is, h => by
    obtain ⟨left, n₁, right, hl, hr, rfl⟩ := Expr.emit_arith_eq_ok h
    exact ((Expr.woven_emit l hl).append (Expr.woven_emit r hr)).append
      (.straight (by cases op <;> rfl))
  | .compare _ op l r, n, n', is, h => by
    obtain ⟨first, n₁, second, h₁, h₂, rfl⟩ := Expr.emit_compare_eq_ok h
    have hl := @Expr.woven_emit t l
    have hr := @Expr.woven_emit t r
    -- Which operand comes first does not matter here.
    refine .compare _ ?_
    cases op with
    | ge => exact (hr h₁).append (hl h₂)
    | eq | le => exact (hl h₁).append (hr h₂)
  | .logic _ op l r, n, n', is, h => by
    obtain ⟨left, n₁, right, hl, hr, rfl⟩ := Expr.emit_logic_eq_ok h
    exact .logic _ (Expr.woven_emit l hl) (Expr.woven_emit r hr)
  | .not _ e, n, n', is, h => by
    obtain ⟨operand, he, rfl⟩ := Expr.emit_not_eq_ok h
    exact ((Woven.straight rfl).append (Expr.woven_emit e he)).append (.straight rfl)
  | .cond _ c a b, n, n', is, h => by
    obtain ⟨condition, n₁, otherwise, n₂, consequent, hc, hb, ha, rfl⟩ := Expr.emit_cond_eq_ok h
    exact .cond (Expr.woven_emit c hc) (Expr.woven_emit b hb) (Expr.woven_emit a ha)
  | .print _ e, n, n', is, h => by
    obtain ⟨argument, he, rfl⟩ := Expr.emit_print_eq_ok h
    exact ((Expr.woven_emit e he).append (.straight rfl)).append (.straight rfl)
  | .ident _ _, n, n', is, h => by
    obtain ⟨r, -, rfl, rfl⟩ := Expr.emit_ident_eq_ok h
    exact (Woven.straight (all_isStraight_address t r)).append (.straight rfl)
  | .call _ _ args, n, n', is, h => by
    obtain ⟨r, values, -, hargs, rfl⟩ := Expr.emit_call_eq_ok h
    exact ((Woven.straight rfl).append (Expr.woven_emitBackwards args hargs)).append
      (.straight (all_isStraight_callNamed t r))
  | .field _ _ _, n, n', is, h => by
    obtain ⟨r, m, -, -, rfl, rfl⟩ := Expr.emit_field_eq_ok h
    exact ((Woven.straight (all_isStraight_address t r)).append (.straight rfl)).append
      (.straight rfl)
  | .invoke _ _ _ args, n, n', is, h => by
    obtain ⟨r, m, values, -, -, hargs, rfl⟩ := Expr.emit_invoke_eq_ok h
    exact ((Woven.straight rfl).append (Expr.woven_emitBackwards args hargs)).append
      (.straight (all_isStraight_callMethod t r m.offset))
  | .new _ _ args, n, n', is, h => by
    obtain ⟨r, values, -, hargs, rfl⟩ := Expr.emit_new_eq_ok h
    exact (Expr.woven_emitAll args hargs).append (.straight (all_isStraight_construct t r _))
termination_by structural e => e

theorem Expr.woven_emitAll {t : Target} :
    ∀ (es : List Expr) {n n' : Nat} {is : List Instr},
      Expr.emitAll t es n = .ok (is, n') → Woven n n' is
  | [], n, n', is, h => by
    rw [Expr.emitAll] at h
    cases h
    exact .straight rfl
  | e :: es, n, n', is, h => by
    obtain ⟨first, n₁, rest, he, hes, rfl⟩ := Expr.emitAll_cons_eq_ok h
    exact (Expr.woven_emit e he).append (Expr.woven_emitAll es hes)
termination_by structural es => es

theorem Expr.woven_emitBackwards {t : Target} :
    ∀ (es : List Expr) {n n' : Nat} {is : List Instr},
      Expr.emitBackwards t es n = .ok (is, n') → Woven n n' is
  | [], n, n', is, h => by
    rw [Expr.emitBackwards] at h
    cases h
    exact .straight rfl
  | e :: es, n, n', is, h => by
    obtain ⟨rest, n₁, first, hes, he, rfl⟩ := Expr.emitBackwards_cons_eq_ok h
    exact (Expr.woven_emitBackwards es hes).append (Expr.woven_emit e he)
termination_by structural es => es

end

namespace Numbered

variable {n n' : Nat} {operands left right condition otherwise consequent : List Instr}

theorem compare (j : Jump) (h : Numbered (n + 2) n' operands) :
    Numbered n n' (operands ++ [.jump j ⟨.branch, n⟩]
      ++ select ⟨.branch, n⟩ ⟨.branch, n + 1⟩ 0 1) := by
  refine h.branch (fun k ↦ ?_) (fun l hl ↦ ?_) fun l hl ↦ ?_
  · simp [numbers, select, marks, List.count_cons]
  · simp only [marks_append, List.mem_append]
    exact .inl (.inl hl)
  · simp only [references_append, List.mem_append] at hl ⊢
    rcases hl with (hl | hl) | hl
    · exact .inl hl
    · exact .inr (by simp_all [ObjectLet.references, Instr.target?, select, marks])
    · exact .inr (by simp_all [ObjectLet.references, Instr.target?, select, marks])

theorem logic (v : Int32) (h : Numbered (n + 2) n' (left ++ right)) :
    Numbered n n' (left ++ [.push v, .jump .ifEq ⟨.branch, n⟩]
      ++ right ++ [.push v, .jump .ifEq ⟨.branch, n⟩]
      ++ select ⟨.branch, n⟩ ⟨.branch, n + 1⟩ (1 - v) v) := by
  refine h.branch (fun k ↦ ?_) (fun l hl ↦ ?_) fun l hl ↦ ?_
  · simp [numbers, select, marks, List.count_cons]
    omega
  · simp only [marks_append, List.mem_append] at hl ⊢
    exact hl.elim (fun h ↦ .inl (.inl (.inl (.inl h)))) fun h ↦ .inl (.inl (.inr h))
  · simp only [references_append, List.mem_append] at hl ⊢
    rcases hl with (((hl | hl) | hl) | hl) | hl
    · exact .inl (.inl hl)
    · exact .inr (by simp_all [ObjectLet.references, Instr.target?, select, marks])
    · exact .inl (.inr hl)
    · exact .inr (by simp_all [ObjectLet.references, Instr.target?, select, marks])
    · exact .inr (by simp_all [ObjectLet.references, Instr.target?, select, marks])

theorem cond (h : Numbered (n + 2) n' (condition ++ otherwise ++ consequent)) :
    Numbered n n' (condition ++ [.push 1, .jump .ifEq ⟨.branch, n⟩] ++ otherwise
      ++ [.jump .always ⟨.branch, n + 1⟩, .mark ⟨.branch, n⟩] ++ consequent
      ++ [.mark ⟨.branch, n + 1⟩]) := by
  refine h.branch (fun k ↦ ?_) (fun l hl ↦ ?_) fun l hl ↦ ?_
  · simp [numbers, marks, List.count_cons]
    omega
  · simp only [marks_append, List.mem_append] at hl ⊢
    rcases hl with (hl | hl) | hl
    · exact .inl (.inl (.inl (.inl (.inl hl))))
    · exact .inl (.inl (.inl (.inr hl)))
    · exact .inl (.inr hl)
  · simp only [references_append, List.mem_append] at hl ⊢
    rcases hl with ((((hl | hl) | hl) | hl) | hl) | hl
    · exact .inl (.inl (.inl hl))
    · exact .inr (by simp_all [ObjectLet.references, Instr.target?, marks])
    · exact .inl (.inl (.inr hl))
    · exact .inr (by simp_all [ObjectLet.references, Instr.target?, marks])
    · exact .inl (.inr hl)
    · exact .inr (by simp_all [ObjectLet.references, Instr.target?])

end Numbered

theorem Woven.numbered {n n' : Nat} {is : List Instr} (h : Woven n n' is) : Numbered n n' is := by
  induction h with
  | straight h => exact .plain (List.all_eq_true.2 fun i hi ↦
      Instr.isPlain_of_isStraight (List.all_eq_true.1 h i hi))
  | append _ _ ih ih' => exact ih.append ih'
  | compare j _ ih => exact ih.compare j
  | logic v _ _ ihl ihr => exact (ihl.append ihr).logic v
  | cond _ _ _ ihc ihb iha => exact ((ihc.append ihb).append iha).cond

/-- **The code of an expression** marks new labels only, and refers to no others.  This follows from
how its pieces are put together. -/
theorem Expr.numbered_emit {t : Target} (e : Expr) {n n' : Nat} {is : List Instr}
    (h : e.emit t n = .ok (is, n')) : Numbered n n' is :=
  (e.woven_emit h).numbered

/-! ## Declarations -/

/-- Everything that the functions and dispatch tables collected so far refer to has been emitted.  A
function that is still being emitted is not among them. -/
structure Emission.Closed (s : Emission) : Prop where
  /-- What functions refer to. -/
  functions : ∀ l ∈ references s.functions, l ∈ marks s.functions
  /-- What dispatch tables list. -/
  dispatch : ∀ c table, s.dispatch.find? c = some table → ∀ l ∈ table, l ∈ marks s.functions

/-- The code `is` and the functions collected between two states mark only labels that are new
then, or among `given`, and all references are to labels that are marked. -/
structure Emission.Adds (s s' : Emission) (given : List Nat) (is : List Instr) : Prop where
  /-- Functions are only added. -/
  functions : ∃ added, s'.functions = s.functions ++ added ∧
    ∀ k, (numbers is).count k + (numbers added).count k
      ≤ given.count k + if s.nextLabel ≤ k ∧ k < s'.nextLabel then 1 else 0
  /-- The counter goes up. -/
  le : s.nextLabel ≤ s'.nextLabel
  /-- What the code refers to is marked in it or in the functions. -/
  references : ∀ l ∈ references is, l ∈ marks is ∨ l ∈ marks s'.functions
  /-- The functions and dispatch tables refer to functions only. -/
  closed : s'.Closed

namespace Emission.Adds

variable {s s' s'' : Emission} {given given' : List Nat} {is js : List Instr}

theorem marks_subset (h : s.Adds s' given is) :
    ∀ l ∈ marks s.functions, l ∈ marks s'.functions := by
  obtain ⟨added, ha, -⟩ := h.functions
  intro l hl
  rw [ha, marks_append, List.mem_append]
  exact .inl hl

/-- Code that only uses the counter, as that of an expression does. -/
theorem ofNumbered {n : Nat} (hs : s.Closed) (h : Numbered s.nextLabel n is) :
    s.Adds { s with nextLabel := n } [] is :=
  ⟨⟨[], by simp, by simpa using h.count⟩, h.le, fun l hl ↦ .inl (h.references l hl),
    ⟨hs.functions, hs.dispatch⟩⟩

theorem append (h : s.Adds s' given is) (h' : s'.Adds s'' given' js) :
    s.Adds s'' (given ++ given') (is ++ js) := by
  obtain ⟨added, ha, hcount⟩ := h.functions
  obtain ⟨added', ha', hcount'⟩ := h'.functions
  have hle := h.le
  have hle' := h'.le
  refine ⟨⟨added ++ added', by rw [ha', ha, List.append_assoc], fun k ↦ ?_⟩, by omega,
    fun l hl ↦ ?_, h'.closed⟩
  · have hk := hcount k
    have hk' := hcount' k
    simp only [numbers_append, List.count_append]
    split at hk <;> split at hk' <;> split <;> omega
  · rw [references_append, List.mem_append] at hl
    rw [marks_append, List.mem_append]
    rcases hl with hl | hl
    · exact (h.references l hl).imp .inl (h'.marks_subset l)
    · exact (h'.references l hl).imp .inr id

end Emission.Adds

/-- A piece of code that marks nothing and refers to nothing. -/
theorem Emission.Adds.nil {s : Emission} (hs : s.Closed) : s.Adds s [] [] :=
  ⟨⟨[], by simp, by simp⟩, Nat.le_refl _, nofun, hs⟩

theorem labels_epilogue (locals params : Nat) :
    marks (epilogue locals params) = [] ∧ references (epilogue locals params) = [] := by
  refine labels_of_isPlain ?_
  simp [epilogue, Instr.isPlain]

theorem references_buildDispatch (table : List Label) :
    marks (buildDispatch table) = [] ∧ references (buildDispatch table) = table := by
  rw [buildDispatch]
  induction table with
  | nil => exact ⟨rfl, rfl⟩
  | cons l table ih =>
    obtain ⟨hm, hr⟩ := ih
    simp only [marks, references, List.flatMap_cons, List.filterMap_cons, storeOnHeap, bumpHeap,
      List.cons_append, List.nil_append, Instr.target?] at hm hr ⊢
    exact ⟨hm, congrArg (l :: ·) hr⟩

/-- A function with a given entry marks the entry and new labels, and refers to labels that are
marked. -/
theorem Emission.Adds.function {s s₁ : Emission} {entry : Label} {declared result : List Instr}
    {n : Nat} {locals params : Nat} (h : s.Adds s₁ [] declared)
    (hresult : Numbered s₁.nextLabel n result) :
    s.Adds { s₁ with
        nextLabel := n,
        functions := s₁.functions
          ++ (prologue entry ++ declared ++ result ++ epilogue locals params) }
      [entry.number] [] := by
  obtain ⟨added, ha, hcount⟩ := h.functions
  obtain ⟨hme, hre⟩ := labels_epilogue locals params
  have hle := h.le
  have hle' := hresult.le
  have hmarks : marks (prologue entry ++ declared ++ result ++ epilogue locals params)
      = entry :: (marks declared ++ marks result) := by
    simp [prologue, marks, hme]
  have hrefs : ∀ l ∈ ObjectLet.references
      (prologue entry ++ declared ++ result ++ epilogue locals params),
      l ∈ marks declared ++ marks result ∨ l ∈ marks s₁.functions := by
    intro l hl
    simp only [references_append, hre, List.append_nil, List.mem_append] at hl
    rcases hl with (hl | hl) | hl
    · simp [prologue, ObjectLet.references, Instr.target?] at hl
    · exact (h.references l hl).imp (fun h ↦ List.mem_append.2 (.inl h)) id
    · exact .inl (List.mem_append.2 (.inr (hresult.references l hl)))
  refine ⟨⟨added ++ (prologue entry ++ declared ++ result ++ epilogue locals params),
    by simp [ha], fun k ↦ ?_⟩, by simp only; omega, fun l hl ↦ absurd hl List.not_mem_nil,
    ⟨fun l hl ↦ ?_, fun c table ht l hl ↦ ?_⟩⟩
  · have hk := hcount k
    have hk' := hresult.count k
    simp only [numbers, List.map_append, marks_append] at hk hk' ⊢
    simp only [prologue, marks, hme, List.map_cons, List.map_nil, List.count_append,
      List.count_cons, List.count_nil, List.append_nil] at hk hk' ⊢
    repeat' split at *
    all_goals omega
  · rw [references_append, List.mem_append] at hl
    rw [marks_append, List.mem_append, hmarks, List.mem_cons]
    rcases hl with hl | hl
    · exact .inl (h.closed.functions l hl)
    · exact (hrefs l hl).symm.imp id .inr
  · rw [marks_append, List.mem_append]
    exact .inl (h.closed.dispatch c table ht l hl)

theorem mem_of_placeEntry? {table table' : List Label} {offset : Int} {entry : Label}
    (h : placeEntry? table offset entry = some table') : ∀ l ∈ table', l = entry ∨ l ∈ table := by
  intro l hl
  rw [ placeEntry?] at h
  split at h
  · cases h
  · split at h
    · obtain rfl := Option.some.inj h
      exact (List.mem_or_eq_of_mem_set hl).symm
    · split at h
      · obtain rfl := Option.some.inj h
        exact (List.mem_append.1 hl).symm.imp List.mem_singleton.1 id
      · cases h

@[simp] theorem Target.methodOffset_eq_ok {t : Target} {site : Site} {x : String} {s s' : Emission}
    {offset : Int} :
    t.methodOffset site x s = .ok offset s' ↔
      (∃ e, t.ctx.layouts.find? site.id = some e ∧ 0 ≤ e.offset ∧ e.offset = offset) ∧ s' = s := by
  simp only [methodOffset]
  cases t.ctx.layouts.find? site.id with
  | none => simp
  | some e =>
    by_cases h : 0 ≤ e.offset
    · simp [h, eq_comm]
    · simp [h]

/-- One more method is emitted: its function, and its entry where it has been noted. -/
theorem FunDecl.emitMethods_cons_eq_ok {t : Target} {f : FunDecl} {fs : List FunDecl}
    {table table' : List Label} {s s' : Emission} :
    FunDecl.emitMethods t table (f :: fs) s = .ok table' s' ↔
      ∃ e s₁ placed, t.ctx.layouts.find? f.site.id = some e ∧ 0 ≤ e.offset ∧
        f.emit t ⟨.method, s.nextLabel⟩ { s with nextLabel := s.nextLabel + 1 } = .ok () s₁ ∧
        placeEntry? table e.offset ⟨.method, s.nextLabel⟩ = some placed ∧
        FunDecl.emitMethods t placed fs s₁ = .ok table' s' := by
  simp only [FunDecl.emitMethods, emitter_bind_eq_ok, Target.methodOffset_eq_ok,
    emitter_labels_eq_ok, emit_fresh, Except.ok.injEq, Prod.mk.injEq]
  constructor
  · rintro ⟨_, s₀, ⟨⟨e, he, hpos, rfl⟩, hs₀⟩, _, _, ⟨_, ⟨rfl, rfl⟩, rfl⟩, ⟨⟩, s₁, hf, h⟩
    subst s₀
    cases hp : placeEntry? table e.offset ⟨.method, s.nextLabel⟩ with
    | none => rw [hp] at h; cases h
    | some placed => exact ⟨e, s₁, placed, he, hpos, hf, hp, by rwa [hp] at h⟩
  · rintro ⟨e, s₁, placed, he, hpos, hf, hp, h⟩
    exact ⟨e.offset, s, ⟨⟨e, he, hpos, rfl⟩, rfl⟩, _, _, ⟨_, ⟨rfl, rfl⟩, rfl⟩, (), s₁, hf, by
      rw [hp]
      exact h⟩

/-- The parts of the code of a function. -/
theorem FunDecl.emit_eq_ok {t : Target} {f : FunDecl} {entry : Label} {s s' : Emission} {u : Unit}
    (h : f.emit t entry s = .ok u s') :
    ∃ declared s₁ result n,
      Decl.emitAll t f.locals { s with log := s.log ++ [.emittingFunction f.name entry] }
        = .ok declared s₁ ∧
      f.body.emit t s₁.nextLabel = .ok (result, n) ∧
      s' = { s₁ with
        nextLabel := n
        functions := s₁.functions ++ (prologue entry ++ declared ++ result
          ++ epilogue f.locals.length f.params.length) } := by
  obtain ⟨site, name, ret, params, locals, body⟩ := f
  simp only [FunDecl.emit, emitter_bind_eq_ok, emitter_labels_eq_ok, emitter_note,
    emitter_addFunction, EStateM.Result.ok.injEq] at h
  obtain ⟨⟨⟩, _, ⟨-, rfl⟩, declared, s₁, hd, result, _, ⟨n, hr, rfl⟩, -, rfl⟩ := h
  exact ⟨declared, s₁, result, n, hd, hr, rfl⟩

/-- A function is emitted under a label of its own, which its declaration pushes. -/
theorem Decl.emit_func_eq_ok {t : Target} {f : FunDecl} {s s' : Emission} {is : List Instr} :
    (Decl.func f).emit t s = .ok is s' ↔
      f.emit t ⟨.function, s.nextLabel⟩ { s with nextLabel := s.nextLabel + 1 } = .ok () s' ∧
        is = [.pushLabel ⟨.function, s.nextLabel⟩] := by
  simp only [Decl.emit, emitter_bind_eq_ok, emitter_labels_eq_ok, emit_fresh, emitter_pure,
    Except.ok.injEq, Prod.mk.injEq, EStateM.Result.ok.injEq]
  constructor
  · rintro ⟨_, _, ⟨_, ⟨rfl, rfl⟩, rfl⟩, ⟨⟩, _, hf, rfl, rfl⟩
    exact ⟨hf, rfl⟩
  · rintro ⟨hf, rfl⟩
    exact ⟨_, _, ⟨_, ⟨rfl, rfl⟩, rfl⟩, (), s', hf, rfl, rfl⟩

/-- Declarations are emitted one after the other, each with what the ones before it have left. -/
theorem Decl.emitAll_cons_eq_ok {t : Target} {d : Decl} {ds : List Decl} {s s' : Emission}
    {is : List Instr} :
    Decl.emitAll t (d :: ds) s = .ok is s' ↔ ∃ first s₁ rest, d.emit t s = .ok first s₁ ∧
      Decl.emitAll t ds s₁ = .ok rest s' ∧ is = first ++ rest := by
  simp only [Decl.emitAll, emitter_bind_eq_ok, emitter_pure, EStateM.Result.ok.injEq]
  constructor
  · rintro ⟨first, s₁, hd, rest, _, hds, rfl, rfl⟩
    exact ⟨first, s₁, rest, hd, hds, rfl⟩
  · rintro ⟨first, s₁, rest, hd, hds, rfl⟩
    exact ⟨first, s₁, hd, rest, s', hds, rfl, rfl⟩

/-- The dispatch table of a class, and the code that builds it. -/
theorem ClassDecl.emit_eq_ok {t : Target} {c : ClassDecl} {s s' : Emission} {is : List Instr}
    (h : c.emit t s = .ok is s') :
    ∃ inherited table s₁, t.inheritedDispatch c.name s = .ok inherited s ∧
      inherited = ((t.ctx.classes.superclass? c.name).bind s.dispatch.find?).getD [] ∧
      FunDecl.emitMethods t inherited c.methods s = .ok table s₁ ∧ is = buildDispatch table ∧
      s' = { s₁ with
        log := s₁.log ++ [.dispatchTable c.name table.length]
        dispatch := s₁.dispatch.insert c.name table } := by
  obtain ⟨site, name, superclass, fields, methods⟩ := c
  rw [ClassDecl.emit, emitter_bind_eq_ok] at h
  obtain ⟨_, _, hu, h⟩ := h
  cases hu
  rw [emitter_bind_eq_ok] at h
  obtain ⟨table, s₁, hm, h⟩ := h
  cases h
  exact ⟨_, table, s₁, rfl, rfl, hm, rfl, rfl⟩

mutual

theorem Decl.adds_emit {t : Target} :
    ∀ (d : Decl) {s s' : Emission} {is : List Instr}, s.Closed → d.emit t s = .ok is s' →
      s.Adds s' [] is
  | .var _ _ _ e, s, s', is, hs, h => by
    rw [Decl.emit, emitter_labels_eq_ok] at h
    obtain ⟨n, he, rfl⟩ := h
    exact .ofNumbered hs (Expr.numbered_emit e he)
  | .func f, s, s', is, hs, h => by
    obtain ⟨hf, rfl⟩ := Decl.emit_func_eq_ok.1 h
    obtain ⟨hmem, hadds⟩ := FunDecl.adds_emit f
      (s := { s with nextLabel := s.nextLabel + 1 }) ⟨hs.functions, hs.dispatch⟩ hf
    obtain ⟨added, ha, hcount⟩ := hadds.functions
    have hle := hadds.le
    refine ⟨⟨added, ha, fun k ↦ ?_⟩, by simp only at hle; omega, fun l hl ↦ ?_, hadds.closed⟩
    · have hk := hcount k
      simp only [numbers, marks, List.map_nil, List.count_cons, List.count_nil,
        beq_iff_eq] at hk hle ⊢
      repeat' split at *
      all_goals omega
    · obtain rfl : ⟨.function, s.nextLabel⟩ = l := by
        simpa [references, Instr.target?, eq_comm] using hl
      exact .inr hmem
  | .cls c, s, s', is, hs, h => ClassDecl.adds_emit c hs h
termination_by structural d => d

theorem FunDecl.adds_emit {t : Target} {entry : Label} :
    ∀ (f : FunDecl) {s s' : Emission} {u : Unit}, s.Closed → f.emit t entry s = .ok u s' →
      entry ∈ marks s'.functions ∧ s.Adds s' [entry.number] []
  | ⟨_, name, _, params, locals, body⟩, s, s', u, hs, h => by
    obtain ⟨declared, s₁, result, n, hd, hr, rfl⟩ := FunDecl.emit_eq_ok h
    have hadds := Decl.adds_emitAll locals
      (s := { s with log := s.log ++ [.emittingFunction name entry] })
      ⟨hs.functions, hs.dispatch⟩ hd
    obtain ⟨added, ha, hcount⟩ := hadds.functions
    have hdeclared : s.Adds s₁ [] declared :=
      ⟨⟨added, ha, hcount⟩, hadds.le, hadds.references, hadds.closed⟩
    refine ⟨by simp [prologue, marks], ?_⟩
    exact hdeclared.function (Expr.numbered_emit body hr)
termination_by structural f => f

theorem ClassDecl.adds_emit {t : Target} :
    ∀ (c : ClassDecl) {s s' : Emission} {is : List Instr}, s.Closed → c.emit t s = .ok is s' →
      s.Adds s' [] is
  | ⟨_, name, _, _, methods⟩, s, s', is, hs, h => by
    obtain ⟨_, table, s₁, -, rfl, hm, rfl, rfl⟩ := ClassDecl.emit_eq_ok h
    have hinherited : ∀ l ∈ ((t.ctx.classes.superclass? name).bind s.dispatch.find?).getD [],
        l ∈ marks s.functions := by
      intro l hl
      cases hsup : t.ctx.classes.superclass? name with
      | none => simp [hsup] at hl
      | some c =>
        cases hd : s.dispatch.find? c with
        | none => simp [hsup, hd] at hl
        | some table => exact hs.dispatch c table hd l (by simpa [hsup, hd] using hl)
    obtain ⟨htable, hadds⟩ := FunDecl.adds_emitMethods methods hs hinherited hm
    obtain ⟨hmarks, hrefs⟩ := references_buildDispatch table
    obtain ⟨added, ha, hcount⟩ := hadds.functions
    refine ⟨⟨added, ha, fun k ↦ ?_⟩, hadds.le, fun l hl ↦ ?_,
      ⟨hadds.closed.functions, fun c table' hc ↦ ?_⟩⟩
    · rw [numbers, hmarks]
      exact hcount k
    · exact .inr (htable l (hrefs ▸ hl))
    · rw [Table.find?_insert] at hc
      split at hc
      · exact Option.some.inj hc ▸ htable
      · exact hadds.closed.dispatch c table' hc
termination_by structural c => c

theorem Decl.adds_emitAll {t : Target} :
    ∀ (ds : List Decl) {s s' : Emission} {is : List Instr}, s.Closed →
      Decl.emitAll t ds s = .ok is s' → s.Adds s' [] is
  | [], s, s', is, hs, h => by
    rw [Decl.emitAll, emitter_pure] at h
    cases h
    exact .nil hs
  | d :: ds, s, s', is, hs, h => by
    obtain ⟨first, s₁, rest, hd, hds, rfl⟩ := Decl.emitAll_cons_eq_ok.1 h
    have hfirst := Decl.adds_emit d hs hd
    exact hfirst.append (Decl.adds_emitAll ds hfirst.closed hds)
termination_by structural ds => ds

theorem FunDecl.adds_emitMethods {t : Target} :
    ∀ (fs : List FunDecl) {table table' : List Label} {s s' : Emission}, s.Closed →
      (∀ l ∈ table, l ∈ marks s.functions) →
      FunDecl.emitMethods t table fs s = .ok table' s' →
      (∀ l ∈ table', l ∈ marks s'.functions) ∧ s.Adds s' [] []
  | [], table, table', s, s', hs, ht, h => by
    rw [FunDecl.emitMethods, emitter_pure] at h
    cases h
    exact ⟨ht, .nil hs⟩
  | f :: fs, table, table', s, s', hs, ht, h => by
    obtain ⟨e, s₁, placed, -, -, hf, hp, h⟩ := FunDecl.emitMethods_cons_eq_ok.1 h
    obtain ⟨hmem, hadds⟩ := FunDecl.adds_emit f
      (s := { s with nextLabel := s.nextLabel + 1 }) ⟨hs.functions, hs.dispatch⟩ hf
    obtain ⟨htable, hrest⟩ := FunDecl.adds_emitMethods fs hadds.closed (fun l hl ↦ by
      rcases mem_of_placeEntry? hp l hl with rfl | hl
      · exact hmem
      · exact hadds.marks_subset l (ht l hl)) h
    refine ⟨htable, ?_⟩
    obtain ⟨added, ha, hcount⟩ := hadds.functions
    obtain ⟨more, hmore, hcount'⟩ := hrest.functions
    have hle := hadds.le
    have hle' := hrest.le
    refine ⟨⟨added ++ more, by rw [hmore, ha, List.append_assoc], fun k ↦ ?_⟩,
      by simp only at hle; omega, nofun, hrest.closed⟩
    have hk := hcount k
    have hk' := hcount' k
    simp only [numbers_append, numbers_nil, List.count_append, List.count_cons,
      List.count_nil, beq_iff_eq] at hk hk' hle ⊢
    split at hk' <;> split <;> grind
termination_by structural fs => fs

end

/-! ## Programs -/

/-- Code that is generated for a program has been emitted for it. -/
theorem generate_eq_ok {t : Target} {p : Program} {code : List Instr}
    (h : (generate t p).1 = .ok code) : ∃ s, p.emit t {} = .ok code s := by
  rw [generate] at h
  split at h
  · cases hemit : p.emit t {} with
    | ok code' s =>
      rw [hemit] at h
      cases h
      exact ⟨s, rfl⟩
    | error e s =>
      rw [hemit] at h
      cases h
  · cases h

/-- The main code of a program with declarations. -/
theorem Program.emitMain_letIn_eq_ok {t : Target} {line : Nat} {ds : List Decl} {body : Expr}
    {s s' : Emission} {is : List Instr} (h : (letIn line ds body).emitMain t s = .ok is s') :
    ∃ declared s₁ result n, Decl.emitAll t ds s = .ok declared s₁ ∧
      body.emit t s₁.nextLabel = .ok (result, n) ∧
      is = [.push 0] ++ declared ++ result ++ [.plain .halt] ∧
      s' = { s₁ with nextLabel := n } := by
  simp only [Program.emitMain, emitter_bind_eq_ok, emitter_labels_eq_ok, emitter_pure,
    EStateM.Result.ok.injEq] at h
  obtain ⟨declared, s₁, hds, result, _, ⟨n, hr, rfl⟩, rfl, rfl⟩ := h
  exact ⟨declared, s₁, result, n, hds, hr, rfl, rfl⟩

/-- The main code of a bare expression. -/
theorem Program.emitMain_bare_eq_ok {t : Target} {body : Expr} {s s' : Emission} {is : List Instr}
    (h : (bare body).emitMain t s = .ok is s') :
    ∃ result n, body.emit t s.nextLabel = .ok (result, n) ∧ is = result ++ [.plain .halt] ∧
      s' = { s with nextLabel := n } := by
  simp only [Program.emitMain, emitter_bind_eq_ok, emitter_labels_eq_ok, emitter_pure,
    EStateM.Result.ok.injEq] at h
  obtain ⟨result, _, ⟨n, hr, rfl⟩, rfl, rfl⟩ := h
  exact ⟨result, n, hr, rfl, rfl⟩

/-- The functions of a program stand behind its main code. -/
theorem Program.emit_eq_ok {t : Target} {p : Program} {s s' : Emission} {code : List Instr}
    (h : p.emit t s = .ok code s') :
    ∃ main s₁, p.emitMain t s = .ok main s₁ ∧ code = main ++ s₁.functions ∧
      s' = { s₁ with
        log := s₁.log ++ [.codeGenerated main.length code.length s₁.dispatch.size] } := by
  simp only [Program.emit, emitter_bind_eq_ok, emitter_get, emitter_note, emitter_pure,
    EStateM.Result.ok.injEq] at h
  obtain ⟨main, s₁, hmain, _, _, ⟨rfl, rfl⟩, ⟨⟩, _, ⟨-, rfl⟩, rfl, rfl⟩ := h
  exact ⟨main, _, hmain, rfl, rfl⟩

/-- **Whatever code is emitted for a program can be assembled.** It marks each label once, and all
labels that it refers to. -/
theorem Program.assembles {t : Target} {p : Program} {code : List Instr} {s : Emission}
    (h : p.emit t {} = .ok code s) : ∃ b, assemble code = .ok b := by
  have hempty : ({} : Emission).Closed := ⟨nofun, nofun⟩
  obtain ⟨main, s₁, hmain, rfl, -⟩ := Program.emit_eq_ok h
  have hadds : ({} : Emission).Adds s₁ [] main := by
    cases p with
    | letIn line decls body =>
      obtain ⟨declared, s₂, result, n, hd, hr, rfl, rfl⟩ := Program.emitMain_letIn_eq_ok hmain
      have hpush : Numbered 0 0 [.push 0] := .plain rfl
      have hhalt : Numbered n n [.plain .halt] := .plain rfl
      have hdecls := Decl.adds_emitAll decls hempty hd
      have hresult := Emission.Adds.ofNumbered hdecls.closed
        ((Expr.numbered_emit body hr).append hhalt)
      have hstart := Emission.Adds.ofNumbered hempty hpush
      have hall := (hstart.append hdecls).append hresult
      rwa [← List.append_assoc] at hall
    | bare body =>
      obtain ⟨result, n, hr, rfl, rfl⟩ := Program.emitMain_bare_eq_ok hmain
      exact .ofNumbered hempty ((Expr.numbered_emit body hr).append (.plain rfl))
  obtain ⟨added, ha, hcount⟩ := hadds.functions
  have ha : s₁.functions = added := by simpa using ha
  refine ⟨⟨((main ++ s₁.functions).flatMap
    (Instr.encoded fun l ↦ addressOf l (main ++ s₁.functions))).toArray⟩,
    assemble_eq_ok_iff.2 ⟨?_, fun l hl ↦ ?_, rfl⟩⟩
  · refine List.Nodup.of_map Label.number (List.nodup_iff_count_le_one.2 fun k ↦ ?_)
    have hk := hcount k
    change (numbers (main ++ s₁.functions)).count k ≤ 1
    rw [numbers_append, List.count_append, ha]
    split at hk <;> simp at hk <;> omega
  · rw [marks_append, List.mem_append]
    rw [references_append, List.mem_append] at hl
    exact hl.elim (hadds.references l) fun hl ↦ .inr (hadds.closed.functions l hl)

end ObjectLet
