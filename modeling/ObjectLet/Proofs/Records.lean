import ObjectLet.Proofs.Bounds

/-!
# What instructions cannot see

The number of instructions and the output are a record of a run.  No instruction looks at this
record, and only `print` adds to it: with another record, every other instruction does the same and
leaves that record as it is (`Exec.Blind`).  So one statement says both, that the record does not
matter and that it does not change.

* `Exec.blind_execute`: **no instruction but `print` has to do with the record.**
* `Exec.execute_print`: what `print` does, with room for another line and without.
* `State.steps_turn`: **a turn after which the run goes on counts one instruction.**
-/

set_option autoImplicit false

namespace ObjectLet

/-- A state with another record of the run: the number of instructions and the output. -/
def State.withRecord (s : State) (n : Nat) (o : Output) : State :=
  { s with steps := n, output := o }

namespace Exec

variable {α β : Type} {x : Exec α} {s : State}

/-- Two results are the same, except that the one has been come to with another record. -/
abbrev SameBut (n : Nat) (o : Output) :
    EStateM.Result Fault State α → EStateM.Result Fault State α → Prop :=
  Follows (fun t u ↦ t = u.withRecord n o) Eq

/-- A computation does the same with every record, and leaves it as it is. -/
def Blind (x : Exec α) : Prop := ∀ s n o, SameBut n o (x (s.withRecord n o)) (x s)

/-! ## Computations without a record -/

theorem Blind.bind {f : α → Exec β} (hx : x.Blind) (hf : ∀ a, (f a).Blind) : (x >>= f).Blind :=
  fun s n o ↦ Follows.bind (hx s n o) fun a _ v _ huv ↦ huv ▸ hf a v n o

theorem blind_pure (a : α) : (pure a : Exec α).Blind := fun _ _ _ ↦ .ok rfl

theorem blind_throw (f : Fault) : (throw f : Exec α).Blind := fun _ _ _ ↦ .error rfl rfl

theorem Blind.modify {g : State → State} {k : Unit → Exec α}
    (hg : ∀ s n o, g (s.withRecord n o) = (g s).withRecord n o) (hk : (k ()).Blind) :
    (modify g >>= k).Blind := by
  intro s n o
  rw [modify_bind, modify_bind, hg]
  exact hk (g s) n o

theorem blind_push (v : Int32) : (push v).Blind := by
  intro s n o
  rw [push_apply, push_apply]
  by_cases hfull : (s.sp : Int) - 1 ≤ s.hp.toInt ∨ (s.sp : Int) - 1 < 0
  · rw [if_pos hfull, if_pos (by exact hfull)]
    exact .error rfl rfl
  · rw [if_neg hfull, if_neg (by exact hfull)]
    exact .ok rfl

theorem blind_pop (ip : Nat) : (pop ip).Blind := by
  intro s n o
  rw [pop_apply, pop_apply]
  by_cases hempty : s.memory.size ≤ s.sp
  · rw [if_pos hempty, if_pos (by exact hempty)]
    exact .error rfl rfl
  · rw [if_neg hempty, if_neg (by exact hempty)]
    exact .ok rfl

theorem blind_cell (a : Int32) (ip : Nat) : (cell a ip).Blind := by
  intro s n o
  rw [cell_apply, cell_apply]
  by_cases hcell : 0 ≤ a.toInt ∧ a.toInt < s.memory.size
  · rw [if_pos hcell, if_pos (by exact hcell)]
    exact .ok rfl
  · rw [if_neg hcell, if_neg (by exact hcell)]
    exact .error rfl rfl

theorem blind_jump (code : Array Int32) (target : Int32) (ip : Nat) :
    (jump code target ip).Blind := by
  intro s n o
  rw [jump_apply, jump_apply]
  split
  · exact .ok rfl
  · exact .error rfl rfl

theorem blind_operand (code : Array Int32) (ip : Nat) : (operand code ip).Blind := by
  intro s n o
  cases hw : code[s.ip]? with
  | none =>
    have hfault : ∀ t : State, code[t.ip]? = none →
        operand code ip t = .error (.truncatedInstruction ip) t := by
      intro t ht
      simp only [operand, get_bind, ht]
      rfl
    rw [hfault s hw, hfault (s.withRecord n o) hw]
    exact .error rfl rfl
  | some w =>
    have hw' : code[(s.withRecord n o).ip]? = some w := hw
    rw [Image.operand_eq hw, Image.operand_eq hw']
    exact .ok rfl

theorem blind_binary (ip : Nat) (op : Int32 → Int32 → Except Fault Int32) :
    (binary ip op).Blind := by
  refine (blind_pop ip).bind fun v1 ↦ (blind_pop ip).bind fun v2 ↦ ?_
  cases op v2 v1 with
  | ok v => exact blind_push v
  | error f => exact blind_throw f

/-- What is pushed is no part of the record. -/
theorem blind_load {f : State → Int32} (hf : ∀ s n o, f (s.withRecord n o) = f s) :
    (get >>= fun s ↦ push (f s) >>= fun _ ↦ pure Signal.next).Blind := by
  intro s n o
  rw [get_bind, get_bind, hf]
  exact (blind_push _).bind (fun _ ↦ blind_pure _) s n o

/-! ## Instructions -/

/-- **No operation but `print` has to do with the record.** It does the same whatever has been
counted and written. -/
theorem blind_operation (code : Array Int32) (ip : Nat) {op : Operation} (hop : op ≠ .print) :
    (operation code ip op).Blind := by
  have hpop := blind_pop ip
  have hnext : (pure Signal.next : Exec Signal).Blind := blind_pure _
  cases op with
  | pop => exact hpop.bind fun _ ↦ hnext
  | add | sub | mult | div => exact (blind_binary ip _).bind fun _ ↦ hnext
  | storeWord =>
    exact hpop.bind fun a ↦ hpop.bind fun v ↦ (blind_cell a ip).bind fun k ↦
      .modify (fun _ _ _ ↦ rfl) hnext
  | loadWord =>
    exact hpop.bind fun a ↦ (blind_cell a ip).bind fun k ↦ blind_load fun _ _ _ ↦ rfl
  | jumpSub =>
    exact hpop.bind fun a ↦ .modify (fun _ _ _ ↦ rfl) ((blind_jump code a ip).bind fun _ ↦ hnext)
  | loadRa | loadTm | loadFp | loadHp => exact blind_load fun _ _ _ ↦ rfl
  | storeRa | storeTm | storeFp | storeHp =>
    exact hpop.bind fun v ↦ .modify (fun _ _ _ ↦ rfl) hnext
  | copyFp => exact .modify (fun _ _ _ ↦ rfl) hnext
  | print => exact absurd rfl hop
  | halt => exact blind_pure _

theorem blind_jumpIf (code : Array Int32) (ip : Nat) (j : Jump) : (jumpIf code ip j).Blind := by
  have hpop := blind_pop ip
  have htest : ∀ (p : Prop) [Decidable p] (target : Int32),
      (if p then jump code target ip else pure () : Exec Unit).Blind := by
    intro p _ target
    split
    · exact blind_jump code target ip
    · exact blind_pure _
  refine (blind_operand code ip).bind fun target ↦ ?_
  cases j with
  | always => exact blind_jump code target ip
  | ifEq | ifLessEq => exact hpop.bind fun v1 ↦ hpop.bind fun v2 ↦ htest _ target

/-- **No instruction but `print` has to do with the record.** The number of instructions is
counted by the loop. -/
theorem blind_execute (code : Array Int32) {word : Int32}
    (hword : Opcode.ofWord? word ≠ some (.plain .print)) : (execute code word).Blind := by
  have hnext : (pure Signal.next : Exec Signal).Blind := blind_pure _
  intro s n o
  simp only [execute, get_bind]
  cases ho : Opcode.ofWord? word with
  | none => exact .error rfl rfl
  | some opcode =>
    simp only [modify_bind]
    cases opcode with
    | push =>
      exact ((blind_operand code s.ip).bind fun v ↦ (blind_push v).bind fun _ ↦ hnext)
        { s with ip := s.ip + 1 } n o
    | jump j => exact ((blind_jumpIf code s.ip j).bind fun _ ↦ hnext) { s with ip := s.ip + 1 } n o
    | plain op =>
      refine blind_operation code s.ip (fun hop ↦ hword ?_) { s with ip := s.ip + 1 } n o
      rw [ho, hop]

end Exec

/-! ## Printing -/

namespace State

variable {s : State}

/-- The line that a `print` writes: the value on the stack, or a note that there is none. -/
def shown (s : State) : Line :=
  if s.memory.size ≤ s.sp then .emptyStack else .value (s.memory.get s.sp)

/-- The state after a `print`, less the line that it writes.  The value is taken off the stack
before anything is written. -/
def pastPrint (s : State) : State :=
  { s with ip := s.ip + 1, sp := if s.memory.size ≤ s.sp then s.sp else s.sp + 1 }

end State

namespace Exec

variable {s : State} {code : Array Int32} {word : Int32}

theorem print_apply (ip : Nat) (s : State) :
    print ip s
      = write s.shown { s with sp := if s.memory.size ≤ s.sp then s.sp else s.sp + 1 } := by
  simp only [print, get_bind, State.shown]
  by_cases hempty : s.memory.size ≤ s.sp
  · rw [if_pos hempty, if_pos hempty, if_pos hempty]
  · have hpop : pop ip s = .ok (s.memory.get s.sp) { s with sp := s.sp + 1 } := by
      rw [pop_apply, if_neg hempty]
    rw [if_neg hempty, if_neg hempty, if_neg hempty]
    exact bind_of_ok hpop _

/-- A value has been popped before it is written or refused. -/
theorem execute_print (hword : Opcode.ofWord? word = some (.plain .print)) :
    execute code word s =
      match s.output.write? s.shown with
      | some o => .ok .next { s.pastPrint with output := o }
      | none => .error .outputClosed s.pastPrint := by
  have hprint : print s.ip { s with ip := s.ip + 1 } =
      match s.output.write? s.shown with
      | some o => .ok () { s.pastPrint with output := o }
      | none => .error .outputClosed s.pastPrint :=
    (print_apply s.ip _).trans (write_apply s.shown s.pastPrint)
  simp only [execute, get_bind, hword, modify_bind, operation]
  cases ho : s.output.write? s.shown with
  | none =>
    rw [ho] at hprint
    simp only [bind, EStateM.bind, hprint]
  | some o =>
    rw [ho] at hprint
    exact bind_of_ok hprint _

end Exec

/-! ## The record of a turn -/

/-- Two states have the same record. -/
structure State.SameRecord (s t : State) : Prop where
  /-- The number of instructions is the same. -/
  steps : t.steps = s.steps
  /-- The output is the same. -/
  output : t.output = s.output

namespace Exec

variable {s : State} {code : Array Int32} {word : Int32}

/-- What is blind leaves the record as it is. -/
theorem Blind.ends {α : Type} {x : Exec α} (hx : x.Blind) (s : State) :
    Ends s.SameRecord s.SameRecord (x s) := by
  have hsame : SameBut s.steps s.output (x s) (x s) := hx s s.steps s.output
  generalize x s = r at hsame
  rcases r with ⟨a, t⟩ | ⟨f, t⟩
  · cases hsame with
    | ok h => exact ⟨by rw [h]; rfl, by rw [h]; rfl⟩
  · cases hsame with
    | error _ h => exact ⟨by rw [h]; rfl, by rw [h]; rfl⟩

/-- No instruction counts: it is counted by the turn that executes it. -/
theorem ends_execute_steps (code : Array Int32) (word : Int32) (s : State) :
    Ends (fun t ↦ t.steps = s.steps) (fun t ↦ t.steps = s.steps) (execute code word s) := by
  by_cases hword : Opcode.ofWord? word = some (.plain .print)
  · rw [execute_print hword]
    cases s.output.write? s.shown <;> rfl
  · have hends := (blind_execute code hword).ends s
    generalize execute code word s = r at hends
    rcases r with ⟨a, t⟩ | ⟨f, t⟩ <;> exact State.SameRecord.steps hends

end Exec

namespace State

variable {s t : State} {limit : Option Nat} {code : Array Int32} {word : Int32} {n k : Nat}

theorem steps_ofResult (code : Array Int32) (word : Int32) (s : State) :
    (Course.ofResult clash? (Exec.execute code word { s with steps := s.steps + 1 })).state.steps
      = s.steps + 1 :=
  (Exec.ends_execute_steps code word { s with steps := s.steps + 1 }).state clash?

/-- A turn counts one instruction, or it ends the run and counts none. -/
theorem steps_turn (limit : Option Nat) (code : Array Int32) (s : State) :
    (s.turn limit code).course.state.steps = s.steps + 1 ∨
      (s.turn limit code).course.state = s ∧ ∀ t, (s.turn limit code).course ≠ .running t := by
  rcases turn_cases limit code s with hend | ⟨word, -, hturn⟩
  · exact .inr hend
  · rw [hturn]
    exact .inl (steps_ofResult code word s)

theorem courseAfter_succ (limit : Option Nat) (code : Array Int32) (k : Nat) (s : State) :
    s.courseAfter limit code (k + 1)
      = (s.courseAfter limit code k).next fun s ↦ (s.turn limit code).course := rfl

/-- **A run that goes on after some turns has executed as many instructions.** Only a turn that ends
a run can do without one. -/
theorem steps_courseAfter (h : s.courseAfter limit code k = .running t) :
    t.steps = s.steps + k := by
  induction k generalizing t with
  | zero =>
    cases h
    rfl
  | succ k ih =>
    rw [courseAfter_succ] at h
    cases hc : s.courseAfter limit code k with
    | running u =>
      rw [hc] at h
      have hu := ih hc
      rcases steps_turn limit code u with hsteps | ⟨-, hend⟩
      · have ht : (u.turn limit code).course = .running t := h
        rw [ht] at hsteps
        have : t.steps = u.steps + 1 := hsteps
        omega
      · exact absurd h (hend t)
    | finished u | faulted f u =>
      rw [hc] at h
      cases h

end State

end ObjectLet
