import Mathlib.Data.List.TakeWhile
import ObjectLet.Proofs.Courses

/-!
# Executing symbolic instructions

A list of symbolic instructions can be executed as it stands.  The counter is a position in the list
then, and all that depends on how large instructions are is gone: a jump goes on at the mark of its
label, marks are passed over, and there are no operands that could be read.  Addresses in the code
are left only where a program gets hold of them, in the label that is pushed, in the address that a
subroutine returns to and in faults.

The machine does the same with the assembled code, at the address where the code of the instruction
begins.  The only difference is what a `js` may do: it can jump to an operand in the code, but to no
position in the list.

* `Symbolic.turn`: a turn of the machine that executes the list itself.
* `Symbolic.Lands`: where a `js` may jump to.
* `Symbolic.tracks_turn`: **a turn with the assembled code corresponds to one with the list.**
* `Symbolic.assembled_refines`: **so do whole runs**, as long as every `js` lands at an instruction.
-/

set_option autoImplicit false

namespace ObjectLet

/-- Whether an instruction is the mark of a label. -/
def Instr.isMark : Instr → Bool
  | .mark _ => true
  | _ => false

namespace Symbolic

/-! ## Positions and addresses -/

/-- Where the code of the instruction at a position begins. -/
def offset (is : List Instr) (k : Nat) : Nat := codeSize (is.take k)

/-- The first position from a given one on at which there is no mark. -/
def skipMarks (is : List Instr) (k : Nat) : Nat := k + ((is.drop k).takeWhile Instr.isMark).length

/-- The position of the instruction whose code begins at an address, or of the first mark in front
of it.  The end of the code has a position, too. -/
def position? (is : List Instr) (a : Int32) : Option Nat :=
  (List.range (is.length + 1)).find? fun k ↦ (offset is k : Int) = a.toInt

/-! ## Instructions -/

/-- Goes on at the mark of a label.  Nothing is looked up in the code. -/
def goto (is : List Instr) (l : Label) : Exec Unit :=
  modify fun s ↦ { s with ip := is.idxOf (.mark l) }

/-- Executes a jump to a label; `ip` is where the code of the jump begins, which only
matters in a fault. -/
def branch (is : List Instr) (ip : Nat) (l : Label) : Jump → Exec Unit
  | .always => goto is l
  | .ifEq => do
    let v1 ← Exec.pop ip
    let v2 ← Exec.pop ip
    if v2 = v1 then goto is l
  | .ifLessEq => do
    let v1 ← Exec.pop ip
    let v2 ← Exec.pop ip
    if v2 ≤ v1 then goto is l

/-- Goes on at the instruction whose address is popped, leaving the address of the next one in
`ra`. -/
def jumpSub (is : List Instr) (ip : Nat) : Exec Unit := do
  let target ← Exec.pop ip
  modify fun s ↦ { s with ra := Int32.ofNat (offset is s.ip) }
  match position? is target with
  | some k => modify fun s ↦ { s with ip := k }
  | none => throw (.invalidJump target ip)

/-- Executes an instruction of the list.  The counter is a position in the list, and addresses in
the code are computed only where they get into a register or a fault. -/
def execute (is : List Instr) (i : Instr) : Exec Signal := do
  let ip := offset is (← get).ip
  modify fun s ↦ { s with ip := s.ip + 1 }
  match i with
  | .push v =>
    Exec.push v
    return .next
  | .pushLabel l =>
    Exec.push (Int32.ofNat (offset is (is.idxOf (.mark l))))
    return .next
  | .jump j l =>
    branch is ip l j
    return .next
  | .plain .jumpSub =>
    jumpSub is ip
    return .next
  -- the other operations have nothing to do with code
  | .plain op => Exec.operation #[] ip op
  | .mark _ => return .next

/-- One turn of the loop: passes over marks, ends if there are no instructions left, checks the step
limit, executes one instruction and checks that the stack has not met the heap. -/
def turn (limit : Option Nat) (is : List Instr) (s : State) : Course State Fault :=
  match is[skipMarks is s.ip]? with
  | none => .finished s
  | some i =>
    match limitReached? limit s.steps with
    | some l => .faulted (.stepLimitExceeded l) s
    | none =>
      .ofResult State.clash?
        (execute is i { s with ip := skipMarks is s.ip, steps := s.steps + 1 })

/-- How far a run has got after some turns, on a new machine with the given options. -/
def courseAfter (o : Options) (is : List Instr) (output : Output) (n : Nat) : Course State Fault :=
  .after (turn o.maxSteps is) n (.boot o.memorySize output)

/-! ## Where subroutines begin -/

/-- The value that a `js` is about to pop, if it is the next instruction and may be executed. -/
def popped? (limit : Option Nat) (is : List Instr) (s : State) : Option Int32 :=
  match is[skipMarks is s.ip]?, limitReached? limit s.steps with
  | some (.plain .jumpSub), none => if s.memory.size ≤ s.sp then none else some (s.memory.get s.sp)
  | _, _ => none

/-- An address is where the code of an instruction begins, or the end of the code, or outside. -/
def Lands (is : List Instr) (a : Int32) : Prop :=
  (∃ k ≤ is.length, (offset is k : Int) = a.toInt) ∨ a.toInt < 0 ∨ (codeSize is : Int) < a.toInt

instance (is : List Instr) (a : Int32) : Decidable (Lands is a) :=
  inferInstanceAs (Decidable (_ ∨ _ ∨ _))

/-- Every value that a `js` pops in the first turns of a run lands at an instruction or outside the
code. -/
def Landing (o : Options) (is : List Instr) (output : Output) (n : Nat) : Prop :=
  ∀ k < n, ∀ s a, courseAfter o is output k = .running s → popped? o.maxSteps is s = some a →
    Lands is a

section Offsets

variable {is : List Instr} {i : Instr} {k : Nat} {a : Int32}

theorem offset_le (is : List Instr) (k : Nat) : offset is k ≤ codeSize is := by
  have hsplit := codeSize_append (is.take k) (is.drop k)
  rw [List.take_append_drop] at hsplit
  rw [offset, hsplit]
  exact Nat.le_add_right _ _

theorem codeAt_offset (hi : is[k]? = some i) : CodeAt is (offset is k) (i :: is.drop (k + 1)) := by
  obtain ⟨hk, rfl⟩ := List.getElem?_eq_some_iff.1 hi
  refine ⟨is.take k, [], ?_, rfl⟩
  rw [List.append_nil, List.getElem_cons_drop, List.take_append_drop]

theorem offset_succ (hi : is[k]? = some i) : offset is (k + 1) = offset is k + i.size := by
  rw [offset, List.take_add_one, hi, codeSize_append]
  exact congrArg (offset is k + ·) (Nat.add_zero _)

theorem offset_eq_codeSize (hi : is[k]? = none) : offset is k = codeSize is := by
  rw [offset, List.take_of_length_le (List.getElem?_eq_none_iff.1 hi)]

/-- Marks do not become code. -/
theorem codeSize_eq_zero {ms : List Instr} (h : ∀ i ∈ ms, i.isMark = true) : codeSize ms = 0 := by
  induction ms with
  | nil => rfl
  | cons i ms ih =>
    rw [codeSize_cons, ih fun j hj ↦ h j (List.mem_cons_of_mem _ hj)]
    have hi := h i List.mem_cons_self
    cases i with
    | mark l => rfl
    | _ => cases hi

/-- An instruction is where the marks in front of it are. -/
theorem offset_skipMarks (is : List Instr) (k : Nat) :
    offset is (skipMarks is k) = offset is k := by
  have htake : (is.drop k).take ((is.drop k).takeWhile Instr.isMark).length
      = (is.drop k).takeWhile Instr.isMark := by
    nth_rewrite 2 [← List.takeWhile_append_dropWhile (p := Instr.isMark) (l := is.drop k)]
    exact List.take_left
  rw [offset, skipMarks, List.take_add, codeSize_append, htake,
    codeSize_eq_zero fun i hi ↦ List.mem_takeWhile_imp hi]
  rfl

/-- There is no mark behind marks that have been skipped. -/
theorem isMark_of_skipMarks (hi : is[skipMarks is k]? = some i) : i.isMark = false := by
  have hrest : is[skipMarks is k]? = ((is.drop k).dropWhile Instr.isMark).head? := by
    rw [skipMarks, ← List.getElem?_drop]
    generalize is.drop k = l
    calc l[(l.takeWhile Instr.isMark).length]?
        = (l.takeWhile Instr.isMark
            ++ l.dropWhile Instr.isMark)[(l.takeWhile Instr.isMark).length]? := by
          rw [List.takeWhile_append_dropWhile]
      _ = (l.dropWhile Instr.isMark).head? := by
          rw [List.getElem?_append_right (Nat.le_refl _), Nat.sub_self, List.head?_eq_getElem?]
  have hnot := List.head?_dropWhile_not Instr.isMark (is.drop k)
  rw [← hrest, hi] at hnot
  simpa using hnot

/-- The address of a label is where the code behind its mark begins. -/
theorem offset_idxOf (l : Label) (is : List Instr) :
    offset is (is.idxOf (.mark l)) = addressOf l is := by
  induction is with
  | nil => rfl
  | cons i is ih =>
    rw [addressOf, List.idxOf_cons]
    by_cases hi : i = .mark l
    · rw [if_pos hi, hi, beq_self_eq_true]
      rfl
    · rw [if_neg hi, beq_false_of_ne hi, ← ih]
      rfl

theorem position?_eq_some (h : position? is a = some k) :
    k ≤ is.length ∧ (offset is k : Int) = a.toInt := by
  have hk := List.mem_range.1 (List.mem_of_find?_eq_some h)
  exact ⟨Nat.le_of_lt_succ hk, by simpa using List.find?_some h⟩

theorem position?_eq_none (h : position? is a = none) :
    ∀ k ≤ is.length, (offset is k : Int) ≠ a.toInt := by
  intro k hk
  simpa using List.find?_eq_none.1 h k (List.mem_range.2 (Nat.lt_succ_of_le hk))

end Offsets

/-! ## What has nothing to do with the counter -/

/-- The state of the machine that executes the code, with the counter where the code of the
instruction begins. -/
def located (is : List Instr) (s : State) : State := { s with ip := offset is s.ip }

/-- A state of the machine that executes the code is one of the machine that executes the list. -/
def Located (is : List Instr) (s t : State) : Prop := s = located is t

/-- A computation does the same whether the counter is a position or an address.  All instructions
are of this kind except for those that jump or read an operand. -/
def Blind (is : List Instr) {α : Type} (x : Exec α) : Prop :=
  ∀ t, Follows (Located is) Eq (x (located is t)) (x t)

section Blind

variable {is : List Instr} {α β : Type} {x : Exec α} {ip : Nat}

theorem Blind.bind {f : α → Exec β} (hx : Blind is x) (hf : ∀ a, Blind is (f a)) :
    Blind is (x >>= f) := by
  intro t
  refine Follows.bind (hx t) ?_
  rintro a _ v - rfl
  exact hf a v

theorem blind_pure (a : α) : Blind is (pure a) := fun _ ↦ .ok rfl

theorem blind_throw (f : Fault) : Blind is (throw f : Exec α) := fun _ ↦ .error rfl rfl

theorem Blind.get {f : State → Exec β} (hf : ∀ t, f (located is t) = f t)
    (h : ∀ t, Blind is (f t)) : Blind is (get >>= f) := by
  intro t
  rw [Exec.get_bind, Exec.get_bind, hf]
  exact h t t

theorem Blind.modify {g : State → State} {k : Unit → Exec β}
    (hg : ∀ t, g (located is t) = located is (g t)) (h : Blind is (k ())) :
    Blind is (modify g >>= k) := by
  intro t
  rw [Exec.modify_bind, Exec.modify_bind, hg]
  exact h (g t)

theorem blind_push (v : Int32) : Blind is (Exec.push v) := by
  intro t
  rw [Exec.push_apply, Exec.push_apply]
  show Follows _ _ (if (t.sp : Int) - 1 ≤ t.hp.toInt ∨ (t.sp : Int) - 1 < 0 then _ else _) _
  split
  · exact .error rfl rfl
  · exact .ok rfl

theorem blind_pop (ip : Nat) : Blind is (Exec.pop ip) := by
  intro t
  rw [Exec.pop_apply, Exec.pop_apply]
  show Follows _ _ (if t.memory.size ≤ t.sp then _ else _) _
  split
  · exact .error rfl rfl
  · exact .ok rfl

theorem blind_cell (a : Int32) (ip : Nat) : Blind is (Exec.cell a ip) := by
  intro t
  rw [Exec.cell_apply, Exec.cell_apply]
  show Follows _ _ (if 0 ≤ a.toInt ∧ a.toInt < t.memory.size then _ else _) _
  split
  · exact .ok rfl
  · exact .error rfl rfl

theorem blind_write (l : Line) : Blind is (Exec.write l) := by
  intro t
  have houtput : (located is t).output = t.output := rfl
  rw [Exec.write_apply, Exec.write_apply, houtput]
  cases t.output.write? l with
  | some output => exact .ok rfl
  | none => exact .error rfl rfl

theorem blind_binary (ip : Nat) (op : Int32 → Int32 → Except Fault Int32) :
    Blind is (Exec.binary ip op) := by
  refine (blind_pop ip).bind fun v1 ↦ (blind_pop ip).bind fun v2 ↦ ?_
  cases op v2 v1 with
  | ok v => exact blind_push v
  | error f => exact blind_throw f

theorem blind_print (ip : Nat) : Blind is (Exec.print ip) := by
  refine .get (fun t ↦ rfl) fun t ↦ ?_
  split
  · exact blind_write _
  · exact (blind_pop ip).bind fun v ↦ blind_write _

/-- Only a `js` has to do with code. -/
theorem blind_operation (code : Array Int32) {op : Operation} (hop : op ≠ .jumpSub) (ip : Nat) :
    Blind is (Exec.operation code ip op) := by
  have hnext : Blind is (pure Signal.next) := blind_pure _
  cases op with
  | pop => exact (blind_pop ip).bind fun _ ↦ hnext
  | add | sub | mult | div => exact (blind_binary ip _).bind fun _ ↦ hnext
  | storeWord =>
    exact (blind_pop ip).bind fun a ↦ (blind_pop ip).bind fun v ↦ (blind_cell a ip).bind fun k ↦
      .modify (fun _ ↦ rfl) hnext
  | loadWord =>
    exact (blind_pop ip).bind fun a ↦ (blind_cell a ip).bind fun k ↦
      .get (fun _ ↦ rfl) fun t ↦ (blind_push _).bind fun _ ↦ hnext
  | jumpSub => exact absurd rfl hop
  | loadRa | loadTm | loadFp | loadHp =>
    exact .get (fun _ ↦ rfl) fun t ↦ (blind_push _).bind fun _ ↦ hnext
  | storeRa | storeTm | storeFp | storeHp =>
    exact (blind_pop ip).bind fun v ↦ .modify (fun _ ↦ rfl) hnext
  | copyFp => exact .modify (fun _ ↦ rfl) hnext
  | print => exact (blind_print ip).bind fun _ ↦ hnext
  | halt => exact blind_pure _

end Blind

/-! ## Jumps -/

section Jumps

variable {is : List Instr} {b : Bytecode} {ip : Nat}

/-- A jump to the address of a label goes to its mark. -/
theorem follows_goto (hb : assemble is = .ok b) (hsmall : b.code.size < 2 ^ 31) (l : Label)
    (ip : Nat) (t : State) :
    Follows (Located is) Eq (Exec.jump b.code (Int32.ofNat (addressOf l is)) ip (located is t))
      (goto is l t) := by
  rw [Image.jump_eq (Assembled.size_eq hb ▸ addressOf_le l is) hsmall, ← offset_idxOf]
  exact .ok rfl

theorem follows_branch (hb : assemble is = .ok b) (hsmall : b.code.size < 2 ^ 31) (l : Label)
    (ip : Nat) (j : Jump) (t : State) :
    Follows (Located is) Eq
      (Image.Exec.jumpTo b.code (Int32.ofNat (addressOf l is)) ip j (located is t))
      (branch is ip l j t) := by
  have htest : ∀ (test : Int32 → Int32 → Prop) [∀ v w, Decidable (test v w)],
      Follows (Located is) Eq
        ((do
          let v1 ← Exec.pop ip
          let v2 ← Exec.pop ip
          if test v2 v1 then Exec.jump b.code (Int32.ofNat (addressOf l is)) ip : Exec Unit)
            (located is t))
        ((do
          let v1 ← Exec.pop ip
          let v2 ← Exec.pop ip
          if test v2 v1 then goto is l : Exec Unit) t) := by
    intro test _
    refine Follows.bind (blind_pop ip t) ?_
    rintro v1 _ u - rfl
    refine Follows.bind (blind_pop ip u) ?_
    rintro v2 _ u - rfl
    split
    · exact follows_goto hb hsmall l ip u
    · exact .ok rfl
  cases j with
  | always => exact follows_goto hb hsmall l ip t
  | ifEq => exact htest (· = ·)
  | ifLessEq => exact htest (· ≤ ·)

/-- A `js` goes to the instruction whose address it pops. -/
theorem follows_jumpSub (hb : assemble is = .ok b) (ip : Nat) (t : State)
    (hland : t.sp < t.memory.size → Lands is (t.memory.get t.sp)) :
    Follows (Located is) Eq (Exec.operation b.code ip .jumpSub (located is t))
      ((jumpSub is ip >>= fun _ ↦ pure Signal.next) t) := by
  rw [jumpSub, bind_assoc]
  refine Follows.bind (blind_pop ip t) ?_
  rintro a _ u hpop rfl
  have ha : Lands is a := by
    rw [Exec.pop_apply] at hpop
    split at hpop
    · cases hpop
    · cases hpop
      exact hland (by omega)
  have hsize := Assembled.size_eq hb
  rw [bind_assoc, Exec.modify_bind, Exec.modify_bind]
  refine Follows.bind ?_ fun _ _ v _ hv ↦ .ok hv
  rw [Exec.jump_apply]
  cases hk : position? is a with
  | some k =>
    obtain ⟨-, hoffset⟩ := position?_eq_some hk
    have hle := offset_le is k
    rw [if_pos (by omega)]
    refine .ok ?_
    rw [Located, located, ← hoffset, Int.toNat_natCast]
    rfl
  | none =>
    have hnone := position?_eq_none hk
    rcases ha with ⟨k, hk, hoffset⟩ | hout
    · exact absurd hoffset (hnone k hk)
    · rw [if_neg (by omega)]
      exact .error rfl rfl

end Jumps

/-! ## Turns -/

section Turns

variable {is : List Instr} {b : Bytecode} {i : Instr} {t : State}

/-- Behind an instruction the counters correspond to each other again. -/
theorem located_behind (hi : is[t.ip]? = some i) :
    ({ t with ip := offset is t.ip + i.size } : State) = located is { t with ip := t.ip + 1 } := by
  rw [← offset_succ hi]
  rfl

/-- What a word of code does is what the instruction there does. -/
theorem follows_execute (hb : assemble is = .ok b) (hsmall : b.code.size < 2 ^ 31)
    (hi : is[t.ip]? = some i) (hmark : i.isMark = false) :
    ∃ word, b.code[offset is t.ip]? = some word ∧
      ((i = .plain .jumpSub → t.sp < t.memory.size → Lands is (t.memory.get t.sp)) →
        Follows (Located is) Eq (Exec.execute b.code word (located is t)) (execute is i t)) := by
  have hfetch := Assembled.fetch hb (codeAt_offset hi)
  have hnext : Blind is (pure Signal.next) := blind_pure _
  have hbehind := located_behind hi
  cases i with
  | mark l => cases hmark
  | push v =>
    refine ⟨_, hfetch 0 Nat.two_pos, fun _ ↦ ?_⟩
    rw [Image.execute_push (hfetch 1 Nat.one_lt_two)]
    have hpush := ((blind_push v).bind fun _ ↦ hnext) { t with ip := t.ip + 1 }
    rw [← hbehind] at hpush
    exact hpush
  | pushLabel l =>
    refine ⟨_, hfetch 0 Nat.two_pos, fun _ ↦ ?_⟩
    rw [Image.execute_push (hfetch 1 Nat.one_lt_two)]
    have hpush := ((blind_push (Int32.ofNat (addressOf l is))).bind fun _ ↦ hnext)
      { t with ip := t.ip + 1 }
    have hlabel : execute is (.pushLabel l) t =
        (Exec.push (Int32.ofNat (addressOf l is)) >>= fun _ ↦ pure .next)
          { t with ip := t.ip + 1 } := by
      rw [← offset_idxOf]
      rfl
    rw [← hbehind] at hpush
    rw [hlabel]
    exact hpush
  | jump j l =>
    refine ⟨_, hfetch 0 Nat.two_pos, fun _ ↦ ?_⟩
    rw [Image.execute_jump j (hfetch 1 Nat.one_lt_two)]
    have hbranch := follows_branch hb hsmall l (offset is t.ip) j { t with ip := t.ip + 1 }
    rw [← hbehind] at hbranch
    exact Follows.bind hbranch fun _ _ v _ hv ↦ .ok hv
  | plain op =>
    refine ⟨_, hfetch 0 Nat.one_pos, fun hland ↦ ?_⟩
    rw [Image.execute_plain]
    by_cases hop : op = .jumpSub
    · subst hop
      have hjump := follows_jumpSub hb (offset is t.ip) { t with ip := t.ip + 1 } (hland rfl)
      rw [← hbehind] at hjump
      exact hjump
    · have hblind : Blind is (Exec.operation b.code (offset is t.ip) op) :=
        blind_operation b.code hop _
      have hplain := hblind { t with ip := t.ip + 1 }
      have hcode : Exec.operation #[] (offset is t.ip) op
          = Exec.operation b.code (offset is t.ip) op := by
        cases op <;> first | rfl | exact absurd rfl hop
      have hlist : execute is (.plain op) t =
          Exec.operation #[] (offset is t.ip) op { t with ip := t.ip + 1 } := by
        cases op <;> first | rfl | exact absurd rfl hop
      rw [hlist, hcode]
      rw [← hbehind] at hplain
      exact hplain

/-- Whether stack and heap have met has nothing to do with the counter. -/
theorem clash?_located (u v : State) (h : Located is u v) :
    (∃ f g, u.clash? = some f ∧ v.clash? = some g ∧ f = g) ∨ u.clash? = none ∧ v.clash? = none := by
  have hclash : u.clash? = v.clash? := by
    rw [h]
    rfl
  cases hv : v.clash? with
  | some f => exact .inl ⟨f, f, hclash.trans hv, rfl, rfl⟩
  | none => exact .inr ⟨hclash.trans hv, rfl⟩

/-- **A turn with the assembled code corresponds to one with the list**, if it does not jump to
where no instruction begins. -/
theorem tracks_turn (hb : assemble is = .ok b) (hsmall : b.code.size < 2 ^ 31) (limit : Option Nat)
    (hland : ∀ a, popped? limit is t = some a → Lands is a) :
    Course.Tracks (Located is) Eq ((located is t).turn limit b.code).course (turn limit is t) := by
  have hskip := offset_skipMarks is t.ip
  rw [turn]
  cases hi : is[skipMarks is t.ip]? with
  | none =>
    have hend : b.code[(located is t).ip]? = none := by
      show b.code[offset is t.ip]? = none
      rw [← hskip, offset_eq_codeSize hi, ← Assembled.size_eq hb, Array.getElem?_size]
    rw [State.turn, hend]
    exact .finished rfl
  | some i =>
    obtain ⟨word, hword, hexec⟩ :=
      follows_execute (t := { t with ip := skipMarks is t.ip, steps := t.steps + 1 }) hb hsmall hi
        (isMark_of_skipMarks hi)
    have hfetch : b.code[(located is t).ip]? = some word := by
      show b.code[offset is t.ip]? = some word
      rw [← hskip]
      exact hword
    rw [State.turn, hfetch]
    show Course.Tracks _ _ (Turn.course (match limitReached? limit t.steps with
      | some l => _
      | none => _)) _
    cases hl : limitReached? limit t.steps with
    | some n => exact .faulted rfl rfl
    | none =>
      rw [State.course_perform]
      refine Follows.ofResult clash?_located ?_
      have hstart : located is { t with ip := skipMarks is t.ip, steps := t.steps + 1 } =
          { located is t with steps := (located is t).steps + 1 } := by
        rw [located, hskip]
        rfl
      rw [← hstart]
      refine hexec fun hjump hsp ↦ hland _ ?_
      rw [popped?, hi, hl, hjump]
      exact if_neg (Nat.not_le_of_lt hsp)

end Turns

/-! ## Runs -/

/-- **Runs with the assembled code correspond to those with the list**, whatever the options are and
however long the run is, as long as every `js` lands at an instruction: the counter is where the
code of the instruction begins, everything else is the same. -/
theorem assembled_refines {o : Options} {m : Machine} {is : List Instr} {b : Bytecode}
    {output : Output} {n : Nat} (hm : Machine.new o = .ok m) (hb : assemble is = .ok b)
    (hsmall : b.code.size < 2 ^ 31) (hland : Landing o is output n) :
    (m.state.reset output).courseAfter o.maxSteps b.code n =
        (courseAfter o is output n).map (located is) ∧
      m.execute b output n = ((courseAfter o is output n).map (located is)).outcome?.map fun r ↦
        (r.result, { m with state := r.final }) := by
  obtain ⟨-, rfl⟩ := Machine.new_eq_ok_iff.1 hm
  have htracks : Course.Tracks (Located is) Eq
      ((State.boot o.memorySize output).courseAfter o.maxSteps b.code n)
      (courseAfter o is output n) := by
    refine Course.tracks_after rfl fun k hk u v hrun huv ↦ ?_
    rw [huv]
    exact tracks_turn hb hsmall o.maxSteps fun a ha ↦ hland k hk v a hrun ha
  have hcourse := htracks.eq_map
  refine ⟨hcourse, ?_⟩
  rw [Machine.execute, State.reset_eq_boot, State.run_eq_outcome?]
  exact congrArg (fun c ↦ (Course.outcome? c).map _) hcourse

/-- A program that jumps over a subroutine, calls it and prints what it returns.  There are marks
next to each other, and others at the end. -/
def calling : List Instr :=
  [.jump .always ⟨.branch, 2⟩, .mark ⟨.function, 0⟩, .mark ⟨.branch, 1⟩, .push 5, .plain .loadRa,
    .plain .jumpSub, .mark ⟨.branch, 2⟩, .pushLabel ⟨.function, 0⟩, .plain .jumpSub, .plain .print,
    .mark ⟨.branch, 3⟩, .mark ⟨.branch, 4⟩]

/-- The subroutine is called and returns, and the run ends behind the last instruction. -/
theorem calling_refines : ∃ b m, assemble calling = .ok b ∧ Machine.new {} = .ok m ∧
    (m.state.reset {}).courseAfter none b.code 8 =
      (courseAfter {} calling {} 8).map (located calling) ∧
    (m.execute b {} 8).map (fun r ↦ (r.2.state.ip, r.2.state.steps, r.2.state.output.lines)) =
      some (10, 7, #[.value 5]) := by
  have hcode : assemble calling = .ok ⟨#[9, 6, 1, 5, 13, 12, 1, 2, 12, 22]⟩ := by decide +kernel
  have hlands : ∀ k < 8, (popped? none calling (courseAfter {} calling {} k).state).all
      (fun a ↦ decide (Lands calling a)) = true := by
    decide +kernel
  have hland : Landing {} calling {} 8 := by
    intro k hk s a hrun hpopped
    have hall := hlands k hk
    rw [hrun, Course.state, hpopped] at hall
    exact of_decide_eq_true hall
  obtain ⟨hcourse, hexecute⟩ := assembled_refines (o := {}) rfl hcode (by decide) hland
  refine ⟨_, _, hcode, rfl, hcourse, ?_⟩
  rw [hexecute]
  decide +kernel

end Symbolic

end ObjectLet
