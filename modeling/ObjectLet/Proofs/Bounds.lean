import ObjectLet.Proofs.Courses

/-!
# What an instruction leaves alone

Code can be any words, so nothing is known about what an instruction finds on the stack, and `hp`
can have any value at all.  Still the machine stays within its memory and its code.  An instruction
takes some values off the stack, and at most one of them changes the memory: it puts a value on the
stack, and this is refused where the cell would not be above `hp`.  Only a `sw` writes elsewhere.

This is said with pre- and postconditions of the parts that instructions are made of
(`Exec.Ensures`): at first the memory is as it was (`State.Reading`), and after the value has been
pushed only the cell at the top of the stack has changed (`State.Near`).

* `Exec.ensures_operation`, `Exec.ends_execute`: **what every instruction but `sw` leaves alone.**
* `State.near_turn`: the same for a turn of the machine.
* `State.sound_courseAfter`: **stack, heap and counter are where they belong after every number of
  turns.**
-/

set_option autoImplicit false

namespace ObjectLet

/-! ## Conditions on states -/

/-- Stack pointer and counter are in range, for `m` cells of memory and `n` words of code. -/
structure State.Within (m n : Nat) (t : State) : Prop where
  /-- The memory has its size. -/
  size : t.memory.size = m
  /-- The stack is in the memory. -/
  sp : t.sp ≤ m
  /-- The counter is in the code, or at its end. -/
  ip : t.ip ≤ n

/-- An instruction that has been started in `s` has not changed memory and heap.  It may have taken
values off the stack and read its operand. -/
structure State.Reading (s : State) (n : Nat) (t : State) : Prop where
  /-- Nothing has been written. -/
  memory : t.memory = s.memory
  /-- The heap pointer is the same. -/
  hp : t.hp = s.hp
  /-- The stack is in the memory. -/
  sp : t.sp ≤ s.memory.size
  /-- The counter is in the code, or at its end. -/
  ip : t.ip ≤ n

/-- An instruction that has been started in `s` has changed at most one cell, and that is the one at
the top of the stack and is above the heap. -/
structure State.Near (s : State) (n : Nat) (t : State) : Prop extends
    t.Within s.memory.size n where
  /-- What has changed is on top of the stack, and above the heap both before and after. -/
  cells : ∀ a, t.memory.get a ≠ s.memory.get a → a = t.sp ∧ s.hp.toInt < a ∧ t.hp = s.hp

namespace State

variable {s t : State} {n : Nat}

theorem Reading.near (h : s.Reading n t) : s.Near n t where
  size := by rw [h.memory]
  sp := h.sp
  ip := h.ip
  cells := fun a ha ↦ absurd (by rw [h.memory]) ha

end State

/-! ## Pre- and postconditions -/

namespace Exec

variable {α β : Type} {P Q R E : State → Prop} {x : Exec α}

/-- A computation has ended in a state with `Q`, or with a fault in one with `E`. -/
def Ends (Q E : State → Prop) : EStateM.Result Fault State α → Prop
  | .ok _ t => Q t
  | .error _ t => E t

/-- Started in a state with `P`, a computation ends in one with `Q`, or with a fault in one with
`E`. -/
def Ensures (P : State → Prop) (x : Exec α) (Q E : State → Prop) : Prop := ∀ s, P s → Ends Q E (x s)

theorem Ensures.bind {f : α → Exec β} (hx : Ensures P x R E) (hf : ∀ a, Ensures R (f a) Q E) :
    Ensures P (x >>= f) Q E := by
  intro s hs
  have hxs := hx s hs
  simp only [Bind.bind, EStateM.bind]
  generalize x s = r at hxs
  rcases r with ⟨a, t⟩ | ⟨f, t⟩
  · exact hf a t hxs
  · exact hxs

theorem Ensures.imp {Q' E' : State → Prop} (hx : Ensures P x Q E) (hQ : ∀ t, Q t → Q' t)
    (hE : ∀ t, E t → E' t) : Ensures P x Q' E' := by
  intro s hs
  have hxs := hx s hs
  rcases hr : x s with ⟨a, t⟩ | ⟨f, t⟩
  · rw [hr] at hxs
    exact hQ t hxs
  · rw [hr] at hxs
    exact hE t hxs

theorem ensures_pure (a : α) (h : ∀ s, P s → Q s) : Ensures P (pure a) Q E := h

theorem ensures_throw (f : Fault) (h : ∀ s, P s → E s) : Ensures P (throw f : Exec α) Q E := h

theorem Ensures.get {f : State → Exec α} (h : ∀ s, Ensures P (f s) Q E) :
    Ensures P (get >>= f) Q E := fun s hs ↦ h s s hs

theorem Ensures.modify {g : State → State} {k : Unit → Exec α} (hg : ∀ s, P s → R (g s))
    (h : Ensures R (k ()) Q E) : Ensures P (modify g >>= k) Q E := fun s hs ↦ h (g s) (hg s hs)

section Parts

variable {s : State} {n : Nat} (hE : ∀ t, s.Reading n t → E t)

include hE

theorem ensures_pop (ip : Nat) : Ensures (s.Reading n) (pop ip) (s.Reading n) E := by
  intro t ht
  have hmemory := ht.memory
  rw [pop_apply]
  split
  · exact hE t ht
  · exact { ht with sp := by rw [← hmemory]; show t.sp + 1 ≤ t.memory.size; omega }

theorem ensures_push (v : Int32) : Ensures (s.Reading n) (push v) (s.Near n) E := by
  intro t ht
  have hsp := ht.sp
  have hmemory := ht.memory
  rw [push_apply]
  split
  · exact hE t ht
  · rename_i hroom
    rw [ht.hp] at hroom
    have hsize : t.memory.size = s.memory.size := congrArg Memory.size hmemory
    refine ⟨⟨hsize, Nat.le_trans (Nat.sub_le _ _) hsp, ht.ip⟩, fun a ha ↦ ?_⟩
    have htop : a = t.sp - 1 := by
      by_contra hne
      refine ha ?_
      show (t.memory.set (t.sp - 1) v).get a = s.memory.get a
      rw [Memory.get_set, if_neg hne, hmemory]
    exact ⟨htop, by omega, ht.hp⟩

theorem ensures_cell (a : Int32) (ip : Nat) :
    Ensures (s.Reading n) (cell a ip) (s.Reading n) E := by
  intro t ht
  rw [cell_apply]
  split
  · exact ht
  · exact hE t ht

theorem ensures_write (l : Line) : Ensures (s.Reading n) (write l) (s.Reading n) E := by
  intro t ht
  rw [write_apply]
  split
  · exact ⟨ht.memory, ht.hp, ht.sp, ht.ip⟩
  · exact hE t ht

theorem ensures_jump {code : Array Int32} (hcode : code.size = n) (target : Int32) (ip : Nat) :
    Ensures (s.Reading n) (jump code target ip) (s.Reading n) E := by
  intro t ht
  rw [jump_apply]
  split
  · exact { ht with ip := by show target.toInt.toNat ≤ n; omega }
  · exact hE t ht

theorem ensures_operand {code : Array Int32} (hcode : code.size = n) (ip : Nat) :
    Ensures (s.Reading n) (operand code ip) (s.Reading n) E := by
  intro t ht
  cases hw : code[t.ip]? with
  | none =>
    have hfault : operand code ip t = .error (.truncatedInstruction ip) t := by
      simp only [operand, get_bind, hw]
      rfl
    rw [hfault]
    exact hE t ht
  | some w =>
    rw [Image.operand_eq hw]
    have hlt := (Array.getElem?_eq_some_iff.1 hw).1
    exact { ht with ip := by show t.ip + 1 ≤ n; omega }

theorem ensures_binary (ip : Nat) (op : Int32 → Int32 → Except Fault Int32) :
    Ensures (s.Reading n) (binary ip op) (s.Near n) E := by
  refine (ensures_pop hE ip).bind fun v1 ↦ (ensures_pop hE ip).bind fun v2 ↦ ?_
  cases op v2 v1 with
  | ok v => exact ensures_push hE v
  | error f => exact ensures_throw f hE

theorem ensures_print (ip : Nat) : Ensures (s.Reading n) (print ip) (s.Reading n) E := by
  refine .get fun t ↦ ?_
  split
  · exact ensures_write hE _
  · exact (ensures_pop hE ip).bind fun v ↦ ensures_write hE _

end Parts

theorem Ends.state {r : EStateM.Result Fault State Signal} (h : Ends Q Q r)
    (clash? : State → Option Fault) : Q (Course.ofResult clash? r).state := by
  rcases r with ⟨signal, t⟩ | ⟨f, t⟩
  · cases signal with
    | next =>
      rw [Course.ofResult]
      cases clash? t <;> exact h
    | stop => exact h
  · exact h

/-! ## Instructions -/

section Instructions

variable {s : State} {code : Array Int32}

/-- **What an operation leaves alone**, unless it is a `sw`.  Only what it pushes in the end changes
a cell, and until then nothing has been written. -/
theorem ensures_operation (ip : Nat) {op : Operation} (hop : op ≠ .storeWord) :
    Ensures (s.Reading code.size) (operation code ip op) (s.Near code.size) (s.Near code.size) := by
  have hnear : ∀ t, s.Reading code.size t → s.Near code.size t := fun _ ↦ State.Reading.near
  have hpop := ensures_pop hnear ip
  have hpush := fun v ↦ ensures_push (s := s) hnear v
  have hread : Ensures (s.Reading code.size) (pure Signal.next) (s.Near code.size)
      (s.Near code.size) := ensures_pure _ hnear
  have hdone : Ensures (s.Near code.size) (pure Signal.next) (s.Near code.size)
      (s.Near code.size) := ensures_pure _ fun _ ↦ id
  cases op with
  | pop => exact hpop.bind fun _ ↦ hread
  | add | sub | mult | div => exact (ensures_binary hnear ip _).bind fun _ ↦ hdone
  | storeWord => exact absurd rfl hop
  | loadWord =>
    exact hpop.bind fun a ↦ (ensures_cell hnear a ip).bind fun k ↦
      .get fun t ↦ (hpush _).bind fun _ ↦ hdone
  | jumpSub =>
    exact hpop.bind fun a ↦ .modify (fun t ht ↦ ⟨ht.memory, ht.hp, ht.sp, ht.ip⟩)
      ((ensures_jump hnear rfl a ip).bind fun _ ↦ hread)
  | loadRa | loadTm | loadFp | loadHp => exact .get fun t ↦ (hpush _).bind fun _ ↦ hdone
  | storeRa | storeTm | storeFp =>
    exact hpop.bind fun v ↦ .modify (fun t ht ↦ ⟨ht.memory, ht.hp, ht.sp, ht.ip⟩) hread
  | storeHp =>
    refine hpop.bind fun v ↦ .modify (fun t ht ↦ ?_) hdone
    exact ⟨⟨congrArg Memory.size ht.memory, ht.sp, ht.ip⟩, fun a ha ↦ absurd (by rw [ht.memory]) ha⟩
  | copyFp => exact .modify (fun t ht ↦ ⟨ht.memory, ht.hp, ht.sp, ht.ip⟩) hread
  | print => exact (ensures_print hnear ip).bind fun _ ↦ hread
  | halt => exact ensures_pure _ hnear

/-- Even a `sw` leaves the size of the memory alone, and the registers in range. -/
theorem ensures_storeWord (ip : Nat) :
    Ensures (s.Reading code.size) (operation code ip .storeWord)
      (State.Within s.memory.size code.size) (State.Within s.memory.size code.size) := by
  have hwithin : ∀ t, s.Reading code.size t → t.Within s.memory.size code.size :=
    fun _ ht ↦ ht.near.toWithin
  refine (ensures_pop hwithin ip).bind fun a ↦ (ensures_pop hwithin ip).bind fun v ↦
    (ensures_cell hwithin a ip).bind fun k ↦ .modify (fun t ht ↦ ?_) (ensures_pure _ fun _ ↦ id)
  have hsize : t.memory.size = s.memory.size := congrArg Memory.size ht.memory
  exact ⟨hsize, ht.sp, ht.ip⟩

/-- Reading its operand and jumping leaves the memory as it is. -/
theorem ensures_jumpIf (ip : Nat) (j : Jump) {E : State → Prop}
    (hE : ∀ t, s.Reading code.size t → E t) :
    Ensures (s.Reading code.size) (jumpIf code ip j) (s.Reading code.size) E := by
  have hpop := ensures_pop hE ip
  have htest : ∀ (p : Prop) [Decidable p] (target : Int32),
      Ensures (s.Reading code.size) (if p then jump code target ip else pure ())
        (s.Reading code.size) E := by
    intro p _ target
    split
    · exact ensures_jump hE rfl target ip
    · exact ensures_pure _ fun _ ↦ id
  refine (ensures_operand hE rfl ip).bind fun target ↦ ?_
  cases j with
  | always => exact ensures_jump hE rfl target ip
  | ifEq | ifLessEq => exact hpop.bind fun v1 ↦ hpop.bind fun v2 ↦ htest _ target

/-- What an instruction begins with is passing over its first word. -/
theorem ends_execute (word : Int32) {Q : State → Prop} (hreading : s.Reading code.size s)
    (hQ : ∀ t, s.Reading code.size t → Q t) (hip : s.ip < code.size)
    (hop : ∀ op, Opcode.ofWord? word = some (.plain op) →
      Ensures (s.Reading code.size) (operation code s.ip op) Q Q)
    (hpush : ∀ v, Ensures (s.Reading code.size) (push v) Q Q) :
    Ends Q Q (execute code word s) := by
  simp only [execute, get_bind]
  cases ho : Opcode.ofWord? word with
  | none => exact hQ s hreading
  | some opcode =>
    have hstart : s.Reading code.size { s with ip := s.ip + 1 } := { hreading with ip := hip }
    have hdone : Ensures Q (pure Signal.next) Q Q := ensures_pure _ fun _ ↦ id
    simp only [modify_bind]
    cases opcode with
    | push =>
      exact ((ensures_operand hQ rfl s.ip).bind fun v ↦ (hpush v).bind fun _ ↦ hdone) _ hstart
    | jump j =>
      have hjump := (ensures_jumpIf s.ip j hQ).bind fun _ ↦ ensures_pure (E := Q) Signal.next hQ
      exact hjump _ hstart
    | plain op => exact hop op ho _ hstart

end Instructions

end Exec

/-! ## Turns and runs -/

/-- While a run goes on, nothing has clashed. -/
theorem Course.clash?_of_running {σ φ : Type} {clash? : σ → Option φ}
    {r : EStateM.Result φ σ Signal} {t : σ} (h : ofResult clash? r = .running t) :
    clash? t = none := by
  rcases r with ⟨_ | _, u⟩ | ⟨f, u⟩
  · rw [ofResult] at h
    cases hu : clash? u with
    | none =>
      rw [hu] at h
      cases h
      exact hu
    | some f =>
      rw [hu] at h
      cases h
  · cases h
  · cases h

/-- A run is where it belongs: stack pointer and counter are in range, and while it goes on, stack
and heap are apart. -/
structure Course.Sound (m n : Nat) (c : Course State Fault) : Prop where
  /-- Stack pointer and counter are in range. -/
  within : c.state.Within m n
  /-- While the run goes on, the heap is below the stack. -/
  apart : ∀ s, c = .running s → s.hp.toInt < s.sp

namespace State

variable {s : State} {code : Array Int32} {limit : Option Nat} {m : Nat}

theorem Within.reading (h : s.Within m code.size) : s.Reading code.size s :=
  ⟨rfl, rfl, h.size.symm ▸ h.sp, h.ip⟩

theorem Within.started (h : s.Within m code.size) :
    Within m code.size { s with steps := s.steps + 1 } :=
  ⟨h.size, h.sp, h.ip⟩

theorem course_turn {word : Int32} (hword : code[s.ip]? = some word)
    (hlimit : limitReached? limit s.steps = none) :
    (s.turn limit code).course =
      .ofResult clash? (Exec.execute code word { s with steps := s.steps + 1 }) := by
  simp only [turn, hword, hlimit]
  exact course_perform code word s

/-- A turn that executes no instruction ends the run and leaves the state as it is. -/
theorem turn_cases (limit : Option Nat) (code : Array Int32) (s : State) :
    ((s.turn limit code).course.state = s ∧ ∀ t, (s.turn limit code).course ≠ .running t) ∨
      ∃ word, code[s.ip]? = some word ∧ (s.turn limit code).course =
        .ofResult clash? (Exec.execute code word { s with steps := s.steps + 1 }) := by
  cases hword : code[s.ip]? with
  | none =>
    rw [turn, hword]
    exact .inl ⟨rfl, fun t ht ↦ by cases ht⟩
  | some word =>
    cases hlimit : limitReached? limit s.steps with
    | none => exact .inr ⟨word, rfl, course_turn hword hlimit⟩
    | some l =>
      simp only [turn, hword, hlimit]
      exact .inl ⟨rfl, fun t ht ↦ by cases ht⟩

/-- **What a turn leaves alone**, unless the instruction is a `sw`.  This includes turns
that end in a fault. -/
theorem near_turn (h : s.Within m code.size)
    (hsw : code[s.ip]? ≠ some (Opcode.plain .storeWord).word) :
    s.Near code.size (s.turn limit code).course.state := by
  rcases turn_cases limit code s with ⟨hstate, -⟩ | ⟨word, hword, hturn⟩
  · rw [hstate]
    exact h.reading.near
  · rw [hturn]
    have hends := Exec.ends_execute word (h.started.reading) (fun _ ↦ Reading.near)
      (Array.getElem?_eq_some_iff.1 hword).1 (fun op hop ↦ ?_)
      fun v ↦ Exec.ensures_push (fun _ ↦ Reading.near) v
    · have hnear := hends.state clash?
      exact ⟨⟨hnear.size, hnear.sp, hnear.ip⟩, hnear.cells⟩
    · refine Exec.ensures_operation _ fun hstore ↦ hsw ?_
      rw [hword, ← Opcode.ofWord?_eq_some_iff.1 hop, hstore]

/-- **Stack pointer and counter stay in range in a turn**, and stack and heap stay apart, or
else the run ends. -/
theorem sound_turn (h : s.Within m code.size) : (s.turn limit code).course.Sound m code.size := by
  rcases turn_cases limit code s with ⟨hstate, hend⟩ | ⟨word, hword, hturn⟩
  · exact ⟨by rw [hstate]; exact h, fun t ht ↦ absurd ht (hend t)⟩
  · rw [hturn]
    have hwithin : ∀ u t : State, u.Near code.size t → t.Within u.memory.size code.size :=
      fun _ _ hn ↦ hn.toWithin
    have hends := Exec.ends_execute word h.started.reading (fun t ht ↦ hwithin _ t ht.near)
      (Array.getElem?_eq_some_iff.1 hword).1 (fun op _ ↦ ?_)
      fun v ↦ (Exec.ensures_push (fun _ ↦ Reading.near) v).imp (hwithin _) (hwithin _)
    · refine ⟨h.size ▸ hends.state clash?, fun t ht ↦ ?_⟩
      have hclash := Course.clash?_of_running ht
      rw [clash?] at hclash
      split at hclash
      · cases hclash
      · omega
    · by_cases hop : op = .storeWord
      · rw [hop]
        exact Exec.ensures_storeWord _
      · exact (Exec.ensures_operation _ hop).imp (hwithin _) (hwithin _)

/-- **Stack, heap and counter are where they belong after every number of turns**, whatever the
words of the code are. -/
theorem sound_courseAfter (h : s.Within m code.size) (hapart : s.hp.toInt < s.sp) (n : Nat) :
    (s.courseAfter limit code n).Sound m code.size := by
  induction n with
  | zero =>
    refine ⟨h, ?_⟩
    rintro _ ⟨⟩
    exact hapart
  | succ n ih =>
    rw [courseAfter] at ih ⊢
    rw [Course.after]
    generalize Course.after (fun s ↦ (turn limit code s).course) n s = c at ih
    rcases c with t | t | ⟨f, t⟩
    · exact sound_turn ih.within
    · exact ih
    · exact ih

end State

end ObjectLet
