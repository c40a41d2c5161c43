import Mathlib.Tactic.Simps.Basic
import ObjectLet.Proofs.Bounds
import ObjectLet.Proofs.Cutoffs

/-!
# Stretches of code

What some instructions in a row do to the machine is put together from what each of them does.  The
states are those of the machine itself here, whatever its registers hold, so every instruction also
has its conditions: values on the stack, addresses in the memory, and room for what is pushed.

* `State.Reaches`: how far a run gets, whatever limit allows it as many instructions.
* `State.Runs`, `State.Jams`: what happens wherever the instructions stand in a program.  They take
  the machine from one state to another, or stack and heap collide on the way.
* `State.Runs.append`, `State.Runs.jams`: **one stretch after the other.**
-/

set_option autoImplicit false

namespace ObjectLet

/-! ## How far a run gets -/

/-- More turns go on from where the first ones have led. -/
theorem Course.after_add {σ φ : Type} (turn : σ → Course σ φ) (m n : Nat) (s : σ) :
    after turn (m + n) s = match after turn m s with
      | .running t => after turn n t
      | c => c := by
  induction n with
  | zero => cases after turn m s <;> rfl
  | succ n ih =>
    rw [← Nat.add_assoc, after, ih]
    cases after turn m s <;> rfl

namespace Memory

theorem get_set_self (m : Memory) (a : Nat) (v : Int32) : (m.set a v).get a = v := by
  rw [get_set, if_pos rfl]

theorem get_set_of_ne (m : Memory) {a b : Nat} (h : b ≠ a) (v : Int32) :
    (m.set a v).get b = m.get b := by
  rw [get_set, if_neg h]

end Memory

namespace State

variable {code : Array Int32} {s t u : State} {c : Course State Fault}

/-- A run gets so far, after some turns, whatever limit allows it as many instructions. -/
def Reaches (code : Array Int32) (s : State) (c : Course State Fault) : Prop :=
  ∃ n, ∀ limit : Option Nat, (∀ l ∈ limit, c.state.steps ≤ l) → s.courseAfter limit code n = c

/-- It is enough to consider runs without a limit. -/
theorem reaches_iff : s.Reaches code c ↔ ∃ n, s.courseAfter none code n = c := by
  refine ⟨fun ⟨n, h⟩ ↦ ⟨n, h none nofun⟩, fun ⟨n, h⟩ ↦ ⟨n, fun limit hlimit ↦ ?_⟩⟩
  cases limit with
  | none => exact h
  | some l =>
    have hsteps : (s.courseAfter none code n).state.steps ≤ l := h ▸ hlimit l rfl
    rw [courseAfter_limited hsteps, h]

theorem Reaches.refl (code : Array Int32) (s : State) : s.Reaches code (.running s) :=
  ⟨0, fun _ _ ↦ rfl⟩

theorem Reaches.trans (h : s.Reaches code (.running t)) (h' : t.Reaches code c) :
    s.Reaches code c := by
  obtain ⟨m, hm⟩ := reaches_iff.1 h
  obtain ⟨n, hn⟩ := reaches_iff.1 h'
  refine reaches_iff.2 ⟨m + n, ?_⟩
  rw [courseAfter] at hm ⊢
  rw [Course.after_add, hm]
  exact hn

theorem Reaches.of_turn (h : (s.turn none code).course = c) : s.Reaches code c :=
  reaches_iff.2 ⟨1, h⟩

/-- Where a run gets, stack pointer and counter are in range, and stack and heap are apart. -/
theorem Reaches.sound {m : Nat} (h : s.Reaches code c) (hs : s.Within m code.size)
    (hapart : s.hp.toInt < s.sp) : c.Sound m code.size := by
  obtain ⟨n, rfl⟩ := reaches_iff.1 h
  exact sound_courseAfter hs hapart n

/-! ## Parts of instructions -/

/-- The machine has started an instruction of some words and passed over it. -/
@[simps] def past (s : State) (words : Nat) : State :=
  { s with ip := s.ip + words, steps := s.steps + 1 }

/-- Some values are taken off the stack. -/
@[simps] def dropped (s : State) (n : Nat) : State := { s with sp := s.sp + n }

/-- A value is put on the stack. -/
@[simps] def pushed (s : State) (v : Int32) : State :=
  { s with sp := s.sp - 1, memory := s.memory.set (s.sp - 1) v }

/-- The value on top of the stack. -/
def top (s : State) : Int32 := s.memory.get s.sp

/-- There is room for another value between heap and stack. -/
def HasRoom (s : State) : Prop := s.hp.toInt + 1 < s.sp ∧ 0 < s.sp

instance (s : State) : Decidable s.HasRoom := inferInstanceAs (Decidable (_ ∧ _))

/-- Some values are on the stack, which is above the heap.  This is enough to take them off, but not
to put others there. -/
structure Holds (s : State) (n : Nat) : Prop where
  /-- The values are in the memory. -/
  within : s.sp + n ≤ s.memory.size
  /-- They are above the heap. -/
  apart : s.hp.toInt < s.sp

theorem HasRoom.past (h : s.HasRoom) (words : Nat) : (s.past words).HasRoom := h

theorem HasRoom.pushed_apart (h : s.HasRoom) (v : Int32) :
    (s.pushed v).hp.toInt < (s.pushed v).sp := by
  obtain ⟨happart, hpos⟩ := h
  simp only [pushed_hp, pushed_sp]
  omega

theorem push_of_hasRoom (h : s.HasRoom) (v : Int32) : Exec.push v s = .ok () (s.pushed v) := by
  obtain ⟨happart, hpos⟩ := h
  rw [Exec.push_apply, if_neg (by omega)]
  rfl

theorem push_of_not_hasRoom (h : ¬ s.HasRoom) (v : Int32) :
    Exec.push v s = .error (.collision ((s.sp : Int) - 1) s.hp) s := by
  rw [HasRoom] at h
  rw [Exec.push_apply, if_pos (by omega)]

theorem pop_of_lt (h : s.sp < s.memory.size) (ip : Nat) :
    Exec.pop ip s = .ok s.top (s.dropped 1) := by
  rw [Exec.pop_apply, if_neg (by omega)]
  rfl

theorem cell_of_lt {address : Int32} {a : Nat} (ha : address.toInt = a) (h : a < s.memory.size)
    (ip : Nat) : Exec.cell address ip s = .ok a s := by
  rw [Exec.cell_apply, ha, if_pos (by omega), Int.toNat_natCast]

theorem clash?_of_lt (h : s.hp.toInt < s.sp) : s.clash? = none := by
  rw [clash?, if_neg (by omega)]

/-! ## Single instructions in a program -/

section Placed

variable {prog rest : List Instr} {b : Bytecode}

/-- What becomes of the operation that the counter is at. -/
theorem reaches_plain {op : Operation} (hb : assemble prog = .ok b)
    (hat : CodeAt prog s.ip (.plain op :: rest)) :
    s.Reaches b.code (.ofResult clash? (Exec.operation b.code s.ip op (s.past 1))) := by
  have hword : b.code[s.ip]? = some (Opcode.plain op).word :=
    Assembled.fetch hb hat 0 Nat.one_pos
  refine .of_turn ?_
  rw [course_turn hword rfl, Image.execute_plain]
  rfl

/-- What becomes of the `push` that the counter is at. -/
theorem reaches_push {v : Int32} (hb : assemble prog = .ok b)
    (hat : CodeAt prog s.ip (.push v :: rest)) :
    s.Reaches b.code
      (.ofResult clash? ((Exec.push v >>= fun _ ↦ pure Signal.next) (s.past 2))) := by
  have hword : b.code[s.ip]? = some Opcode.push.word := Assembled.fetch hb hat 0 Nat.two_pos
  have hoperand : b.code[s.ip + 1]? = some v := Assembled.fetch hb hat 1 Nat.one_lt_two
  refine .of_turn ?_
  rw [course_turn hword rfl, Image.execute_push (s := { s with steps := s.steps + 1 }) hoperand]
  rfl

end Placed

/-! ## Stretches -/

/-- Wherever the instructions stand, they take the machine from one state to another one, at their
end. -/
structure Runs (is : List Instr) (s t : State) : Prop where
  /-- The counter is at the end of the instructions. -/
  ip : t.ip = s.ip + codeSize is
  /-- This is where a run from their beginning gets. -/
  reaches : ∀ prog b, assemble prog = .ok b → CodeAt prog s.ip is → s.Reaches b.code (.running t)

/-- Wherever the instructions stand, stack and heap collide before their end.  Where exactly they
collide is left open. -/
def Jams (is : List Instr) (s : State) : Prop :=
  ∀ prog b, assemble prog = .ok b → CodeAt prog s.ip is →
    ∃ a h t, s.Reaches b.code (.faulted (.collision a h) t)

variable {is js : List Instr}

theorem Runs.nil (s : State) : Runs [] s s := ⟨rfl, fun _ _ _ _ ↦ .refl _ s⟩

/-- One stretch after the other. -/
theorem Runs.append (h : Runs is s t) (h' : Runs js t u) : Runs (is ++ js) s u where
  ip := by rw [h'.ip, h.ip, codeSize_append, Nat.add_assoc]
  reaches prog b hb hat := (h.reaches prog b hb hat.left).trans
    (h'.reaches prog b hb (h.ip ▸ hat.right))

theorem Runs.cons {i : Instr} (h : Runs [i] s t) (h' : Runs is t u) : Runs (i :: is) s u :=
  h.append h'

/-- A collision in the second stretch, after the first one has been gone through. -/
theorem Runs.jams (h : Runs is s t) (h' : Jams js t) : Jams (is ++ js) s := by
  intro prog b hb hat
  obtain ⟨a, p, u, hu⟩ := h' prog b hb (h.ip ▸ hat.right)
  exact ⟨a, p, u, (h.reaches prog b hb hat.left).trans hu⟩

/-- A collision in the first stretch, whatever comes after it. -/
theorem Jams.append (h : Jams is s) (js : List Instr) : Jams (is ++ js) s :=
  fun prog b hb hat ↦ h prog b hb hat.left

/-- An operation that has been executed without a fault, and has left stack and heap apart. -/
theorem Runs.plain {op : Operation}
    (h : ∀ code, Exec.operation code s.ip op (s.past 1) = .ok .next t) (hip : t.ip = s.ip + 1)
    (hclear : t.hp.toInt < t.sp) : Runs [.plain op] s t where
  ip := hip
  reaches prog b hb hat := by
    have hreach := reaches_plain hb hat
    rwa [h, Course.ofResult, clash?_of_lt hclear] at hreach

/-- What a `push` comes to as the last part of an instruction. -/
theorem push_next (h : s.HasRoom) (v : Int32) :
    (Exec.push v >>= fun _ ↦ pure Signal.next) s = .ok .next (s.pushed v) :=
  Exec.bind_of_ok (push_of_hasRoom h v) _

theorem push_next_of_not (h : ¬ s.HasRoom) (v : Int32) :
    (Exec.push v >>= fun _ ↦ pure Signal.next) s
      = .error (.collision ((s.sp : Int) - 1) s.hp) s := by
  simp only [bind, EStateM.bind, push_of_not_hasRoom h]

theorem Runs.push (h : s.HasRoom) (v : Int32) : Runs [.push v] s ((s.past 2).pushed v) where
  ip := rfl
  reaches prog b hb hat := by
    have hreach := reaches_push hb hat
    rwa [push_next (h.past 2), Course.ofResult, clash?_of_lt ((h.past 2).pushed_apart v)] at hreach

theorem Jams.push (h : ¬ s.HasRoom) (v : Int32) : Jams [.push v] s := by
  intro prog b hb hat
  have hfull : ¬ (s.past 2).HasRoom := h
  have hreach := reaches_push hb hat
  rw [push_next_of_not hfull] at hreach
  exact ⟨_, _, _, hreach⟩

end State

/-! ## Operations -/

/-- The register that an operation pushes.  The four operations that push one differ in nothing
else. -/
def Operation.source? : Operation → Option (State → Int32)
  | .loadRa => some State.ra
  | .loadTm => some State.tm
  | .loadFp => some State.fp
  | .loadHp => some State.hp
  | _ => none

/-- The register that an operation pops into.  The four operations that pop into one
differ in nothing else. -/
def Operation.sink? : Operation → Option (Int32 → State → State)
  | .storeRa => some fun v s ↦ { s with ra := v }
  | .storeTm => some fun v s ↦ { s with tm := v }
  | .storeFp => some fun v s ↦ { s with fp := v }
  | .storeHp => some fun v s ↦ { s with hp := v }
  | _ => none

namespace State

variable {s t : State} {op : Operation}

/-- A value is stored at an address. -/
@[simps] def stored (s : State) (a : Nat) (v : Int32) : State :=
  { s with memory := s.memory.set a v }

theorem operation_of_source {reg : State → Int32} (h : op.source? = some reg)
    (code : Array Int32) (ip : Nat) (s : State) :
    Exec.operation code ip op s
      = (Exec.push (reg s) >>= fun _ ↦ pure Signal.next) s := by
  cases op <;> cases h <;> rfl

theorem Runs.load (reg : State → Int32) (h : op.source? = some reg) (hroom : s.HasRoom) :
    Runs [.plain op] s ((s.past 1).pushed (reg (s.past 1))) :=
  .plain (fun code ↦ by rw [operation_of_source h, push_next (hroom.past 1)]) rfl
    ((hroom.past 1).pushed_apart _)

theorem Jams.load (reg : State → Int32) (h : op.source? = some reg) (hfull : ¬ s.HasRoom) :
    Jams [.plain op] s := by
  intro prog b hb hat
  have hpast : ¬ (s.past 1).HasRoom := hfull
  have hreach := reaches_plain hb hat
  rw [operation_of_source h, push_next_of_not hpast] at hreach
  exact ⟨_, _, _, hreach⟩

/-- What is taken off the stack makes room. -/
theorem Holds.hasRoom {n : Nat} (h : s.Holds n) (hn : 0 < n) : (s.dropped n).HasRoom := by
  have hapart := h.apart
  constructor
  · simp only [dropped_hp, dropped_sp]
    omega
  · simp only [dropped_sp]
    omega

theorem Holds.pop (h : s.Holds 1) (words ip : Nat) :
    Exec.pop ip (s.past words) = .ok s.top ((s.past words).dropped 1) :=
  pop_of_lt (s := s.past words) h.within ip

theorem Holds.pop_pop {α : Type} (h : s.Holds 2) (words ip : Nat) (f : Int32 → Int32 → Exec α) :
    (do let v1 ← Exec.pop ip; let v2 ← Exec.pop ip; f v1 v2) (s.past words)
      = f s.top (s.memory.get (s.sp + 1)) ((s.past words).dropped 2) := by
  have hwithin := h.within
  have hfirst : Exec.pop ip (s.past words) = .ok s.top ((s.past words).dropped 1) :=
    pop_of_lt (s := s.past words) (by simp only [past_sp, past_memory]; omega) ip
  have hsecond : Exec.pop ip ((s.past words).dropped 1)
      = .ok (s.memory.get (s.sp + 1)) ((s.past words).dropped 2) :=
    pop_of_lt (by simp only [dropped_sp, dropped_memory, past_sp, past_memory]; omega) ip
  rw [Exec.bind_of_ok hfirst, Exec.bind_of_ok hsecond]

theorem Runs.store (put : Int32 → State → State) (h : op.sink? = some put) (hs : s.Holds 1)
    (hclear : (put s.top ((s.past 1).dropped 1)).hp.toInt < s.sp + 1) :
    Runs [.plain op] s (put s.top ((s.past 1).dropped 1)) := by
  refine .plain (fun code ↦ ?_) ?_ ?_
  · cases op <;> cases h <;> exact Exec.bind_of_ok (hs.pop 1 s.ip) _
  · cases op <;> cases h <;> rfl
  · have hsp : (put s.top ((s.past 1).dropped 1)).sp = s.sp + 1 := by cases op <;> cases h <;> rfl
    rw [hsp]
    exact_mod_cast hclear

theorem Runs.pop (h : s.Holds 1) : Runs [.plain .pop] s ((s.past 1).dropped 1) :=
  .plain (fun code ↦ Exec.bind_of_ok (h.pop 1 s.ip) _) rfl
    (by have := h.apart; simp only [dropped_hp, dropped_sp, past_hp, past_sp]; omega)

theorem Runs.add (h : s.Holds 2) : Runs [.plain .add] s
    (((s.past 1).dropped 2).pushed (s.memory.get (s.sp + 1) + s.top)) := by
  have hroom : ((s.past 1).dropped 2).HasRoom := h.hasRoom Nat.two_pos
  refine .plain (fun code ↦ ?_) rfl (hroom.pushed_apart _)
  have hbinary : Exec.binary s.ip (fun v2 v1 ↦ .ok (v2 + v1)) (s.past 1)
      = .ok () (((s.past 1).dropped 2).pushed (s.memory.get (s.sp + 1) + s.top)) :=
    (h.pop_pop 1 s.ip _).trans (push_of_hasRoom hroom _)
  exact Exec.bind_of_ok hbinary _

theorem Runs.storeWord {a : Nat} (h : s.Holds 2) (ha : s.top.toInt = a) (hlt : a < s.memory.size) :
    Runs [.plain .storeWord] s
      (((s.past 1).dropped 2).stored a (s.memory.get (s.sp + 1))) := by
  refine .plain (fun code ↦ ?_) rfl ?_
  · rw [Exec.operation, h.pop_pop, Exec.bind_of_ok (cell_of_lt ha (by exact hlt) s.ip)]
    rfl
  · have := h.apart
    simp only [stored_hp, stored_sp, dropped_hp, dropped_sp, past_hp, past_sp]
    omega

theorem Runs.loadWord {a : Nat} (h : s.Holds 1) (ha : s.top.toInt = a) (hlt : a < s.memory.size) :
    Runs [.plain .loadWord] s (((s.past 1).dropped 1).pushed (s.memory.get a)) := by
  have hroom : ((s.past 1).dropped 1).HasRoom := h.hasRoom Nat.one_pos
  refine .plain (fun code ↦ ?_) rfl (hroom.pushed_apart _)
  rw [Exec.operation, Exec.bind_of_ok (h.pop 1 s.ip),
    Exec.bind_of_ok (cell_of_lt ha (by exact hlt) s.ip)]
  exact push_next hroom _

theorem Runs.copyFp (h : s.hp.toInt < s.sp) :
    Runs [.plain .copyFp] s { s.past 1 with fp := Int32.ofNat s.sp } :=
  .plain (fun _ ↦ rfl) rfl h

theorem Jams.copyFp (h : s.sp ≤ s.hp.toInt) : Jams [.plain .copyFp] s := by
  intro prog b hb hat
  have hreach := reaches_plain hb hat
  have hop : Exec.operation b.code s.ip .copyFp (s.past 1)
      = .ok .next { s.past 1 with fp := Int32.ofNat s.sp } := rfl
  have hclash : clash? { s.past 1 with fp := Int32.ofNat s.sp } = some (.collision s.sp s.hp) :=
    if_pos h
  rw [hop, Course.ofResult, hclash] at hreach
  exact ⟨_, _, _, hreach⟩

theorem Runs.mark (l : Label) (s : State) : Runs [.mark l] s s :=
  ⟨rfl, fun _ _ _ _ ↦ .refl _ s⟩

/-- A jump to an address on the stack, which leaves the address of what comes next in `ra`. -/
theorem reaches_jumpSub {prog rest : List Instr} {b : Bytecode} {a : Nat}
    (hb : assemble prog = .ok b) (hat : CodeAt prog s.ip (.plain .jumpSub :: rest))
    (h : s.Holds 1) (ha : s.top.toInt = a) (hlt : a ≤ b.code.size) :
    s.Reaches b.code
      (.running { (s.past 1).dropped 1 with ra := Int32.ofNat (s.ip + 1), ip := a }) := by
  have hjump : Exec.jump b.code s.top s.ip
      { (s.past 1).dropped 1 with ra := Int32.ofNat (s.ip + 1) }
      = .ok () { (s.past 1).dropped 1 with ra := Int32.ofNat (s.ip + 1), ip := a } := by
    rw [Exec.jump_apply, ha, if_pos (by omega), Int.toNat_natCast]
  have hop : Exec.operation b.code s.ip .jumpSub (s.past 1)
      = .ok .next { (s.past 1).dropped 1 with ra := Int32.ofNat (s.ip + 1), ip := a } :=
    (Exec.bind_of_ok (h.pop 1 s.ip) _).trans (Exec.bind_of_ok hjump _)
  have hreach := reaches_plain hb hat
  rwa [hop, Course.ofResult, clash?_of_lt (by have := h.apart; simp; omega)] at hreach

end State

end ObjectLet
