import ObjectLet.Machine.Run
import ObjectLet.Proofs.Placement

/-!
# Configurations

The machine keeps its stack and its heap in one memory and finds out by comparing `sp` with `hp`
when they meet.  For reasoning about code they are better kept apart: a `Config` has them as two
lists.  A step of a configuration (`Image.Step`) says what an instruction does to the two lists, and
nothing about their size.  The heap is only ever added to: a store goes to the cell at `hp`, which
is written before `hp` is moved over it, and nowhere else.

`Image.Shows m capacity s c` says that the state `s` of a machine looks like the configuration `c`.
`Image.Shows.turn` is the link between the two: **if a configuration can make a step, the machine
makes the same one, unless it runs out of memory, of steps or of output.**
-/

set_option autoImplicit false

namespace ObjectLet

/-! ## Configurations and their steps -/

/-- A program in a machine with memory up to an address.  The program is a list of instructions
here, and addresses in it count the words that they are assembled to. -/
structure Image where
  /-- The program. -/
  prog : List Instr
  /-- The size of the memory, which is the address that the stack grows down from. -/
  top : Nat

/-- A state of the machine with stack and heap apart.  What lies between them is left out, and so is
what an earlier value has left behind above the stack. -/
structure Config where
  /-- The address of the next instruction. -/
  ip : Nat
  /-- The stack, topmost value first. -/
  stack : List Int32
  /-- The cells of the heap from address 0 on. -/
  heap : List Int32
  /-- The first address above the heap; the cell there may have been written already. -/
  hp : Nat
  /-- The frame pointer. -/
  fp : Int32
  /-- The return address. -/
  ra : Int32
  /-- The temporary value. -/
  tm : Int32
  /-- How many instructions have been executed. -/
  steps : Nat
  /-- What has been printed. -/
  printed : List Int32

namespace Config

/-- How many cells are in use. -/
def use (c : Config) : Nat := c.stack.length + c.hp

/-- One instruction has been executed: goes on at an address with another stack.  Everything but
these two is as it was. -/
def move (c : Config) (ip : Nat) (stack : List Int32) : Config :=
  { c with ip, stack, steps := c.steps + 1 }

end Config

namespace Image

/-- The address of the topmost value of a stack. -/
def sp (m : Image) (stack : List Int32) : Int32 := Int32.ofInt (m.top - stack.length)

/-- Where the code of a label begins, as a word. -/
def entry (m : Image) (l : Label) : Int32 := Int32.ofNat (addressOf l m.prog)

/-- What a load finds at an address, given the stack and the heap.  Nothing is found in the cells
between them, whatever they hold. -/
inductive Loads (m : Image) (stack heap : List Int32) : Int32 → Int32 → Prop
  /-- A cell of the heap. -/
  | heap {k : Nat} {v : Int32} (h : heap[k]? = some v) : m.Loads stack heap (Int32.ofNat k) v
  /-- A cell of the stack. -/
  | stack {above below : List Int32} {v : Int32} (h : stack = above ++ v :: below) :
      m.Loads stack heap (m.sp (v :: below)) v

/-- What an instruction does to a configuration.  Which values it finds on the stack is a premise,
so an instruction that lacks some of them does nothing here; nor does a load or a store that goes
anywhere else than to stack and heap. -/
inductive Step (m : Image) : Instr → Config → Config → Prop
  | push {c : Config} (v : Int32) : m.Step (.push v) c (c.move (c.ip + 2) (v :: c.stack))
  | pushLabel {c : Config} (l : Label) :
      m.Step (.pushLabel l) c (c.move (c.ip + 2) (m.entry l :: c.stack))
  | jump {c : Config} (l : Label) :
      m.Step (.jump .always l) c (c.move (addressOf l m.prog) c.stack)
  | ifEq {c : Config} {v1 v2 : Int32} {st : List Int32} (l : Label) (h : c.stack = v1 :: v2 :: st) :
      m.Step (.jump .ifEq l) c (c.move (if v2 = v1 then addressOf l m.prog else c.ip + 2) st)
  | ifLessEq {c : Config} {v1 v2 : Int32} {st : List Int32} (l : Label)
      (h : c.stack = v1 :: v2 :: st) :
      m.Step (.jump .ifLessEq l) c (c.move (if v2 ≤ v1 then addressOf l m.prog else c.ip + 2) st)
  | pop {c : Config} {v : Int32} {st : List Int32} (h : c.stack = v :: st) :
      m.Step (.plain .pop) c (c.move (c.ip + 1) st)
  | add {c : Config} {v1 v2 : Int32} {st : List Int32} (h : c.stack = v1 :: v2 :: st) :
      m.Step (.plain .add) c (c.move (c.ip + 1) ((v2 + v1) :: st))
  | sub {c : Config} {v1 v2 : Int32} {st : List Int32} (h : c.stack = v1 :: v2 :: st) :
      m.Step (.plain .sub) c (c.move (c.ip + 1) ((v2 - v1) :: st))
  | mult {c : Config} {v1 v2 : Int32} {st : List Int32} (h : c.stack = v1 :: v2 :: st) :
      m.Step (.plain .mult) c (c.move (c.ip + 1) ((v2 * v1) :: st))
  | div {c : Config} {v1 v2 : Int32} {st : List Int32} (h : c.stack = v1 :: v2 :: st)
      (hne : v1 ≠ 0) : m.Step (.plain .div) c (c.move (c.ip + 1) ((v2 / v1) :: st))
  | store {c : Config} {v : Int32} {st : List Int32} (h : c.stack = Int32.ofNat c.hp :: v :: st)
      (hlen : c.heap.length = c.hp) :
      m.Step (.plain .storeWord) c { c.move (c.ip + 1) st with heap := c.heap ++ [v] }
  | load {c : Config} {a v : Int32} {st : List Int32} (h : c.stack = a :: st)
      (hl : m.Loads st c.heap a v) : m.Step (.plain .loadWord) c (c.move (c.ip + 1) (v :: st))
  | jumpSub {c : Config} {target : Nat} {st : List Int32} (h : c.stack = Int32.ofNat target :: st)
      (hle : target ≤ codeSize m.prog) :
      m.Step (.plain .jumpSub) c { c.move target st with ra := Int32.ofNat (c.ip + 1) }
  | loadRa {c : Config} : m.Step (.plain .loadRa) c (c.move (c.ip + 1) (c.ra :: c.stack))
  | storeRa {c : Config} {v : Int32} {st : List Int32} (h : c.stack = v :: st) :
      m.Step (.plain .storeRa) c { c.move (c.ip + 1) st with ra := v }
  | loadTm {c : Config} : m.Step (.plain .loadTm) c (c.move (c.ip + 1) (c.tm :: c.stack))
  | storeTm {c : Config} {v : Int32} {st : List Int32} (h : c.stack = v :: st) :
      m.Step (.plain .storeTm) c { c.move (c.ip + 1) st with tm := v }
  | loadFp {c : Config} : m.Step (.plain .loadFp) c (c.move (c.ip + 1) (c.fp :: c.stack))
  | storeFp {c : Config} {v : Int32} {st : List Int32} (h : c.stack = v :: st) :
      m.Step (.plain .storeFp) c { c.move (c.ip + 1) st with fp := v }
  | copyFp {c : Config} :
      m.Step (.plain .copyFp) c { c.move (c.ip + 1) c.stack with fp := m.sp c.stack }
  | loadHp {c : Config} :
      m.Step (.plain .loadHp) c (c.move (c.ip + 1) (Int32.ofNat c.hp :: c.stack))
  | storeHp {c : Config} {st : List Int32} (h : c.stack = Int32.ofNat (c.hp + 1) :: st)
      (hlen : c.heap.length = c.hp + 1) :
      m.Step (.plain .storeHp) c { c.move (c.ip + 1) st with hp := c.hp + 1 }
  | print {c : Config} {v : Int32} {st : List Int32} (h : c.stack = v :: st) :
      m.Step (.plain .print) c { c.move (c.ip + 1) st with printed := c.printed ++ [v] }

/-! ## Configurations and states -/

/-- The lines that some printed values make. -/
def lines (printed : List Int32) : List Line := printed.map .value

/-- A state looks like a configuration: registers and counters are the same, and the cells of stack
and heap hold what the two lists say.  Nothing is said about other cells. -/
structure Shows (m : Image) (capacity : Option Nat) (s : State) (c : Config) : Prop where
  /-- The size of the memory. -/
  size : s.memory.size = m.top
  /-- The next instruction. -/
  ip : s.ip = c.ip
  /-- The height of the stack. -/
  sp : s.sp + c.stack.length = m.top
  /-- The size of the heap. -/
  hp : s.hp = Int32.ofNat c.hp
  /-- The frame pointer. -/
  fp : s.fp = c.fp
  /-- The return address. -/
  ra : s.ra = c.ra
  /-- The temporary value. -/
  tm : s.tm = c.tm
  /-- The number of instructions. -/
  steps : s.steps = c.steps
  /-- Stack and heap are apart. -/
  fits : c.use < m.top
  /-- At most one cell of the heap is written ahead of `hp`. -/
  pending : c.heap.length = c.hp ∨ c.heap.length = c.hp + 1
  /-- What is on the stack. -/
  stack : ∀ i v, c.stack[i]? = some v → s.memory.get (s.sp + i) = v
  /-- What is on the heap. -/
  heap : ∀ i v, c.heap[i]? = some v → s.memory.get i = v
  /-- What has been printed. -/
  lines : s.output.lines.toList = Image.lines c.printed
  /-- How much can be printed. -/
  capacity : s.output.capacity = capacity

end Image

/-- One state leaves the heap of another one as it is, and may add to it. -/
structure State.Keeps (s t : State) : Prop where
  /-- The heap does not shrink. -/
  hp : s.hp.toInt ≤ t.hp.toInt
  /-- No cell of the heap is overwritten. -/
  heap : ∀ a : Nat, (a : Int) < s.hp.toInt → t.memory.get a = s.memory.get a

theorem State.Keeps.of_same {s t : State} (hm : t.memory = s.memory) (hhp : t.hp = s.hp) :
    s.Keeps t :=
  ⟨Int.le_of_eq (by rw [hhp]), fun _ _ ↦ by rw [hm]⟩

theorem State.Keeps.refl (s : State) : s.Keeps s := .of_same rfl rfl

namespace Image

variable {m : Image} {capacity : Option Nat} {s : State} {c d : Config}

/-- A computation of the machine does what leads from one configuration to another one, unless it
runs out of memory or output. -/
inductive Effect (m : Image) (capacity : Option Nat) (s : State) (c d : Config) {α : Type} (a : α) :
    EStateM.Result Fault State α → Prop
  /-- It is done. -/
  | done {t : State} (shows' : m.Shows capacity t d) (keeps : s.Keeps t) :
      m.Effect capacity s c d a (.ok a t)
  /-- The stack has met the heap. -/
  | collision {t : State} {sp : Int} {hp : Int32} (full : m.top ≤ d.use)
      (lines : t.output.lines.toList = Image.lines c.printed) (keeps : s.Keeps t) :
      m.Effect capacity s c d a (.error (.collision sp hp) t)
  /-- No more output is accepted. -/
  | closed {t : State} (limited : capacity ≠ none)
      (lines : t.output.lines.toList = Image.lines c.printed) (keeps : s.Keeps t) :
      m.Effect capacity s c d a (.error .outputClosed t)

namespace Shows

theorem toInt_hp (h : m.Shows capacity s c) (htop : m.top < 2 ^ 31) : s.hp.toInt = c.hp := by
  have := h.fits
  rw [Config.use] at this
  rw [h.hp, Int32.toInt_ofNat_of_lt (by omega)]

/-- The machine has started to execute an instruction and is about to go on at an address. -/
theorem start (h : m.Shows capacity s c) (ip : Nat) :
    m.Shows capacity { s with steps := s.steps + 1, ip } { c with steps := c.steps + 1, ip } :=
  { h with ip := rfl, steps := congrArg (· + 1) h.steps }

/-- A value is taken off the stack. -/
theorem pop_eq {v : Int32} {st : List Int32} (h : m.Shows capacity s c) (hs : c.stack = v :: st)
    (ip : Nat) :
    Exec.pop ip s = .ok v { s with sp := s.sp + 1 } ∧
      m.Shows capacity { s with sp := s.sp + 1 } { c with stack := st } := by
  have hsp := h.sp
  have hsize := h.size
  have hfits := h.fits
  rw [hs, List.length_cons] at hsp
  rw [Config.use, hs, List.length_cons] at hfits
  constructor
  · rw [Exec.pop_apply, if_neg (by omega), ← h.stack 0 v (by rw [hs]; rfl)]
    rfl
  · refine { h with sp := by simp only; omega, fits := by simp only [Config.use]; omega,
                    stack := fun i w hi ↦ ?_ }
    have := h.stack (i + 1) w (by rw [hs]; exact hi)
    rwa [← Nat.add_assoc, Nat.add_right_comm] at this

/-- A value is put on the stack, if there is room. -/
theorem effect_push (h : m.Shows capacity s c) (htop : m.top < 2 ^ 31) (v : Int32) :
    m.Effect capacity s c { c with stack := v :: c.stack } () (Exec.push v s) := by
  have hsp := h.sp
  have hfits := h.fits
  have hhp := h.toInt_hp htop
  have hpending := h.pending
  rw [Config.use] at hfits
  rw [Exec.push_apply, hhp]
  by_cases hfull : m.top ≤ c.stack.length + c.hp + 1
  · rw [if_pos (by omega)]
    exact .collision (by simp only [Config.use, List.length_cons]; omega) h.lines (.refl s)
  · rw [if_neg (by omega)]
    refine .done ?_ ⟨Int.le_refl _, fun a ha ↦ ?_⟩
    · refine { h with
        sp := by simp only [List.length_cons]; omega
        fits := by simp only [Config.use, List.length_cons]; omega
        stack := fun i w hi ↦ ?_
        heap := fun i w hi ↦ ?_ }
      · simp only [Memory.get_set]
        cases i with
        | zero =>
          rw [Nat.add_zero, if_pos rfl]
          exact Option.some.inj hi
        | succ i =>
          rw [if_neg (by omega)]
          have := h.stack i w hi
          rwa [show s.sp - 1 + (i + 1) = s.sp + i by omega]
      · have hlt : i < c.heap.length := (List.getElem?_eq_some_iff.1 hi).1
        simp only [Memory.get_set]
        rw [if_neg (by omega)]
        exact h.heap i w hi
    · rw [hhp] at ha
      simp only [Memory.get_set]
      rw [if_neg (by omega)]

/-- A load finds what the configuration has at the address. -/
theorem cell_eq {a v : Int32} (h : m.Shows capacity s c) (htop : m.top < 2 ^ 31)
    (hl : m.Loads c.stack c.heap a v) (ip : Nat) :
    ∃ k, Exec.cell a ip s = .ok k s ∧ s.memory.get k = v := by
  have hsp := h.sp
  have hsize := h.size
  have hfits := h.fits
  have hpending := h.pending
  rw [Config.use] at hfits
  cases hl with
  | @heap k v hk =>
    have hlt : k < c.heap.length := (List.getElem?_eq_some_iff.1 hk).1
    have hint : (Int32.ofNat k).toInt = k := Int32.toInt_ofNat_of_lt (by omega)
    refine ⟨k, ?_, h.heap k v hk⟩
    rw [Exec.cell_apply, hint, if_pos (by omega), Int.toNat_natCast]
  | @stack above below v hst =>
    have hlen : c.stack.length = above.length + (below.length + 1) := by
      rw [hst, List.length_append, List.length_cons]
    have hint : (m.sp (v :: below)).toInt = ((s.sp + above.length : Nat) : Int) := by
      rw [Image.sp, Int32.toInt_ofInt_of_le] <;> simp only [List.length_cons] <;> omega
    refine ⟨s.sp + above.length, ?_, h.stack _ v (by rw [hst]; simp)⟩
    rw [Exec.cell_apply, hint, if_pos (by omega), Int.toNat_natCast]

/-- A value is stored in the cell next to the heap. -/
theorem store (h : m.Shows capacity s c) (htop : m.top < 2 ^ 31) (hlen : c.heap.length = c.hp)
    (v : Int32) (ip : Nat) :
    Exec.cell (Int32.ofNat c.hp) ip s = .ok c.hp s ∧
      m.Shows capacity { s with memory := s.memory.set c.hp v } { c with heap := c.heap ++ [v] } ∧
      s.Keeps { s with memory := s.memory.set c.hp v } := by
  have hsp := h.sp
  have hsize := h.size
  have hfits := h.fits
  have hhp := h.toInt_hp htop
  rw [Config.use] at hfits
  have hint : (Int32.ofNat c.hp).toInt = c.hp := Int32.toInt_ofNat_of_lt (by omega)
  refine ⟨by rw [Exec.cell_apply, hint, if_pos (by omega), Int.toNat_natCast], ?_,
    Int.le_refl _, fun a ha ↦ ?_⟩
  · refine { h with
      pending := .inr (by simp [hlen])
      stack := fun i w hi ↦ ?_
      heap := fun i w hi ↦ ?_ }
    · have hlt : i < c.stack.length := (List.getElem?_eq_some_iff.1 hi).1
      simp only [Memory.get_set]
      rw [if_neg (by omega)]
      exact h.stack i w hi
    · simp only [Memory.get_set]
      by_cases hlast : i = c.hp
      · subst hlast
        rw [if_pos rfl]
        rw [List.getElem?_append_right (by omega), hlen, Nat.sub_self] at hi
        exact Option.some.inj hi
      · have hlt : i < (c.heap ++ [v]).length := (List.getElem?_eq_some_iff.1 hi).1
        rw [List.length_append, List.length_singleton] at hlt
        rw [if_neg hlast]
        rw [List.getElem?_append_left (by omega)] at hi
        exact h.heap i w hi
  · rw [hhp] at ha
    simp only [Memory.get_set]
    rw [if_neg (by omega)]

/-- A line is written, if it is accepted. -/
theorem effect_print (h : m.Shows capacity s c) (v : Int32) :
    m.Effect capacity s c { c with printed := c.printed ++ [v] } () (Exec.write (.value v) s) := by
  have hcap := h.capacity
  rw [Exec.write_apply, Output.write?]
  split
  · rename_i output hw
    split at hw
    · obtain rfl := Option.some.inj hw
      refine .done { h with lines := ?_, capacity := hcap } ⟨Int.le_refl _, fun _ _ ↦ rfl⟩
      simp [h.lines, Image.lines]
    · cases hw
  · rename_i hw
    split at hw
    · cases hw
    · rename_i hroom
      refine .closed (fun hnone ↦ hroom ?_) h.lines (.refl s)
      rw [Output.hasRoom, hcap, hnone]

end Shows

/-! ## Turns -/

section Turns

variable {b : Bytecode} {i : Instr} {rest : List Instr}

theorem execute_plain (code : Array Int32) (op : Operation) (s : State) :
    Exec.execute code (Opcode.plain op).word s
      = Exec.operation code s.ip op { s with ip := s.ip + 1 } := by
  simp only [Exec.execute, Opcode.ofWord?_word, Exec.get_bind, Exec.modify_bind]

theorem operand_eq {code : Array Int32} {w : Int32} {s : State} (h : code[s.ip]? = some w)
    (ip : Nat) : Exec.operand code ip s = .ok w { s with ip := s.ip + 1 } := by
  simp only [Exec.operand, Exec.get_bind, h]
  rfl

theorem execute_push {code : Array Int32} {v : Int32} {s : State}
    (h : code[s.ip + 1]? = some v) :
    Exec.execute code Opcode.push.word s
      = (Exec.push v >>= fun _ ↦ pure Signal.next) { s with ip := s.ip + 2 } := by
  have hoperand := operand_eq (s := { s with ip := s.ip + 1 }) h s.ip
  simp only [Exec.execute, Opcode.ofWord?_word, Exec.get_bind, Exec.modify_bind]
  rw [Exec.bind_of_ok hoperand]

/-- A jump the operand of which has been read, and whose values are still on the stack. -/
def Exec.jumpTo (code : Array Int32) (target : Int32) (ip : Nat) : Jump → Exec Unit
  | .always => Exec.jump code target ip
  | .ifEq => do
    let v1 ← Exec.pop ip
    let v2 ← Exec.pop ip
    if v2 = v1 then Exec.jump code target ip
  | .ifLessEq => do
    let v1 ← Exec.pop ip
    let v2 ← Exec.pop ip
    if v2 ≤ v1 then Exec.jump code target ip

theorem Exec.jumpIf_eq (code : Array Int32) (ip : Nat) (j : Jump) :
    Exec.jumpIf code ip j = (do
      let target ← Exec.operand code ip
      Exec.jumpTo code target ip j) := by
  cases j <;> rfl

theorem jump_eq {code : Array Int32} {target : Nat} (h : target ≤ code.size)
    (hsmall : code.size < 2 ^ 31) (ip : Nat) (s : State) :
    Exec.jump code (Int32.ofNat target) ip s = .ok () { s with ip := target } := by
  have hint : (Int32.ofNat target).toInt = target := Int32.toInt_ofNat_of_lt (by omega)
  rw [Exec.jump_apply, hint, if_pos (by omega), Int.toNat_natCast]

theorem execute_jump {code : Array Int32} {target : Int32} {s : State} (j : Jump)
    (h : code[s.ip + 1]? = some target) :
    Exec.execute code (Opcode.jump j).word s =
      (Exec.jumpTo code target s.ip j >>= fun _ ↦ pure Signal.next) { s with ip := s.ip + 2 } := by
  have hoperand := operand_eq (s := { s with ip := s.ip + 1 }) h s.ip
  simp only [Exec.execute, Opcode.ofWord?_word, Exec.get_bind, Exec.modify_bind, Exec.jumpIf_eq]
  rw [bind_assoc, Exec.bind_of_ok hoperand]

/-- What a computation does does not depend on what it leaves alone. -/
theorem Effect.of_same {α : Type} {a : α} {r : EStateM.Result Fault State α} {s' : State}
    {c' : Config} (h : m.Effect capacity s' c' d a r) (hm : s'.memory = s.memory)
    (hhp : s'.hp = s.hp) (hp : c'.printed = c.printed) : m.Effect capacity s c d a r := by
  have hkeeps : ∀ {t}, s'.Keeps t → s.Keeps t := fun hk ↦
    ⟨hhp ▸ hk.hp, fun a ha ↦ hm ▸ hk.heap a (hhp ▸ ha)⟩
  cases h with
  | done shows' keeps => exact .done shows' (hkeeps keeps)
  | collision full lines keeps => exact .collision full (hp ▸ lines) (hkeeps keeps)
  | closed limited lines keeps => exact .closed limited (hp ▸ lines) (hkeeps keeps)

theorem Effect.next {x : Exec Unit} (h : m.Effect capacity s c d () (x s)) :
    m.Effect capacity s c d Signal.next ((x >>= fun _ ↦ pure Signal.next) s) := by
  simp only [bind, EStateM.bind]
  cases hr : x s with
  | ok a t =>
    rw [hr] at h
    cases h with
    | done shows' keeps => exact .done shows' keeps
  | error e t =>
    rw [hr] at h
    cases h with
    | collision full lines keeps => exact .collision full lines keeps
    | closed limited lines keeps => exact .closed limited lines keeps

/-- An operation on the two topmost values.  The cells that they were in still hold them, but are
not on the stack any more. -/
theorem Shows.effect_binary {v1 v2 v : Int32} {st : List Int32}
    {op : Int32 → Int32 → Except Fault Int32} (h : m.Shows capacity s c) (htop : m.top < 2 ^ 31)
    (hs : c.stack = v1 :: v2 :: st) (hop : op v2 v1 = .ok v) (ip : Nat) :
    m.Effect capacity s c { c with stack := v :: st } () (Exec.binary ip op s) := by
  obtain ⟨hpop, h₁⟩ := h.pop_eq hs ip
  obtain ⟨hpop', h₂⟩ := h₁.pop_eq (Eq.refl (v2 :: st)) ip
  simp only [Exec.binary, bind, EStateM.bind, hpop, hpop', hop]
  exact .of_same (h₂.effect_push htop v) rfl rfl rfl

/-- A test of the two topmost values, and a jump if it holds. -/
theorem Shows.effect_test {v1 v2 : Int32} {st : List Int32} {test : Int32 → Int32 → Prop}
    [∀ a b, Decidable (test a b)] {code : Array Int32} {target : Nat}
    (h : m.Shows capacity s c) (hs : c.stack = v1 :: v2 :: st) (hle : target ≤ code.size)
    (hsmall : code.size < 2 ^ 31) (ip : Nat) :
    m.Effect capacity s c
      { c with stack := st, ip := if test v2 v1 then target else c.ip } ()
      ((do
        let v1 ← Exec.pop ip
        let v2 ← Exec.pop ip
        if test v2 v1 then Exec.jump code (Int32.ofNat target) ip : Exec Unit) s) := by
  obtain ⟨hpop, h₁⟩ := h.pop_eq hs ip
  obtain ⟨hpop', h₂⟩ := h₁.pop_eq (Eq.refl (v2 :: st)) ip
  simp only [bind, EStateM.bind, hpop, hpop']
  split
  · rw [jump_eq hle hsmall]
    exact .done { h₂ with ip := rfl } ⟨Int.le_refl _, fun _ _ ↦ rfl⟩
  · exact .done h₂ ⟨Int.le_refl _, fun _ _ ↦ rfl⟩

/-- What an operation without an operand does, once the machine is behind it. -/
theorem Shows.effect_operation {code : Array Int32} {op : Operation} (h : m.Shows capacity s c)
    (htop : m.top < 2 ^ 31) (hsize : code.size = codeSize m.prog) (hsmall : code.size < 2 ^ 31)
    (hstep : m.Step (.plain op) c d) :
    m.Effect capacity s c d Signal.next
      (Exec.operation code c.ip op { s with steps := s.steps + 1, ip := c.ip + 1 }) := by
  have h₁ := h.start (c.ip + 1)
  have loaded : ∀ {v w : Int32}, v = w →
      m.Effect capacity s c (c.move (c.ip + 1) (w :: c.stack)) Signal.next
        ((Exec.push v >>= fun _ ↦ pure Signal.next)
          { s with steps := s.steps + 1, ip := c.ip + 1 }) := by
    rintro v w rfl
    exact .of_same (Effect.next (h₁.effect_push htop v)) rfl rfl rfl
  cases hstep with
  | pop hs =>
    obtain ⟨hpop, h'⟩ := h₁.pop_eq hs c.ip
    simp only [Exec.operation, bind, EStateM.bind, hpop]
    exact .done h' (.of_same rfl rfl)
  | add hs =>
    exact .of_same (Effect.next (h₁.effect_binary htop hs rfl _)) rfl rfl rfl
  | sub hs =>
    exact .of_same (Effect.next (h₁.effect_binary htop hs rfl _)) rfl rfl rfl
  | mult hs =>
    exact .of_same (Effect.next (h₁.effect_binary htop hs rfl _)) rfl rfl rfl
  | div hs hne =>
    refine .of_same (Effect.next (h₁.effect_binary htop hs ?_ _)) rfl rfl rfl
    rw [divide, if_neg hne]
  | store hs hlen =>
    obtain ⟨hpop, h₃⟩ := h₁.pop_eq hs c.ip
    obtain ⟨hpop', h₄⟩ := h₃.pop_eq (Eq.refl (_ :: _)) c.ip
    obtain ⟨hcell, h₅, hkeeps⟩ := h₄.store htop hlen _ c.ip
    simp only [Exec.operation, bind, EStateM.bind, hpop, hpop', hcell]
    exact .of_same (.done h₅ hkeeps) rfl rfl rfl
  | load hs hl =>
    obtain ⟨hpop, h₃⟩ := h₁.pop_eq hs c.ip
    obtain ⟨k, hcell, rfl⟩ := h₃.cell_eq htop hl c.ip
    simp only [Exec.operation, bind, EStateM.bind, hpop, hcell]
    exact .of_same (Effect.next (h₃.effect_push htop _)) rfl rfl rfl
  | jumpSub hs hle =>
    obtain ⟨hpop, h₃⟩ := h₁.pop_eq hs c.ip
    simp only [Exec.operation, bind, EStateM.bind, hpop, jump_eq (hsize ▸ hle) hsmall]
    exact .done { h₃ with ip := rfl, ra := rfl } (.of_same rfl rfl)
  | loadRa => exact loaded h.ra
  | storeRa hs =>
    obtain ⟨hpop, h'⟩ := h₁.pop_eq hs c.ip
    simp only [Exec.operation, bind, EStateM.bind, hpop]
    exact .done { h' with ra := rfl } (.of_same rfl rfl)
  | loadTm => exact loaded h.tm
  | storeTm hs =>
    obtain ⟨hpop, h'⟩ := h₁.pop_eq hs c.ip
    simp only [Exec.operation, bind, EStateM.bind, hpop]
    exact .done { h' with tm := rfl } (.of_same rfl rfl)
  | loadFp => exact loaded h.fp
  | storeFp hs =>
    obtain ⟨hpop, h'⟩ := h₁.pop_eq hs c.ip
    simp only [Exec.operation, bind, EStateM.bind, hpop]
    exact .done { h' with fp := rfl } (.of_same rfl rfl)
  | copyFp =>
    refine .done { h₁ with fp := ?_ } (.of_same rfl rfl)
    have hsp := h.sp
    rw [Image.sp, show ((m.top : Int) - c.stack.length) = s.sp by omega]
    rfl
  | loadHp => exact loaded h.hp
  | storeHp hs hlen =>
    obtain ⟨hpop, h'⟩ := h₁.pop_eq hs c.ip
    have hfits := h.fits
    rw [Config.use, hs, List.length_cons] at hfits
    have hint : (Int32.ofNat (c.hp + 1)).toInt = (c.hp + 1 : Nat) :=
      Int32.toInt_ofNat_of_lt (by omega)
    simp only [Exec.operation, bind, EStateM.bind, hpop]
    refine .done { h' with hp := rfl, fits := ?_, pending := .inl hlen } ⟨?_, fun _ _ ↦ rfl⟩
    · simp only [Config.use, Config.move]
      omega
    · rw [h.toInt_hp htop]
      show (c.hp : Int) ≤ (Int32.ofNat (c.hp + 1)).toInt
      omega
  | @print _ v st hs =>
    refine .of_same (Effect.next ?_) rfl rfl (Eq.refl c.printed)
    obtain ⟨hpop, h'⟩ := h₁.pop_eq hs c.ip
    have hsp := h.sp
    have hsize := h.size
    rw [hs, List.length_cons] at hsp
    have hprint : Exec.print c.ip { s with steps := s.steps + 1, ip := c.ip + 1 }
        = Exec.write (.value v)
          { s with steps := s.steps + 1, ip := c.ip + 1, sp := s.sp + 1 } := by
      simp only [Exec.print, Exec.get_bind]
      rw [if_neg (by omega), Exec.bind_of_ok hpop]
    rw [hprint]
    exact .of_same (h'.effect_print v) rfl rfl rfl

/-- What a word of code does is what the instruction there does. -/
theorem Shows.effect_execute (h : m.Shows capacity s c) (htop : m.top < 2 ^ 31)
    (hb : assemble m.prog = .ok b) (hsmall : codeSize m.prog < 2 ^ 31)
    (hat : CodeAt m.prog c.ip (i :: rest)) (hstep : m.Step i c d) :
    ∃ word, b.code[s.ip]? = some word ∧
      m.Effect capacity s c d Signal.next
        (Exec.execute b.code word { s with steps := s.steps + 1 }) := by
  have hip := h.ip
  have hsize := Assembled.size_eq hb
  have hfetch := fun k hk ↦ hip ▸ Assembled.fetch hb hat k hk
  have h₂ := h.start (c.ip + 2)
  rw [← hsize] at hsmall
  have hle : ∀ l, addressOf l m.prog ≤ b.code.size := fun l ↦ hsize ▸ addressOf_le l m.prog
  cases i with
  | plain op =>
    refine ⟨_, hfetch 0 Nat.one_pos, ?_⟩
    rw [execute_plain, hip]
    exact h.effect_operation htop hsize hsmall hstep
  | mark l => cases hstep
  | push v =>
    cases hstep
    refine ⟨_, hfetch 0 Nat.two_pos, ?_⟩
    rw [execute_push (s := { s with steps := s.steps + 1 }) (hfetch 1 Nat.one_lt_two), hip]
    exact .of_same (Effect.next (h₂.effect_push htop v)) rfl rfl rfl
  | pushLabel l =>
    cases hstep
    refine ⟨_, hfetch 0 Nat.two_pos, ?_⟩
    rw [execute_push (s := { s with steps := s.steps + 1 }) (hfetch 1 Nat.one_lt_two), hip]
    exact .of_same (Effect.next (h₂.effect_push htop _)) rfl rfl rfl
  | jump j l =>
    refine ⟨_, hfetch 0 Nat.two_pos, ?_⟩
    rw [execute_jump (s := { s with steps := s.steps + 1 }) j (hfetch 1 Nat.one_lt_two), hip]
    cases hstep with
    | jump =>
      refine .of_same (Effect.next ?_) rfl rfl (Eq.refl c.printed)
      rw [Exec.jumpTo, jump_eq (hle l) hsmall]
      exact .done (h.start _) (.of_same rfl rfl)
    | ifEq l hs => exact .of_same (Effect.next (h₂.effect_test hs (hle l) hsmall _)) rfl rfl rfl
    | ifLessEq l hs => exact .of_same (Effect.next (h₂.effect_test hs (hle l) hsmall _)) rfl rfl rfl

/-- What a turn of the machine comes to that is to lead from one configuration to another one. -/
inductive Turned (m : Image) (capacity limit : Option Nat) (s : State) (c d : Config) : Turn → Prop
  /-- It does. -/
  | running {t : State} (shows' : m.Shows capacity t d) (keeps : s.Keeps t) :
      m.Turned capacity limit s c d (.running t)
  /-- The stack has met the heap. -/
  | collision {t : State} {sp : Int} {hp : Int32} (full : m.top ≤ d.use)
      (lines : t.output.lines.toList = Image.lines c.printed) (keeps : s.Keeps t) :
      m.Turned capacity limit s c d (.faulted (.collision sp hp) t)
  /-- No more instructions may be executed. -/
  | stopped {n : Nat} (limited : limit ≠ none) :
      m.Turned capacity limit s c d (.faulted (.stepLimitExceeded n) s)
  /-- No more output is accepted. -/
  | closed {t : State} (limited : capacity ≠ none)
      (lines : t.output.lines.toList = Image.lines c.printed) (keeps : s.Keeps t) :
      m.Turned capacity limit s c d (.faulted .outputClosed t)

/-- **If a configuration can make a step, the machine makes the same one**, unless it runs out of
memory, of steps or of output. -/
theorem Shows.turn (h : m.Shows capacity s c) (htop : m.top < 2 ^ 31)
    (hb : assemble m.prog = .ok b) (hsmall : codeSize m.prog < 2 ^ 31)
    (hat : CodeAt m.prog c.ip (i :: rest)) (hstep : m.Step i c d) (limit : Option Nat) :
    m.Turned capacity limit s c d (s.turn limit b.code) := by
  obtain ⟨word, hword, heff⟩ := h.effect_execute htop hb hsmall hat hstep
  simp only [State.turn, hword]
  cases hl : limitReached? limit s.steps with
  | some n =>
    refine .stopped fun hnone ↦ ?_
    rw [hnone] at hl
    cases hl
  | none =>
    simp only [State.perform]
    generalize Exec.execute b.code word { s with steps := s.steps + 1 } = r at heff ⊢
    cases heff with
    | @done t shows' keeps =>
      have hsp := shows'.sp
      have hfits := shows'.fits
      rw [Config.use] at hfits
      simp only [shows'.toInt_hp htop]
      rw [if_neg (by omega)]
      exact .running shows' keeps
    | collision full lines keeps => exact .collision full lines keeps
    | closed limited lines keeps => exact .closed limited lines keeps

end Turns

end Image

/-! ## States that look like configurations -/

/-- Stack and heap of a state are apart, within a memory that words can address.  Then there is a
configuration that the state looks like. -/
structure State.Apart (s : State) : Prop where
  /-- The memory can be addressed. -/
  size : s.memory.size < 2 ^ 31
  /-- The heap is not below the memory. -/
  nonneg : 0 ≤ s.hp.toInt
  /-- The heap is below the stack. -/
  lt : s.hp.toInt < s.sp
  /-- The stack is in the memory. -/
  le : s.sp ≤ s.memory.size

/-- **Every state in which stack and heap are apart looks like a configuration**, if only values
have been printed before it. -/
theorem Image.exists_shows (prog : List Instr) {s : State} (h : s.Apart)
    (hlines : .emptyStack ∉ s.output.lines.toList) :
    ∃ c, Shows ⟨prog, s.memory.size⟩ s.output.capacity s c ∧ c.heap.length = c.hp := by
  obtain ⟨vs, hvs⟩ : ∃ vs, s.output.lines.toList = Image.lines vs := by
    generalize s.output.lines.toList = ls at hlines
    induction ls with
    | nil => exact ⟨[], rfl⟩
    | cons l ls ih =>
      obtain ⟨vs, rfl⟩ := ih fun hmem ↦ hlines (List.mem_cons_of_mem _ hmem)
      cases l with
      | value v => exact ⟨v :: vs, rfl⟩
      | emptyStack => exact absurd List.mem_cons_self hlines
  have hget : ∀ (n i : Nat) (f : Nat → Int32) (v : Int32),
      ((List.range n).map f)[i]? = some v → f i = v := by
    intro n i f v hv
    obtain ⟨hi, hv⟩ := List.getElem?_eq_some_iff.1 hv
    simpa using hv
  have hle := h.le
  have hlt := h.lt
  refine ⟨{
    ip := s.ip
    stack := (List.range (s.memory.size - s.sp)).map fun i ↦ s.memory.get (s.sp + i)
    heap := (List.range s.hp.toInt.toNat).map s.memory.get
    hp := s.hp.toInt.toNat
    fp := s.fp
    ra := s.ra
    tm := s.tm
    steps := s.steps
    printed := vs }, ⟨rfl, rfl, ?_, ?_, rfl, rfl, rfl, rfl, ?_, .inl (by simp),
      fun i v ↦ hget _ i _ v, fun i v ↦ hget _ i _ v, hvs, rfl⟩, by simp⟩
  · simp only [List.length_map, List.length_range]
    omega
  · rw [← Int32.ofInt_eq_ofNat, Int.toNat_of_nonneg h.nonneg, Int32.ofInt_toInt]
  · simp only [Config.use, List.length_map, List.length_range]
    have := h.nonneg
    omega

end ObjectLet
