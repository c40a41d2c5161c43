import ObjectLet.Machine.Fault
import ObjectLet.Machine.Memory
import ObjectLet.Machine.Output

/-!
# The state of the machine

One row of memory cells holds both the stack and the heap.  The stack grows down from the top, with
its topmost value at `sp`; the heap grows up from address 0, and `hp` is the first address above it.
There are registers for the frame (`fp`), a return address (`ra`) and a temporary value (`tm`).

`Exec` is the monad in which one instruction is executed: it changes the state and may end in a
fault, and then keeps the state as it is at that point, with everything that was popped or read
before.  `push` and `pop` are written so that a state with `0 ≤ sp ≤ size` leads to such a state;
`Exec.push_apply` and the lemmas after it say what each of them does.
-/

set_option autoImplicit false

namespace ObjectLet

/-- The state of a machine between two instructions, or within one. -/
structure State where
  /-- The memory cells. -/
  memory : Memory
  /-- The address of the next word of code. -/
  ip : Nat
  /-- The address of the top of the stack; the size of the memory if the stack is empty. -/
  sp : Nat
  /-- The frame pointer. -/
  fp : Int32
  /-- The heap pointer. -/
  hp : Int32
  /-- The return address. -/
  ra : Int32
  /-- The temporary value. -/
  tm : Int32
  /-- How many instructions have been started. -/
  steps : Nat
  /-- What has been written. -/
  output : Output
deriving DecidableEq

namespace State

/-- The state in which a run begins: nothing on the stack or on the heap, and the frame pointer at
the top of the memory. -/
def boot (size : Nat) (output : Output) : State where
  memory := .blank size
  ip := 0
  sp := size
  fp := Int32.ofNat size
  hp := 0
  ra := 0
  tm := 0
  steps := 0
  output := output

/-- Makes a machine ready for another run, whatever the last one left behind. -/
def reset (s : State) (output : Output) : State :=
  { boot s.memory.size output with memory := s.memory.clear }

theorem reset_eq_boot (s : State) (output : Output) : s.reset output = boot s.memory.size output :=
  rfl

/-- How many cells the heap occupies.  A heap pointer below 0 can only have been put there by the
program, and counts as 0. -/
def heapCells (s : State) : Nat := s.hp.toInt.toNat

end State

/-! ## What instructions are made of -/

/-- Part of the execution of an instruction. -/
abbrev Exec := EStateM Fault State

namespace Exec

/-- Pushes a value, unless the stack would meet the heap.  The cell for it has to lie above the one
that `hp` points to, so one cell always stays free. -/
def push (v : Int32) : Exec Unit := do
  let s ← get
  let sp : Int := (s.sp : Int) - 1
  if sp ≤ s.hp.toInt ∨ sp < 0 then throw (.collision sp s.hp)
  else set { s with sp := s.sp - 1, memory := s.memory.set (s.sp - 1) v }

/-- Pops a value; `ip` is where the instruction that needs it begins.  The cell still holds the
value afterwards. -/
def pop (ip : Nat) : Exec Int32 := do
  let s ← get
  if s.memory.size ≤ s.sp then throw (.stackUnderflow ip)
  else
    set { s with sp := s.sp + 1 }
    return s.memory.get s.sp

/-- Reads the operand of the instruction at `ip`, and goes on behind it.  There is none if the code
ends with the opcode. -/
def operand (code : Array Int32) (ip : Nat) : Exec Int32 := do
  let s ← get
  match code[s.ip]? with
  | none => throw (.truncatedInstruction ip)
  | some w =>
    set { s with ip := s.ip + 1 }
    return w

/-- Goes on at another address.  The end of the code is a good target, too. -/
def jump (code : Array Int32) (target : Int32) (ip : Nat) : Exec Unit := do
  if 0 ≤ target.toInt ∧ target.toInt ≤ code.size then
    modify fun s ↦ { s with ip := target.toInt.toNat }
  else throw (.invalidJump target ip)

/-- The number of the cell that an address refers to.  Any cell of the memory will do, whether it
belongs to the stack, to the heap or to neither. -/
def cell (address : Int32) (ip : Nat) : Exec Nat := do
  let s ← get
  if 0 ≤ address.toInt ∧ address.toInt < s.memory.size then return address.toInt.toNat
  else throw (.invalidAddress address ip)

/-- Replaces the two topmost values by the result of an operation on them.  The one on top is the
right operand, and if the operation fails, both are gone. -/
def binary (ip : Nat) (op : Int32 → Int32 → Except Fault Int32) : Exec Unit := do
  let v1 ← pop ip
  let v2 ← pop ip
  match op v2 v1 with
  | .ok v => push v
  | .error f => throw f

/-- Writes a line of output, or ends the run if no more is accepted. -/
def write (l : Line) : Exec Unit := do
  let s ← get
  match s.output.write? l with
  | some output => set { s with output }
  | none => throw .outputClosed

/-! ## What they do to the state -/

section Binding

variable {α β : Type} (f : State → Exec α) (g : State → State) (k : Unit → Exec α) (s : State)

/-- What is read is the state as it is. -/
theorem get_bind : (get >>= f) s = f s s := rfl

/-- What comes after a change starts from the changed state. -/
theorem modify_bind : (modify g >>= k) s = k () (g s) := rfl

/-- What comes after something that has a result starts from there. -/
theorem bind_of_ok {x : Exec α} {s t : State} {a : α} (h : x s = .ok a t) (f : α → Exec β) :
    (x >>= f) s = f a t := by
  simp only [bind, EStateM.bind, h]

end Binding

theorem push_apply (v : Int32) (s : State) :
    push v s =
      if (s.sp : Int) - 1 ≤ s.hp.toInt ∨ (s.sp : Int) - 1 < 0 then
        .error (.collision ((s.sp : Int) - 1) s.hp) s
      else .ok () { s with sp := s.sp - 1, memory := s.memory.set (s.sp - 1) v } := by
  simp only [push, get_bind]
  split <;> rfl

theorem pop_apply (ip : Nat) (s : State) :
    pop ip s =
      if s.memory.size ≤ s.sp then .error (.stackUnderflow ip) s
      else .ok (s.memory.get s.sp) { s with sp := s.sp + 1 } := by
  simp only [pop, get_bind]
  split <;> rfl

theorem jump_apply (code : Array Int32) (target : Int32) (ip : Nat) (s : State) :
    jump code target ip s =
      if 0 ≤ target.toInt ∧ target.toInt ≤ code.size then
        .ok () { s with ip := target.toInt.toNat }
      else .error (.invalidJump target ip) s := by
  simp only [jump]
  split <;> rfl

theorem cell_apply (address : Int32) (ip : Nat) (s : State) :
    cell address ip s =
      if 0 ≤ address.toInt ∧ address.toInt < s.memory.size then .ok address.toInt.toNat s
      else .error (.invalidAddress address ip) s := by
  simp only [cell, get_bind]
  split <;> rfl

/-- A line is written, if it is accepted. -/
theorem write_apply (l : Line) (s : State) :
    write l s =
      match s.output.write? l with
      | some output => .ok () { s with output }
      | none => .error .outputClosed s := by
  simp only [write, get_bind]
  cases s.output.write? l <;> rfl

end Exec

end ObjectLet
