import ObjectLet.Code.Bytecode
import ObjectLet.Machine.Step

/-!
# Runs

`State.turn` takes a machine through one turn of its loop: it ends if there is no code left, checks
the step limit, executes one instruction and checks that the stack has not met the heap.  A run
repeats turns.  It may go on for ever, so `State.run` is given a number of turns and answers `none`
if they do not suffice; a larger number never changes an answer (`run_mono`).

`Machine.execute` runs a program on a machine that may have run others before, and `State.trace`
lists the instructions that a run decodes.
-/

set_option autoImplicit false

namespace ObjectLet

/-! ## Options -/

/-- How much a machine has of memory and of time. -/
structure Options where
  /-- How many memory cells there are for stack and heap together. -/
  memorySize : Nat := 10000
  /-- How many instructions may be executed; if absent, any number. -/
  maxSteps : Option Nat := none
deriving DecidableEq, Inhabited

/-- The address that the frame pointer has while global code runs: the top of the memory.  Sizes
that no machine can have stand for the largest one here. -/
def Options.globalBase (o : Options) : Int32 := Int32.ofNat (min o.memorySize 2147483647)

/-! ## Turns -/

/-- What a turn of the loop leads to.  In each case the state is the one at the end of the turn. -/
inductive Turn where
  /-- The run goes on. -/
  | running (s : State)
  /-- The run has ended properly. -/
  | finished (s : State)
  /-- The run has ended with a fault. -/
  | faulted (f : Fault) (s : State)

/-- The limit, if it is reached, so that no other instruction may be executed. -/
def limitReached? (limit : Option Nat) (steps : Nat) : Option Nat :=
  limit.filter fun l ↦ l ≤ steps

namespace State

/-- Executes the instruction that begins with `word`, and checks that the stack has not met the
heap after it.  There is no such check after the machine has stopped. -/
def perform (code : Array Int32) (word : Int32) (s : State) : Turn :=
  match Exec.execute code word { s with steps := s.steps + 1 } with
  | .ok .next t =>
    if (t.sp : Int) ≤ t.hp.toInt then .faulted (.collision t.sp t.hp) t else .running t
  | .ok .stop t => .finished t
  | .error f t => .faulted f t

/-- One turn of the loop.  The end of the code comes before the limit, so a run that has needed
exactly as many instructions as allowed ends properly. -/
def turn (limit : Option Nat) (code : Array Int32) (s : State) : Turn :=
  match code[s.ip]? with
  | none => .finished s
  | some word =>
    match limitReached? limit s.steps with
    | some l => .faulted (.stepLimitExceeded l) s
    | none => s.perform code word

end State

/-! ## Runs -/

/-- What a proper run amounts to. -/
structure Stats where
  /-- How many instructions were executed. -/
  steps : Nat
  /-- How many cells the heap occupies in the end. -/
  heapCells : Nat
deriving DecidableEq

/-- How a run ended. -/
structure Outcome where
  /-- What it amounts to, or why it stopped. -/
  result : Except Fault Stats
  /-- The state of the machine in the end. -/
  final : State

namespace State

/-- Runs until the end, for at most `fuel` turns.  The turn that ends the run is one of them. -/
def run (limit : Option Nat) (code : Array Int32) : (fuel : Nat) → State → Option Outcome
  | 0, _ => none
  | fuel + 1, s =>
    match s.turn limit code with
    | .running t => t.run limit code fuel
    | .finished t => some ⟨.ok ⟨t.steps, t.heapCells⟩, t⟩
    | .faulted f t => some ⟨.error f, t⟩

/-- With more turns to spend a run ends in the same way. -/
theorem run_mono {limit : Option Nat} {code : Array Int32} {fuel more : Nat} {s : State}
    {o : Outcome} (h : s.run limit code fuel = some o) (hle : fuel ≤ more) :
    s.run limit code more = some o := by
  induction fuel generalizing more s with
  | zero => simp [run] at h
  | succ fuel ih =>
    obtain ⟨more, rfl⟩ : ∃ n, more = n + 1 := ⟨more - 1, by omega⟩
    rw [run] at h ⊢
    split at h
    · exact ih h (by omega)
    · exact h
    · exact h

end State

/-! ## Machines -/

/-- A machine, with whatever its last run has left behind. -/
structure Machine where
  /-- Its options. -/
  options : Options
  /-- Its state. -/
  state : State

namespace Machine

/-- A machine with the given options.  A frame needs two cells, and every address has to be a
positive word. -/
def new (o : Options) : Except Fault Machine :=
  if 2 ≤ o.memorySize ∧ o.memorySize ≤ 2147483647 then .ok ⟨o, .boot o.memorySize {}⟩
  else .error (.invalidMemorySize o.memorySize)

/-- Runs a program from its first word, for at most `fuel` turns, and gives the result together with
the machine afterwards. -/
def execute (m : Machine) (b : Bytecode) (output : Output) (fuel : Nat) :
    Option (Except Fault Stats × Machine) :=
  ((m.state.reset output).run m.options.maxSteps b.code fuel).map fun o ↦
    (o.result, { m with state := o.final })

end Machine

/-! ## Traces -/

/-- An instruction about to be executed. -/
structure TraceRow where
  /-- Where it begins. -/
  ip : Nat
  /-- What it is. -/
  opcode : Opcode
  /-- The stack pointer before it. -/
  sp : Nat
  /-- The frame pointer before it. -/
  fp : Int32
  /-- The heap pointer before it. -/
  hp : Int32
deriving DecidableEq

namespace State

/-- The instruction that is next, if there is one that can be decoded and may be executed.  Whether
it will end in a fault does not matter. -/
def traceRow? (limit : Option Nat) (code : Array Int32) (s : State) : Option TraceRow :=
  match code[s.ip]?, limitReached? limit s.steps with
  | some word, none => (Opcode.ofWord? word).map fun o ↦ ⟨s.ip, o, s.sp, s.fp, s.hp⟩
  | _, _ => none

/-- The instructions that a run decodes in its first `fuel` turns. -/
def trace (limit : Option Nat) (code : Array Int32) : (fuel : Nat) → State → List TraceRow
  | 0, _ => []
  | fuel + 1, s =>
    (s.traceRow? limit code).toList ++
      match s.turn limit code with
      | .running t => t.trace limit code fuel
      | _ => []

end State

namespace Machine

/-- The instructions that a run of a program decodes in its first `fuel` turns. -/
def trace (m : Machine) (b : Bytecode) (output : Output) (fuel : Nat) : List TraceRow :=
  (m.state.reset output).trace m.options.maxSteps b.code fuel

end Machine

end ObjectLet
