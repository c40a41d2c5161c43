import ObjectLet.Code.Opcode
import ObjectLet.Machine.State

/-!
# Executing one instruction

`execute code word` executes the instruction whose opcode word is `word` and which begins at the
current `ip`.  A word that stands for no opcode is a fault and is not passed over; any other word is
passed over first, and the operand, if the instruction has one, when it is read.
-/

set_option autoImplicit false

namespace ObjectLet

/-- Whether the machine goes on after an instruction. -/
inductive Signal where
  | next | stop
deriving DecidableEq

/-- Division rounded towards zero.  The smallest word divided by -1 is itself. -/
def divide (ip : Nat) (v2 v1 : Int32) : Except Fault Int32 :=
  if v1 = 0 then .error (.divisionByZero ip) else .ok (v2 / v1)

namespace Exec

/-- Prints the top of the stack, or says that there is none. -/
def print (ip : Nat) : Exec Unit := do
  let s ← get
  if s.memory.size ≤ s.sp then write .emptyStack
  else
    let v ← pop ip
    write (.value v)

/-- Executes an operation without an operand that begins at `ip`. -/
def operation (code : Array Int32) (ip : Nat) : Operation → Exec Signal
  | .pop => do
    let _ ← pop ip
    return .next
  | .add => do
    binary ip fun v2 v1 ↦ .ok (v2 + v1)
    return .next
  | .sub => do
    binary ip fun v2 v1 ↦ .ok (v2 - v1)
    return .next
  | .mult => do
    binary ip fun v2 v1 ↦ .ok (v2 * v1)
    return .next
  | .div => do
    binary ip (divide ip)
    return .next
  | .storeWord => do
    let address ← pop ip
    let value ← pop ip
    let a ← cell address ip
    modify fun s ↦ { s with memory := s.memory.set a value }
    return .next
  | .loadWord => do
    let address ← pop ip
    let a ← cell address ip
    push ((← get).memory.get a)
    return .next
  | .jumpSub => do
    let target ← pop ip
    modify fun s ↦ { s with ra := Int32.ofNat s.ip }
    jump code target ip
    return .next
  | .loadRa => do
    push (← get).ra
    return .next
  | .storeRa => do
    let v ← pop ip
    modify fun s ↦ { s with ra := v }
    return .next
  | .loadTm => do
    push (← get).tm
    return .next
  | .storeTm => do
    let v ← pop ip
    modify fun s ↦ { s with tm := v }
    return .next
  | .loadFp => do
    push (← get).fp
    return .next
  | .storeFp => do
    let v ← pop ip
    modify fun s ↦ { s with fp := v }
    return .next
  | .copyFp => do
    modify fun s ↦ { s with fp := Int32.ofNat s.sp }
    return .next
  | .loadHp => do
    push (← get).hp
    return .next
  | .storeHp => do
    let v ← pop ip
    modify fun s ↦ { s with hp := v }
    return .next
  | .print => do
    print ip
    return .next
  | .halt => return .stop

/-- Executes a jump that begins at `ip`.  The target is read in any case, but it is checked only if
the jump is taken. -/
def jumpIf (code : Array Int32) (ip : Nat) (j : Jump) : Exec Unit := do
  let target ← operand code ip
  match j with
  | .always => jump code target ip
  | .ifEq =>
    let v1 ← pop ip
    let v2 ← pop ip
    if v2 = v1 then jump code target ip
  | .ifLessEq =>
    let v1 ← pop ip
    let v2 ← pop ip
    if v2 ≤ v1 then jump code target ip

/-- Executes the instruction with the given opcode word. -/
def execute (code : Array Int32) (word : Int32) : Exec Signal := do
  let ip := (← get).ip
  match Opcode.ofWord? word with
  | none => throw (.invalidOpcode word ip)
  | some opcode =>
    modify fun s ↦ { s with ip := s.ip + 1 }
    match opcode with
    | .push =>
      let v ← operand code ip
      push v
      return .next
    | .jump j =>
      jumpIf code ip j
      return .next
    | .plain op => operation code ip op

end Exec

end ObjectLet
