/-!
# Faults

A run of the machine that does not end properly ends with a `Fault`, which says what went wrong and
where.  Addresses of instructions are called `ip`; they count the words of the code from 0.
-/

set_option autoImplicit false

namespace ObjectLet

/-- Why a machine stopped, or could not be made. -/
inductive Fault where
  /-- A division by zero. -/
  | divisionByZero (ip : Nat)
  /-- The stack met the heap. -/
  | collision (sp : Int) (hp : Int32)
  /-- A value was popped from the empty stack. -/
  | stackUnderflow (ip : Nat)
  /-- A load or store went to an address outside memory. -/
  | invalidAddress (address : Int32) (ip : Nat)
  /-- A jump went outside the code. -/
  | invalidJump (target : Int32) (ip : Nat)
  /-- A word stands for no opcode. -/
  | invalidOpcode (word : Int32) (ip : Nat)
  /-- The code ends where an operand should be. -/
  | truncatedInstruction (ip : Nat)
  /-- As many instructions were executed as allowed. -/
  | stepLimitExceeded (limit : Nat)
  /-- No machine has memory of this size. -/
  | invalidMemorySize (size : Nat)
  /-- A line of output was not accepted. -/
  | outputClosed
deriving DecidableEq

/-- What kind of thing goes wrong in a fault. -/
inductive Fault.Kind where
  | arithmetic | memoryCollision | memory | decode | resourceLimit | output
deriving DecidableEq

namespace Fault

/-- The kind of a fault. -/
def kind : Fault → Kind
  | .divisionByZero _ => .arithmetic
  | .collision _ _ => .memoryCollision
  | .stackUnderflow _ | .invalidAddress _ _ => .memory
  | .invalidJump _ _ | .invalidOpcode _ _ | .truncatedInstruction _ => .decode
  | .stepLimitExceeded _ | .invalidMemorySize _ => .resourceLimit
  | .outputClosed => .output

/-- What a kind of fault is called. -/
def Kind.name : Kind → String
  | .arithmetic => "Arithmetic"
  | .memoryCollision => "MemoryCollision"
  | .memory => "Memory"
  | .decode => "Decode"
  | .resourceLimit => "ResourceLimit"
  | .output => "Io"

/-- How a fault is reported. -/
def message : Fault → String
  | .divisionByZero ip => "Division by zero at " ++ toString ip
  | .collision sp hp =>
    "Stack and heap collided (sp " ++ toString sp ++ ", hp " ++ toString hp.toInt ++ ")"
  | .stackUnderflow ip => "Stack underflow at " ++ toString ip
  | .invalidAddress a ip => "Invalid memory address " ++ toString a.toInt ++ " at " ++ toString ip
  | .invalidJump t ip => "Invalid jump target " ++ toString t.toInt ++ " at " ++ toString ip
  | .invalidOpcode w ip => "Invalid opcode " ++ toString w.toInt ++ " at " ++ toString ip
  | .truncatedInstruction ip => "Truncated instruction at " ++ toString ip
  | .stepLimitExceeded limit => "Step limit of " ++ toString limit ++ " exceeded"
  | .invalidMemorySize size => "Invalid memory size " ++ toString size
  | .outputClosed => "Output error: output closed"

end Fault

end ObjectLet
