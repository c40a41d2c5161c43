/-!
# Output

A machine writes one line for each `print`.  What it writes to may be limited to a number of lines,
after which it accepts nothing more; `Output.write?` says whether it did.
-/

set_option autoImplicit false

namespace ObjectLet

/-- A line of output. -/
inductive Line where
  /-- A printed value. -/
  | value (v : Int32)
  /-- What is printed when there is no value on the stack. -/
  | emptyStack
deriving DecidableEq

/-- The text of a line. -/
def Line.text : Line → String
  | .value v => toString v.toInt
  | .emptyStack => "EMPTY STACK"

/-- The output of a run. -/
structure Output where
  /-- The lines written so far, oldest first. -/
  lines : Array Line := #[]
  /-- How many lines are accepted in all, if that is limited. -/
  capacity : Option Nat := none
deriving DecidableEq, Inhabited

namespace Output

/-- Whether another line is accepted. -/
def hasRoom (o : Output) : Bool :=
  match o.capacity with
  | none => true
  | some n => o.lines.size < n

/-- Writes a line, if it is accepted.  A line that is not accepted leaves no trace. -/
def write? (o : Output) (l : Line) : Option Output :=
  if o.hasRoom then some { o with lines := o.lines.push l } else none

end Output

end ObjectLet
