import ObjectLet.Code.Opcode

/-!
# Symbolic instructions

Between a program and its code stands a list of `Instr`s.  They differ from the operations of the
machine in that addresses are still names: a `Label` is placed by an `Instr.mark`, which becomes no
code, and is referred to by jumps and by `Instr.pushLabel`.

`listing` writes such a list as assembly text, one instruction a line.
-/

set_option autoImplicit false

namespace ObjectLet

/-! ## Labels -/

/-- What a label is placed at. -/
inductive Label.Kind where
  /-- A point inside the code of an expression. -/
  | branch
  /-- The entry of a function. -/
  | function
  /-- The entry of a method. -/
  | method
deriving DecidableEq

/-- A name for a place in the code. -/
structure Label where
  /-- What it is placed at. -/
  kind : Label.Kind
  /-- A number that tells labels apart. -/
  number : Nat
deriving DecidableEq

namespace Label

/-- The word that the names of all labels of a kind begin with. -/
def Kind.stem : Kind → String
  | .branch => "label"
  | .function => "function"
  | .method => "method"

/-- How a label is written. -/
def text (l : Label) : String := l.kind.stem ++ toString l.number

/-- A new label.  The state counts the labels made so far, those of all kinds together, so the
number alone tells labels apart. -/
def fresh {m : Type → Type} [Monad m] (kind : Kind) : StateT Nat m Label := fun n ↦
  pure (⟨kind, n⟩, n + 1)

end Label

/-! ## Instructions -/

/-- A symbolic instruction. -/
inductive Instr where
  /-- Push a value. -/
  | push (value : Int32)
  /-- Push the address of a label. -/
  | pushLabel (label : Label)
  /-- Jump to a label. -/
  | jump (j : Jump) (target : Label)
  /-- An operation without an operand. -/
  | plain (op : Operation)
  /-- The place of a label. -/
  | mark (label : Label)
deriving DecidableEq

namespace Instr

/-- The opcode of an instruction; the mark of a label has none. -/
def opcode? : Instr → Option Opcode
  | .push _ | .pushLabel _ => some .push
  | .jump j _ => some (.jump j)
  | .plain op => some (.plain op)
  | .mark _ => none

/-- How many words of code an instruction becomes. -/
def size : Instr → Nat
  | .push _ | .pushLabel _ | .jump _ _ => 2
  | .plain _ => 1
  | .mark _ => 0

/-- How an instruction is written. -/
def text : Instr → String
  | .push v => "push " ++ toString v.toInt
  | .pushLabel l => "push " ++ l.text
  | .jump j l => j.mnemonic ++ " " ++ l.text
  | .plain op => op.mnemonic
  | .mark l => l.text ++ ":"

end Instr

/-- How many words of code a list of instructions becomes. -/
def codeSize : List Instr → Nat
  | [] => 0
  | i :: is => i.size + codeSize is

/-- The assembly text of a list of instructions: one line for each. -/
def listing (is : List Instr) : String := String.join (is.map fun i ↦ i.text ++ "\n")

end ObjectLet
