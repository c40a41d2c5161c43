import ObjectLet.Code.Instr
import ObjectLet.Table

/-!
# Assembling

`assemble` turns symbolic instructions into code in two passes.  `placeLabels` finds the address of
every label, which is the size of everything in front of its mark; `encode` writes the words, with
labels replaced by their addresses.  The only ways to fail are a label placed twice, which the first
pass finds, and a label placed nowhere, which the second one finds.
-/

set_option autoImplicit false

namespace ObjectLet

/-- Code that the machine can execute. -/
structure Bytecode where
  /-- The words. -/
  code : Array Int32
deriving DecidableEq, Inhabited

namespace Bytecode

/-- How many words there are. -/
def size (b : Bytecode) : Nat := b.code.size

/-- Whether there are no words. -/
def isEmpty (b : Bytecode) : Bool := b.code.isEmpty

end Bytecode

/-- Why a list of instructions cannot be assembled. -/
inductive AssemblyError where
  /-- A label is referred to and placed nowhere. -/
  | undefinedLabel (label : Label)
  /-- A label is placed twice. -/
  | duplicateLabel (label : Label)
deriving DecidableEq

/-- How a failure is reported. -/
def AssemblyError.message : AssemblyError → String
  | .undefinedLabel l => "Undefined label: " ++ l.text
  | .duplicateLabel l => "Duplicate label: " ++ l.text

/-! ## First pass: addresses -/

/-- Adds the addresses of the labels placed in a list of instructions that starts at `address`.  A
label that has an address already is an error. -/
def placeLabels (address : Nat) (placed : Table Label Nat) :
    List Instr → Except AssemblyError (Table Label Nat)
  | [] => .ok placed
  | .mark l :: rest =>
    if placed.contains l then .error (.duplicateLabel l)
    else placeLabels address (placed.insert l address) rest
  | i :: rest => placeLabels (address + i.size) placed rest

/-! ## Second pass: words -/

/-- The word for the address of a label, if it has been placed anywhere in the code. -/
def addressWord (placed : Table Label Nat) (l : Label) : Except AssemblyError Int32 :=
  match placed.find? l with
  | some address => .ok (Int32.ofNat address)
  | none => .error (.undefinedLabel l)

/-- The words of one instruction. -/
def Instr.words (placed : Table Label Nat) : Instr → Except AssemblyError (List Int32)
  | .push v => .ok [Opcode.push.word, v]
  | .pushLabel l => (addressWord placed l).map fun a ↦ [Opcode.push.word, a]
  | .jump j l => (addressWord placed l).map fun a ↦ [(Opcode.jump j).word, a]
  | .plain op => .ok [(Opcode.plain op).word]
  | .mark _ => .ok []

/-- The words of a list of instructions. -/
def encode (placed : Table Label Nat) : List Instr → Except AssemblyError (List Int32)
  | [] => .ok []
  | i :: rest => do
    let ws ← i.words placed
    let more ← encode placed rest
    return ws ++ more

/-- The code of a list of instructions.  A label placed twice is reported even if there is also one
that is placed nowhere. -/
def assemble (is : List Instr) : Except AssemblyError Bytecode := do
  let placed ← placeLabels 0 ∅ is
  let words ← encode placed is
  return ⟨words.toArray⟩

end ObjectLet
