/-!
# The operations of the stack machine

Code is a sequence of 32-bit words.  An instruction is one opcode word, and for `push` and the
three jumps an operand word after it: the value to push, or the address to jump to.  So an opcode
is `push`, a `Jump`, or one of the operations that stand alone, an `Operation`.

In the descriptions of the stack effects, `v1` is the top of the stack and `v2` the value below it.
-/

set_option autoImplicit false

namespace ObjectLet

/-- An operation without an operand. -/
inductive Operation where
  /-- Pop and forget. -/
  | pop
  /-- Pop `v1` and `v2`, push `v2 + v1`. -/
  | add
  /-- Pop `v1` and `v2`, push `v2 - v1`. -/
  | sub
  /-- Pop `v1` and `v2`, push `v2 * v1`. -/
  | mult
  /-- Pop `v1` and `v2`, push `v2 / v1` rounded towards zero. -/
  | div
  /-- Pop an address and a value, store the value there. -/
  | storeWord
  /-- Pop an address, push what is stored there. -/
  | loadWord
  /-- Pop an address and jump there, leaving the address of the next instruction in `ra`. -/
  | jumpSub
  /-- Push `ra`. -/
  | loadRa
  /-- Pop into `ra`. -/
  | storeRa
  /-- Push `tm`. -/
  | loadTm
  /-- Pop into `tm`. -/
  | storeTm
  /-- Push `fp`. -/
  | loadFp
  /-- Pop into `fp`. -/
  | storeFp
  /-- Set `fp` to `sp`. -/
  | copyFp
  /-- Push `hp`. -/
  | loadHp
  /-- Pop into `hp`. -/
  | storeHp
  /-- Pop and write a line of output. -/
  | print
  /-- Stop. -/
  | halt
deriving DecidableEq

/-- A jump to an address given in the code. -/
inductive Jump where
  /-- Jump in any case. -/
  | always
  /-- Pop `v1` and `v2`, jump if `v2 = v1`. -/
  | ifEq
  /-- Pop `v1` and `v2`, jump if `v2 ≤ v1`. -/
  | ifLessEq
deriving DecidableEq

/-- What an opcode word says. -/
inductive Opcode where
  /-- Push the operand. -/
  | push
  /-- Jump to the operand. -/
  | jump (j : Jump)
  /-- Do something that needs no operand. -/
  | plain (op : Operation)
deriving DecidableEq

/-- How an operation is written. -/
def Operation.mnemonic : Operation → String
  | .pop => "pop"
  | .add => "add"
  | .sub => "sub"
  | .mult => "mult"
  | .div => "div"
  | .storeWord => "sw"
  | .loadWord => "lw"
  | .jumpSub => "js"
  | .loadRa => "lra"
  | .storeRa => "sra"
  | .loadTm => "ltm"
  | .storeTm => "stm"
  | .loadFp => "lfp"
  | .storeFp => "sfp"
  | .copyFp => "cfp"
  | .loadHp => "lhp"
  | .storeHp => "shp"
  | .print => "print"
  | .halt => "halt"

/-- All operations. -/
def Operation.all : List Operation :=
  [.pop, .add, .sub, .mult, .div, .storeWord, .loadWord, .jumpSub, .loadRa, .storeRa, .loadTm,
    .storeTm, .loadFp, .storeFp, .copyFp, .loadHp, .storeHp, .print, .halt]

/-- The operation written in a given way. -/
def Operation.ofMnemonic? (s : String) : Option Operation :=
  Operation.all.find? (·.mnemonic == s)

/-- How a jump is written. -/
def Jump.mnemonic : Jump → String
  | .always => "b"
  | .ifEq => "beq"
  | .ifLessEq => "bleq"

namespace Opcode

/-- How an opcode is written. -/
def mnemonic : Opcode → String
  | .push => "push"
  | .jump j => j.mnemonic
  | .plain op => op.mnemonic

/-- Whether an operand word follows. -/
def hasOperand : Opcode → Bool
  | .push | .jump _ => true
  | .plain _ => false

/-- The word that stands for an opcode. -/
def word : Opcode → Int32
  | .push => 1
  | .plain .pop => 2
  | .plain .add => 3
  | .plain .sub => 4
  | .plain .mult => 5
  | .plain .div => 6
  | .plain .storeWord => 7
  | .plain .loadWord => 8
  | .jump .always => 9
  | .jump .ifEq => 10
  | .jump .ifLessEq => 11
  | .plain .jumpSub => 12
  | .plain .loadRa => 13
  | .plain .storeRa => 14
  | .plain .loadTm => 15
  | .plain .storeTm => 16
  | .plain .loadFp => 17
  | .plain .storeFp => 18
  | .plain .copyFp => 19
  | .plain .loadHp => 20
  | .plain .storeHp => 21
  | .plain .print => 22
  | .plain .halt => 23

/-- All opcodes. -/
def all : List Opcode :=
  .push :: [Jump.always, .ifEq, .ifLessEq].map .jump ++ Operation.all.map .plain

/-- The opcode that a word stands for. -/
def ofWord? (w : Int32) : Option Opcode := all.find? (·.word == w)

/-- Every opcode is read back from its word. -/
@[simp] theorem ofWord?_word (o : Opcode) : ofWord? o.word = some o := by
  rcases o with _ | j | op
  · rfl
  · cases j <;> rfl
  · cases op <;> rfl

/-- A word stands for an opcode exactly if the opcode has that word. -/
theorem ofWord?_eq_some_iff {w : Int32} {o : Opcode} : ofWord? w = some o ↔ o.word = w := by
  refine ⟨fun h ↦ ?_, fun h ↦ h ▸ ofWord?_word o⟩
  simpa using List.find?_some h

end Opcode

end ObjectLet
