import ObjectLet.Code.Bytecode
import ObjectLet.Context

/-!
# The code of expressions

The code of an expression leaves exactly one value on the stack: booleans as 0 and 1, `null` as -1,
an object as its address.

A frame is addressed through `fp`.  The parameters lie above it, the first of them next to it; at
`fp` itself is the access link, which is the frame of the enclosing scope, or the object whose
method is running; below it come the return address and the local declarations.  Global
declarations lie at fixed addresses, counted from `Target.base`.

There is one comparison too few among the jumps, so `a >= b` is evaluated as `b <= a`, its right
operand first.

Emitting code needs a counter for the labels and may fail, if something is used that name analysis
has not resolved.
-/

set_option autoImplicit false

namespace ObjectLet

/-- Why there is no code for a program. -/
inductive CompileError where
  /-- The program has errors. -/
  | frontEnd (counts : ErrorCounts)
  /-- Something is used that name analysis has not resolved. -/
  | unresolved (line : Nat)
  /-- A method has no place in the dispatch table. -/
  | missingLayout (name : String) (line : Nat)
  /-- The code cannot be assembled. -/
  | assembly (e : AssemblyError)
deriving DecidableEq

/-- How a failure is reported. -/
def CompileError.message : CompileError → String
  | .frontEnd counts => "Compilation aborted: " ++ counts.text
  | .unresolved line => "Internal compiler error: unresolved reference at line " ++ toString line
  | .missingLayout name line =>
    "Internal compiler error: missing layout for \x60" ++ name ++ "\x60 at line " ++ toString line
  | .assembly e => e.message

/-- What code is emitted for.  The memory of the machine matters, too, since the places of global
declarations are counted from its top. -/
structure Target where
  /-- What is known about the program. -/
  ctx : Context
  /-- The address that the global frame is counted from. -/
  base : Int32

/-- Emitting the code of an expression; the state counts the labels. -/
abbrev Emit := StateT Nat (Except CompileError)

/-! ## Pieces of code -/

/-- Moves the heap pointer up by one cell. -/
def bumpHeap : List Instr := [.plain .loadHp, .push 1, .plain .add, .plain .storeHp]

/-- Pops a value and stores it in the next cell of the heap. -/
def storeOnHeap : List Instr := [.plain .loadHp, .plain .storeWord] ++ bumpHeap

/-- Pushes the top of the stack once more.  There is no instruction for this, so the value goes
through the register `tm`. -/
def duplicate : List Instr := [.plain .storeTm, .plain .loadTm, .plain .loadTm]

/-- The end of a test that may have jumped to `taken`: pushes `yes` if it has and `no` if not. -/
def select (taken done : Label) (no yes : Int32) : List Instr :=
  [.push no, .jump .always done, .mark taken, .push yes, .mark done]

/-- The operation that an arithmetic operator stands for. -/
def ArithOp.operation : ArithOp → Operation
  | .add => .add
  | .sub => .sub
  | .mul => .mult
  | .div => .div

/-- The operand that decides a logical operator without looking at the other one. -/
def LogicOp.decisive : LogicOp → Int32
  | .or => 1
  | .and => 0

namespace Target

/-- Pushes the frame, or the object, in which a declaration is kept.  For global declarations that
is a constant; for others as many access links are followed as there are scopes in between. -/
def frame (t : Target) (r : Resolution) : List Instr :=
  if r.entry.level = 0 then [.push t.base]
  else .plain .loadFp :: List.replicate r.hops (.plain .loadWord)

/-- Pushes the address at which a declaration is kept.  For global declarations it is computed here,
for others when the code is executed. -/
def address (t : Target) (r : Resolution) : List Instr :=
  if r.entry.level = 0 then [.push (t.base + Int32.ofInt r.entry.offset)]
  else t.frame r ++ [.push (Int32.ofInt r.entry.offset), .plain .add]

/-- Loads what is kept at an offset from the address on the stack. -/
def loadAt (offset : Int) : List Instr :=
  [.push (Int32.ofInt offset), .plain .add, .plain .loadWord]

/-- The declaration that the name used at a site refers to.  If name analysis has found none,
there is no code. -/
def resolution (t : Target) (site : Site) : Emit Resolution :=
  match t.ctx.resolutions.find? site.id with
  | some r => pure r
  | none => throw (.unresolved site.line)

/-- The offset of the member used at a site.  If name analysis has found no member,
there is no code. -/
def memberOffset (t : Target) (site : Site) : Emit Int :=
  match t.ctx.members.find? site.id with
  | some m => pure m.offset
  | none => throw (.unresolved site.line)

/-- Calls a function by its name, with the arguments on the stack.  The frame of its declaration
becomes the access link.  What is kept for a function is its address; for a method of the enclosing
class it is found through the dispatch table of the object. -/
def callNamed (t : Target) (r : Resolution) : List Instr :=
  t.frame r ++ duplicate ++ (if r.entry.ty.isMethod then [.plain .loadWord] else [])
    ++ loadAt r.entry.offset ++ [.plain .jumpSub]

/-- Calls a method of the object that a variable refers to, with the arguments on the stack.  The
object becomes the access link. -/
def callMethod (t : Target) (r : Resolution) (offset : Int) : List Instr :=
  t.address r ++ [.plain .loadWord] ++ duplicate ++ [.plain .loadWord] ++ loadAt offset
    ++ [.plain .jumpSub]

/-- Makes an object out of the arguments on the stack: they go onto the heap, the last of them
first, and above them the dispatch table of the class, the address of which is the object. -/
def construct (t : Target) (r : Resolution) (fields : Nat) : List Instr :=
  (List.replicate fields storeOnHeap).flatten ++ t.address r
    ++ [.plain .loadWord, .plain .loadHp, .plain .storeWord, .plain .loadHp] ++ bumpHeap

end Target

/-! ## Expressions -/

mutual

/-- The code of an expression.  The labels of an operator are made before those of its operands, and
of a choice the branch after `else` comes first, in the code as well as in the count of labels. -/
def Expr.emit (t : Target) : Expr → Emit (List Instr)
  | .int _ v => pure [.push v]
  | .bool _ b => pure [.push (if b then 1 else 0)]
  | .null _ => pure [.push (-1)]
  | .arith _ op l r => do
    let left ← l.emit t
    let right ← r.emit t
    return left ++ right ++ [.plain op.operation]
  | .compare _ op l r => do
    let taken ← Label.fresh .branch
    let done ← Label.fresh .branch
    let test ← match op with
      | .eq => pure ((← l.emit t) ++ (← r.emit t) ++ [.jump .ifEq taken])
      | .le => pure ((← l.emit t) ++ (← r.emit t) ++ [.jump .ifLessEq taken])
      | .ge => pure ((← r.emit t) ++ (← l.emit t) ++ [.jump .ifLessEq taken])
    return test ++ select taken done 0 1
  | .logic _ op l r => do
    let short ← Label.fresh .branch
    let done ← Label.fresh .branch
    let left ← l.emit t
    let right ← r.emit t
    return left ++ [.push op.decisive, .jump .ifEq short]
      ++ right ++ [.push op.decisive, .jump .ifEq short]
      ++ select short done (1 - op.decisive) op.decisive
  | .not _ e => do
    let operand ← e.emit t
    return [.push 1] ++ operand ++ [.plain .sub]
  | .cond _ c a b => do
    let chosen ← Label.fresh .branch
    let done ← Label.fresh .branch
    let condition ← c.emit t
    let otherwise ← b.emit t
    let consequent ← a.emit t
    return condition ++ [.push 1, .jump .ifEq chosen] ++ otherwise
      ++ [.jump .always done, .mark chosen] ++ consequent ++ [.mark done]
  | .print _ e => do
    let argument ← e.emit t
    return argument ++ duplicate ++ [.plain .print]
  | .ident site _ => do
    let r ← t.resolution site
    return t.address r ++ [.plain .loadWord]
  | .call site _ args => do
    let r ← t.resolution site
    let values ← Expr.emitBackwards t args
    return [.plain .loadFp] ++ values ++ t.callNamed r
  | .field site _ _ => do
    let r ← t.resolution site
    let offset ← t.memberOffset site
    return t.address r ++ [.plain .loadWord] ++ Target.loadAt offset
  | .invoke site _ _ args => do
    let r ← t.resolution site
    let offset ← t.memberOffset site
    let values ← Expr.emitBackwards t args
    return [.plain .loadFp] ++ values ++ t.callMethod r offset
  | .new site _ args => do
    let r ← t.resolution site
    let values ← Expr.emitAll t args
    return values ++ t.construct r args.length
termination_by structural e => e

/-- The code of several expressions, the first of them first. -/
def Expr.emitAll (t : Target) : List Expr → Emit (List Instr)
  | [] => pure []
  | e :: es => do
    let first ← e.emit t
    let rest ← Expr.emitAll t es
    return first ++ rest
termination_by structural es => es

/-- The code of several expressions, the last of them first.  This is how arguments are put on the
stack, with the first one on top. -/
def Expr.emitBackwards (t : Target) : List Expr → Emit (List Instr)
  | [] => pure []
  | e :: es => do
    let rest ← Expr.emitBackwards t es
    let first ← e.emit t
    return rest ++ first
termination_by structural es => es

end

end ObjectLet
