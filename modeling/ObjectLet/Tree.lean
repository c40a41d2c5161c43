import ObjectLet.Ty

/-!
# Program trees

A program is either a bare expression or a list of global declarations with an expression after
them.  Declarations are variables, functions with local declarations of their own, and classes.

Every node carries a `Site`: the number by which the analyses refer to it and the line it stands
on.  A tree is never changed once it is built; what the analyses find out about a node is kept in
tables indexed by its number.
-/

set_option autoImplicit false

namespace ObjectLet

/-! ## Sites and operators -/

/-- The number that identifies a node. -/
abbrev NodeId := Nat

/-- How a node number is written. -/
def NodeId.text (n : NodeId) : String := "#" ++ toString n

/-- Where a node is: its number and its line. -/
structure Site where
  /-- The number that identifies the node. -/
  id : NodeId
  /-- The line the node stands on. -/
  line : Nat
deriving DecidableEq, Inhabited

/-- The operators that take integers to an integer. -/
inductive ArithOp where
  | add | sub | mul | div
deriving DecidableEq

/-- The operators that compare two values. -/
inductive CompareOp where
  | eq | ge | le
deriving DecidableEq

/-- The operators that combine two booleans and may leave the second one unevaluated. -/
inductive LogicOp where
  | and | or
deriving DecidableEq

/-- How an arithmetic operator is written. -/
def ArithOp.symbol : ArithOp → String
  | .add => "+"
  | .sub => "-"
  | .mul => "*"
  | .div => "/"

/-- How a comparison is written. -/
def CompareOp.symbol : CompareOp → String
  | .eq => "=="
  | .ge => ">="
  | .le => "<="

/-- How a logical operator is written. -/
def LogicOp.symbol : LogicOp → String
  | .and => "&&"
  | .or => "||"

/-! ## Expressions -/

/-- An expression.  Functions and receivers are always plain names. -/
inductive Expr where
  /-- An integer literal. -/
  | int (site : Site) (value : Int32)
  /-- A boolean literal. -/
  | bool (site : Site) (value : Bool)
  /-- The reference to no object. -/
  | null (site : Site)
  /-- An arithmetic operation. -/
  | arith (site : Site) (op : ArithOp) (left right : Expr)
  /-- A comparison. -/
  | compare (site : Site) (op : CompareOp) (left right : Expr)
  /-- A conjunction or disjunction. -/
  | logic (site : Site) (op : LogicOp) (left right : Expr)
  /-- A negation. -/
  | not (site : Site) (operand : Expr)
  /-- A choice between two expressions. -/
  | cond (site : Site) (condition thenBranch elseBranch : Expr)
  /-- Printing a value, which is also the value of the expression. -/
  | print (site : Site) (argument : Expr)
  /-- The value of a variable, parameter or field in scope. -/
  | ident (site : Site) (name : String)
  /-- A call of a function, or of a method of the enclosing class. -/
  | call (site : Site) (callee : String) (args : List Expr)
  /-- The value of a field of the object that a variable refers to. -/
  | field (site : Site) (object field : String)
  /-- A call of a method of the object that a variable refers to. -/
  | invoke (site : Site) (object method : String) (args : List Expr)
  /-- A new object, with the values of all its fields. -/
  | new (site : Site) (cls : String) (args : List Expr)

instance : Inhabited Expr := ⟨.null default⟩

/-- Where an expression is. -/
def Expr.site : Expr → Site
  | .int s _ | .bool s _ | .null s | .arith s _ _ _ | .compare s _ _ _ | .logic s _ _ _
  | .not s _ | .cond s _ _ _ | .print s _ | .ident s _ | .call s _ _ | .field s _ _
  | .invoke s _ _ _ | .new s _ _ => s

/-! ## Declarations -/

/-- A parameter of a function or a field of a class. -/
structure Binder where
  /-- Where it is. -/
  site : Site
  /-- Its name. -/
  name : String
  /-- Its declared type. -/
  ty : Ty

mutual

/-- A function, or a method of a class. -/
structure FunDecl where
  /-- Where it is. -/
  site : Site
  /-- Its name. -/
  name : String
  /-- The declared type of its result. -/
  ret : Ty
  /-- Its parameters. -/
  params : List Binder
  /-- What it declares before its body. -/
  locals : List Decl
  /-- The expression it evaluates. -/
  body : Expr

/-- A class. -/
structure ClassDecl where
  /-- Where it is. -/
  site : Site
  /-- Its name. -/
  name : String
  /-- The class it extends. -/
  superclass : Option String
  /-- The fields it declares itself. -/
  fields : List Binder
  /-- The methods it declares itself. -/
  methods : List FunDecl

/-- A declaration. -/
inductive Decl where
  /-- A variable with its initial value. -/
  | var (site : Site) (name : String) (ty : Ty) (init : Expr)
  /-- A function. -/
  | func (f : FunDecl)
  /-- A class. -/
  | cls (c : ClassDecl)

end

/-- The signature a function is declared with. -/
def FunDecl.signature (f : FunDecl) : Signature := ⟨f.params.map Binder.ty, f.ret⟩

namespace Decl

/-- Where a declaration is. -/
def site : Decl → Site
  | .var s _ _ _ => s
  | .func f => f.site
  | .cls c => c.site

/-- The declared name. -/
def name : Decl → String
  | .var _ n _ _ => n
  | .func f => f.name
  | .cls c => c.name

end Decl

/-! ## Programs -/

/-- A program. -/
inductive Program where
  /-- Global declarations, followed by the expression to evaluate. -/
  | letIn (line : Nat) (decls : List Decl) (body : Expr)
  /-- An expression alone. -/
  | bare (body : Expr)

namespace Program

/-- The global declarations; a bare expression has none. -/
def decls : Program → List Decl
  | .letIn _ ds _ => ds
  | .bare _ => []

/-- The expression the program evaluates. -/
def body : Program → Expr
  | .letIn _ _ e => e
  | .bare e => e

end Program

end ObjectLet
