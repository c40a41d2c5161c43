import ObjectLet.Tree

/-!
# Errors in programs

There are two analyses, and each has its errors: name analysis reports `ScopeError`s, type checking
reports `TypeError`s.  An error is a cause together with the line it is reported for.  Neither
analysis stops at its first error.

Type checking gives up on an expression when it finds an error in it, and also when it meets a name
that name analysis has already reported; a `CheckError` says which.

`ErrorCounts` adds up the errors of all kinds, those of the reader that made the tree included.
-/

set_option autoImplicit false

namespace ObjectLet

/-- The text of something reported for a line. -/
def atLine (line : Nat) (what : String) : String := "line " ++ toString line ++ ": " ++ what

/-- A name as it is written in messages. -/
def quoted (name : String) : String := "'" ++ name ++ "'"

/-! ## Name analysis -/

/-- What is wrong with the use or the declaration of a name. -/
inductive ScopeError.Cause where
  /-- The name is declared already in the same scope or class. -/
  | redeclared (name : String)
  /-- Nothing of this name is in scope. -/
  | undeclared (name : String)
  /-- The class has no such member. -/
  | undeclaredMember (cls member : String)
  /-- There is no class of this name to make an object of. -/
  | undeclaredClass (name : String)
  /-- There is no class of this name to extend. -/
  | undeclaredSuperclass (name : String)
  /-- There is no class of this name for a type to refer to. -/
  | undeclaredType (name : String)
  /-- A class is declared inside a function. -/
  | classNotGlobal (name : String)
deriving DecidableEq

/-- An error found by name analysis. -/
structure ScopeError where
  /-- What is wrong. -/
  cause : ScopeError.Cause
  /-- The line it is reported for. -/
  line : Nat
deriving DecidableEq

/-- How the cause of a scope error is described. -/
def ScopeError.Cause.text : ScopeError.Cause → String
  | .redeclared n => quoted n ++ " already declared"
  | .undeclared n => quoted n ++ " is not declared"
  | .undeclaredMember c m => "class " ++ quoted c ++ " has no member " ++ quoted m
  | .undeclaredClass n => "class " ++ quoted n ++ " is not declared"
  | .undeclaredSuperclass n => "superclass " ++ quoted n ++ " is not declared"
  | .undeclaredType n => "type " ++ quoted n ++ " is not declared"
  | .classNotGlobal n => "class " ++ quoted n ++ " declared outside the global scope"

/-- How a scope error is reported. -/
def ScopeError.text (e : ScopeError) : String := atLine e.line e.cause.text

/-! ## Type checking -/

/-- What is wrong with the type of something. -/
inductive TypeError.Cause where
  /-- The initial value does not fit the type of the variable. -/
  | incompatibleValue (name : String)
  /-- The body does not fit the result type of the function. -/
  | wrongReturnType (name : String)
  /-- An operand of an arithmetic operator is no integer. -/
  | nonIntegerOperand (op : ArithOp)
  /-- The types of the compared values have nothing to do with each other. -/
  | incomparableOperands (op : CompareOp)
  /-- An operand of a logical operator is no boolean. -/
  | nonBooleanOperand (op : LogicOp)
  /-- The operand of a negation is no boolean. -/
  | nonBooleanNegation
  /-- The condition of a choice is no boolean. -/
  | nonBooleanCondition
  /-- The branches of a choice have no common type. -/
  | incompatibleBranches
  /-- The called thing is neither a function nor a method. -/
  | notCallable (name : String)
  /-- There are too many or too few arguments. -/
  | argumentCount (name : String) (expected actual : Nat)
  /-- An argument, counted from 1, does not fit the type of its parameter. -/
  | argumentType (name : String) (position : Nat)
  /-- A function is used as if it were a value. -/
  | functionAsValue (name : String)
  /-- A class is used as if it were a value. -/
  | classAsValue (name : String)
  /-- A member is taken of something that is no object. -/
  | notAnObject (name : String)
  /-- A method is used as if it were a field. -/
  | methodAsField (name : String)
  /-- A member does not fit the inherited one that it replaces. -/
  | invalidOverride (cls member : String)
deriving DecidableEq

/-- An error found by type checking. -/
structure TypeError where
  /-- What is wrong. -/
  cause : TypeError.Cause
  /-- The line it is reported for. -/
  line : Nat
deriving DecidableEq

/-- How the cause of a type error is described. -/
def TypeError.Cause.text : TypeError.Cause → String
  | .incompatibleValue n => "incompatible value for variable " ++ quoted n
  | .wrongReturnType n => "wrong return type for function " ++ quoted n
  | .nonIntegerOperand op => "non-integer operand in " ++ quoted op.symbol
  | .incomparableOperands op => "incompatible operand types in " ++ quoted op.symbol
  | .nonBooleanOperand op => "non-boolean operand in " ++ quoted op.symbol
  | .nonBooleanNegation => "non-boolean operand in '!'"
  | .nonBooleanCondition => "non-boolean condition in if"
  | .incompatibleBranches => "incompatible types in then-else branches"
  | .notCallable n => "invocation of a non-function " ++ quoted n
  | .argumentCount n expected actual =>
    "wrong number of arguments for " ++ quoted n ++ ": expected " ++ toString expected
      ++ ", got " ++ toString actual
  | .argumentType n position =>
    "wrong type for argument " ++ toString position ++ " of " ++ quoted n
  | .functionAsValue n => "wrong usage of function identifier " ++ quoted n
  | .classAsValue n => "wrong usage of class identifier " ++ quoted n
  | .notAnObject n => quoted n ++ " is not an object"
  | .methodAsField n => quoted n ++ " is a method, not a field"
  | .invalidOverride c m => "wrong overriding of " ++ quoted m ++ " in class " ++ quoted c

/-- How a type error is reported. -/
def TypeError.text (e : TypeError) : String := atLine e.line e.cause.text

/-- Why no type could be found for an expression. -/
inductive CheckError where
  /-- There is a type error in it, which has been reported. -/
  | type (e : TypeError)
  /-- It contains a name that name analysis did not resolve. -/
  | unresolved (line : Nat)
deriving DecidableEq

/-- How a failure to find a type is described. -/
def CheckError.text : CheckError → String
  | .type e => e.text
  | .unresolved line => atLine line "reference left unresolved by scope resolution"

/-! ## Counts -/

/-- How many errors of each kind a program has. -/
structure ErrorCounts where
  /-- Malformed words. -/
  lexical : Nat := 0
  /-- Malformed sentences. -/
  syntactic : Nat := 0
  /-- Errors found by name analysis. -/
  scope : Nat := 0
  /-- Errors found by type checking. -/
  types : Nat := 0
deriving DecidableEq, Inhabited

namespace ErrorCounts

/-- How many errors there are in all. -/
def total (c : ErrorCounts) : Nat := c.lexical + c.syntactic + c.scope + c.types

/-- Whether there are no errors. -/
def isClean (c : ErrorCounts) : Bool := c.total == 0

/-- How the counts are reported. -/
def text (c : ErrorCounts) : String :=
  toString c.total ++ " front-end errors (" ++ toString c.lexical ++ " lexical, "
    ++ toString c.syntactic ++ " syntax, " ++ toString c.scope ++ " scope, "
    ++ toString c.types ++ " type)"

theorem isClean_iff {c : ErrorCounts} :
    c.isClean = true ↔ c.lexical = 0 ∧ c.syntactic = 0 ∧ c.scope = 0 ∧ c.types = 0 := by
  simp only [isClean, total, beq_iff_eq]
  omega

end ErrorCounts

end ObjectLet
