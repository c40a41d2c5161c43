import ObjectLet.Text.Literal
import ObjectLet.Ty

/-!
# Types as terms

In the log a type is written as the term that it is built by, with a class name as a quoted text.
So the class `int` cannot be taken for the type of integers there, as it can in messages.
-/

set_option autoImplicit false

namespace ObjectLet

/-- A list of terms. -/
def termList (terms : List String) : String := "[" ++ ", ".intercalate terms ++ "]"

mutual

/-- A type as a term. -/
def Ty.term : Ty → String
  | .int => "Int"
  | .bool => "Bool"
  | .null => "Empty"
  | .ref name => "Ref(" ++ Text.literal name ++ ")"
  | .arrow s => "Arrow(" ++ s.term ++ ")"
  | .method s => "Method(" ++ s.term ++ ")"
  | .cls s => "Class(" ++ s.term ++ ")"
termination_by structural t => t

/-- A signature as a term. -/
def Signature.term : Signature → String
  | ⟨params, ret⟩ =>
    "ArrowType \x7b params: " ++ termList (Ty.terms params) ++ ", ret: " ++ ret.term ++ " \x7d"
termination_by structural s => s

/-- A shape as a term. -/
def Shape.term : Shape → String
  | ⟨fields, methods⟩ =>
    "ClassType \x7b fields: " ++ termList (Ty.terms fields) ++ ", methods: "
      ++ termList (Signature.terms methods) ++ " \x7d"
termination_by structural s => s

/-- Several types as terms. -/
def Ty.terms : List Ty → List String
  | [] => []
  | t :: ts => t.term :: Ty.terms ts
termination_by structural ts => ts

/-- Several signatures as terms. -/
def Signature.terms : List Signature → List String
  | [] => []
  | s :: ss => s.term :: Signature.terms ss
termination_by structural ss => ss

end

/-- A type that may be missing, as a term. -/
def Ty.optionTerm : Option Ty → String
  | some t => "Some(" ++ t.term ++ ")"
  | none => "None"

end ObjectLet
