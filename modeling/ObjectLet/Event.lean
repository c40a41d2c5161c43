import ObjectLet.Code.Instr
import ObjectLet.Context
import ObjectLet.Machine.Run
import ObjectLet.Ty.Term

/-!
# The log

What happens on the way from a program to the end of its run is logged as a sequence of `Event`s.
An event is written as a level, a message and some named fields; `Event.level`, `Event.message` and
`Event.fields` say how.
-/

set_option autoImplicit false

namespace ObjectLet

/-- Something that is logged. -/
inductive Event where
  /-- Name analysis reports an error. -/
  | scopeError (e : ScopeError)
  /-- Name analysis is done. -/
  | scopesResolved (errors classes : Nat)
  /-- Type checking reports an error. -/
  | typeError (e : TypeError)
  /-- An error has ended the check of a declaration. -/
  | declarationSkipped (declaration : String) (e : TypeError)
  /-- An unresolved name has ended the check of a declaration. -/
  | declarationUnresolved (declaration : String) (line : Nat)
  /-- The check of a method has ended early. -/
  | methodSkipped (cls method : String) (e : CheckError)
  /-- Type checking is done. -/
  | typesChecked (errors : Nat) (mainType : Option Ty)
  /-- Both analyses are done. -/
  | analysed (counts : ErrorCounts)
  /-- The code of a function or method comes next. -/
  | emittingFunction (name : String) (entry : Label)
  /-- The dispatch table of a class is complete. -/
  | dispatchTable (cls : String) (methods : Nat)
  /-- The code of the program is complete. -/
  | codeGenerated (main total classes : Nat)
  /-- The run has ended properly. -/
  | executed (stats : Stats)
  /-- The run has ended with a fault. -/
  | faulted (f : Fault) (ip steps : Nat)

namespace Event

/-- How important an event is. -/
inductive Level where
  | debug | info
deriving DecidableEq

/-- How a level is written. -/
def Level.name : Level → String
  | .debug => "DEBUG"
  | .info => "INFO"

/-- What a field of an event holds. -/
inductive Field where
  /-- A number. -/
  | number (n : Nat)
  /-- A text. -/
  | text (s : String)
deriving DecidableEq

/-- The ends of the stages are of general interest, the rest only for finding faults. -/
def level : Event → Level
  | .scopesResolved _ _ | .typesChecked _ _ | .analysed _ | .codeGenerated _ _ _ | .executed _ =>
    .info
  | _ => .debug

/-- The message of an event. -/
def message : Event → String
  | .scopeError _ => "scope error"
  | .scopesResolved _ _ => "scope resolution finished"
  | .typeError _ => "type error"
  | .declarationSkipped _ _ => "skipping rest of declaration"
  | .declarationUnresolved _ _ => "declaration has unresolved references"
  | .methodSkipped _ _ _ => "skipping rest of method"
  | .typesChecked _ _ => "type checking finished"
  | .analysed _ => "analysis finished"
  | .emittingFunction _ _ => "emitting function"
  | .dispatchTable _ _ => "dispatch table"
  | .codeGenerated _ _ _ => "code generation finished"
  | .executed _ => "execution completed"
  | .faulted _ _ _ => "vm fault"

/-- The fields of an event. -/
def fields : Event → List (String × Field)
  | .scopeError e => [("error", .text e.text)]
  | .scopesResolved errors classes => [("errors", .number errors), ("classes", .number classes)]
  | .typeError e => [("error", .text e.text)]
  | .declarationSkipped d e => [("error", .text e.text), ("declaration", .text d)]
  | .declarationUnresolved d line => [("line", .number line), ("declaration", .text d)]
  | .methodSkipped c m e => [("error", .text e.text), ("class", .text c), ("method", .text m)]
  | .typesChecked errors t =>
    [("errors", .number errors), ("main_type", .text (Ty.optionTerm t))]
  | .analysed counts => [("counts", .text counts.text)]
  | .emittingFunction name entry => [("name", .text name), ("entry", .text entry.text)]
  | .dispatchTable c methods => [("class", .text c), ("methods", .number methods)]
  | .codeGenerated main total classes =>
    [("main", .number main), ("total", .number total), ("classes", .number classes)]
  | .executed s => [("steps", .number s.steps), ("heap", .number s.heapCells)]
  | .faulted f ip steps =>
    [("error", .text f.message), ("kind", .text f.kind.name), ("ip", .number ip),
      ("steps", .number steps)]

end Event

/-! ## The events of the analyses -/

/-- The event that a finding is logged as; only errors are. -/
def Finding.event? : Finding → Option Event
  | .error e => some (.scopeError e)
  | _ => none

/-- The event that a remark is logged as; the types of expressions are not. -/
def Remark.event? : Remark → Option Event
  | .typed _ _ => none
  | .error e => some (.typeError e)
  | .skipped d e => some (.declarationSkipped d e)
  | .unresolved d line => some (.declarationUnresolved d line)
  | .skippedMethod c m e => some (.methodSkipped c m e)

end ObjectLet
