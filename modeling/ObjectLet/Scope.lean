import ObjectLet.Table
import ObjectLet.Ty

/-!
# Scopes

What the name analysis knows about a declaration is an `Entry`: how deep it is nested, its type,
and where its value is kept.  The declarations of one scope form a `Frame`, and the frames that
enclose a point of the program, innermost first, form a stack `Scopes`.

`Scopes.lookup?` searches the stack from the inside out.  `Scopes.declare?` adds to the innermost
frame and refuses a name which that frame has already; hiding a name of an outer frame is allowed.
-/

set_option autoImplicit false

namespace ObjectLet

/-- What is known about a declaration. -/
structure Entry where
  /-- How many scopes enclose the one that declares it; global declarations have level 0. -/
  level : Nat
  /-- Its declared type. -/
  ty : Ty
  /-- Where its value is kept: relative to the frame for variables, functions and parameters,
  relative to the object for fields, and as an index of the dispatch table for methods. -/
  offset : Int
deriving DecidableEq, Inhabited

/-- The declarations of one scope, by name. -/
abbrev Frame := Table String Entry

/-- The scopes that enclose a point of a program. -/
structure Scopes where
  /-- Their frames, innermost first. -/
  frames : List Frame

namespace Scopes

/-- No scope at all. -/
def empty : Scopes := ⟨[]⟩

instance : Inhabited Scopes := ⟨empty⟩

/-- Enters a scope, which begins with the given declarations. -/
def push (s : Scopes) (frame : Frame) : Scopes := ⟨frame :: s.frames⟩

/-- Leaves the innermost scope, if there is one. -/
def pop? (s : Scopes) : Option (Frame × Scopes) :=
  match s.frames with
  | [] => none
  | frame :: rest => some (frame, ⟨rest⟩)

/-- How many scopes enclose the innermost one.  Without any scope this is 0 as well. -/
def nestingLevel (s : Scopes) : Nat := s.frames.length - 1

/-- The declaration that a name refers to: the one in the innermost frame that has the name. -/
def lookup? (s : Scopes) (name : String) : Option Entry := s.frames.findSome? (·.find? name)

/-- The declaration of a name in the outermost scope, even if a scope further inside hides it. -/
def lookupGlobal? (s : Scopes) (name : String) : Option Entry :=
  s.frames.getLast?.bind (·.find? name)

/-- Declares a name in the innermost scope.  Refused if that scope declares it already, or if
there is no scope. -/
def declare? (s : Scopes) (name : String) (entry : Entry) : Option Scopes :=
  match s.frames with
  | [] => none
  | frame :: rest => if frame.contains name then none else some ⟨frame.insert name entry :: rest⟩

/-! ## What the operations do to the stack -/

@[simp] theorem pop?_push (s : Scopes) (frame : Frame) : (s.push frame).pop? = some (frame, s) :=
  rfl

theorem lookup?_push (s : Scopes) (frame : Frame) (name : String) :
    (s.push frame).lookup? name = (frame.find? name).or (s.lookup? name) := by
  simp only [push, lookup?, List.findSome?_cons]
  cases frame.find? name <;> rfl

end Scopes

end ObjectLet
