import ObjectLet.Table

/-!
# Class hierarchies

Every class has at most one superclass, so a hierarchy is a table of links.  `Hierarchy.ancestors`
follows them for a given number of steps, and `Hierarchy.lineage` follows them far enough to meet
every class that can be reached at all: a chain that visits no class twice has at most one class
more than there are links.  Nothing here needs the links to be free of cycles; along a cycle the
lineage goes round until its length is used up.
-/

set_option autoImplicit false

namespace ObjectLet

/-- The declared superclass of each class that has one. -/
structure Hierarchy where
  /-- From a class to its superclass. -/
  links : Table String String

namespace Hierarchy

/-- The hierarchy in which no class has a superclass. -/
def empty : Hierarchy := ⟨∅⟩

instance : Inhabited Hierarchy := ⟨empty⟩

/-- The declared superclass of a class. -/
def superclass? (h : Hierarchy) (c : String) : Option String := h.links.find? c

/-- Declares a superclass; a class that has one already keeps it. -/
def link (h : Hierarchy) (c superclass : String) : Hierarchy := ⟨h.links.insertNew c superclass⟩

/-- The first `n` classes of the chain that starts with `c` and goes on with its superclass, that
one's superclass and so on. -/
def ancestors (h : Hierarchy) : Nat → String → List String
  | 0, _ => []
  | n + 1, c => c :: ((h.superclass? c).map (h.ancestors n)).getD []

/-- A class and everything above it, nearest first.  A way up that meets no class twice uses each
link at most once, so no more classes than this have to be looked at. -/
def lineage (h : Hierarchy) (c : String) : List String := h.ancestors (h.links.size + 1) c

/-- Whether `d` is `c` itself or one of the classes above it. -/
def inherits (h : Hierarchy) (c d : String) : Bool := (h.lineage c).contains d

/-! ## The shape of a lineage -/

/-- A lineage begins with the class itself and goes on with ancestors of its superclass. -/
theorem lineage_eq_cons (h : Hierarchy) (c : String) :
    h.lineage c = c :: ((h.superclass? c).map (h.ancestors h.links.size)).getD [] :=
  rfl

theorem inherits_refl (h : Hierarchy) (c : String) : h.inherits c c = true := by
  rw [inherits, lineage_eq_cons]
  simp

end Hierarchy

end ObjectLet
