import ObjectLet.Hierarchy
import ObjectLet.Scope

/-!
# The classes of a program

A `ClassTable` keeps, for every class that has been registered, the table of its members and its
shape, and apart from that the hierarchy.  It is written once: `ClassTable.register?` refuses a
name it has already, and `ClassTable.setSuperclass` does not touch a superclass that is known.
-/

set_option autoImplicit false

namespace ObjectLet

/-- The members of a class by name, inherited ones included. -/
abbrev MemberTable := Table String Entry

/-- What is known about a class.  A member is found by its name in the table, and by its
place in the shape. -/
structure ClassInfo where
  /-- Its members, inherited ones included. -/
  members : MemberTable
  /-- Its shape, inherited members first. -/
  shape : Shape

/-- The registered classes of a program. -/
structure ClassTable where
  /-- What is known about each class. -/
  infos : Table String ClassInfo
  /-- The superclasses. -/
  hierarchy : Hierarchy

namespace ClassTable

/-- No class at all. -/
def empty : ClassTable := ⟨∅, .empty⟩

instance : Inhabited ClassTable := ⟨empty⟩

/-- What is known about a class. -/
def info? (c : ClassTable) (name : String) : Option ClassInfo := c.infos.find? name

/-- Whether a class is registered. -/
def contains (c : ClassTable) (name : String) : Bool := c.infos.contains name

/-- The shape of a class. -/
def shape? (c : ClassTable) (name : String) : Option Shape := (c.info? name).map ClassInfo.shape

/-- The members of a class. -/
def members? (c : ClassTable) (name : String) : Option MemberTable :=
  (c.info? name).map ClassInfo.members

/-- A member of a class, inherited or not.  There is none if the class is not registered. -/
def member? (c : ClassTable) (name member : String) : Option Entry :=
  (c.members? name).bind (·.find? member)

/-- The superclass of a class. -/
def superclass? (c : ClassTable) (name : String) : Option String := c.hierarchy.superclass? name

/-- How many classes are registered. -/
def size (c : ClassTable) : Nat := c.infos.size

/-- Whether no class is registered. -/
def isEmpty (c : ClassTable) : Bool := c.infos.isEmpty

/-- Registers a class, unless one of that name is registered already.  Classes are never
replaced. -/
def register? (c : ClassTable) (name : String) (info : ClassInfo) : Option ClassTable :=
  if c.contains name then none else some { c with infos := c.infos.insert name info }

/-- Records a superclass, unless one is recorded already. -/
def setSuperclass (c : ClassTable) (name superclass : String) : ClassTable :=
  { c with hierarchy := c.hierarchy.link name superclass }

/-! ## Written once -/

theorem info?_register? {c d : ClassTable} {name : String} {info : ClassInfo}
    (h : c.register? name info = some d) (x : String) :
    d.info? x = if name = x then some info else c.info? x := by
  unfold register? at h
  split at h
  · simp at h
  · rw [← Option.some.inj h]
    exact Table.find?_insert _ _ _ _

end ClassTable

end ObjectLet
