import ObjectLet.Context

/-!
# The layout of a class

A class starts out with the members of its superclass and goes through its own declarations, fields
first.  A member of a name that the class has not yet gets a new place: a field the next offset
below the object, a method the next index of the dispatch table.  A member that replaces an
inherited one of the same sort takes over its place, and its type takes over the slot in the shape.

Declaring two members of one name in one class is an error, and the second one is left out.
-/

set_option autoImplicit false

namespace ObjectLet

/-- A class with the members laid out so far.  What is inherited is there from the beginning;
`declared` keeps apart the names that must not be declared again. -/
structure ClassLayout where
  /-- All members, inherited ones included. -/
  members : MemberTable
  /-- The shape that goes with them. -/
  shape : Shape
  /-- The names of the members that the class declares itself. -/
  declared : List String

/-- The position, among the fields of a shape, of the field at an offset.  The first field lies next
to the object, at offset -1. -/
def fieldIndex (offset : Int) : Nat := (-offset - 1).toNat

namespace ClassLayout

/-- The layout of a class before its own members, given what it inherits. -/
def inherit (base : ClassInfo) : ClassLayout := ⟨base.members, base.shape, []⟩

/-- What the layout amounts to. -/
def info (l : ClassLayout) : ClassInfo := ⟨l.members, l.shape⟩

/-- Puts a member into the table, in place of an inherited one of its name if there is one, and
counts it among those that the class declares itself. -/
def place (l : ClassLayout) (name : String) (entry : Entry) (shape : Shape) : ClassLayout :=
  ⟨l.members.insert name entry, shape, name :: l.declared⟩

/-- The place of a field, and the field types with it in place.  A field that the class
inherits under this name hands on its offset, and its slot gets the new type.  Otherwise the
field gets the next offset below the object and a slot of its own, even if the class inherits a
method of that name. -/
def fieldPlace (l : ClassLayout) (name : String) (ty : Ty) : Int × List Ty :=
  match (l.members.find? name).filter fun e ↦ !e.ty.isMethod with
  | some e => (e.offset, l.shape.fields.set (fieldIndex e.offset) ty)
  | none => (-(l.shape.fields.length : Int) - 1, l.shape.fields ++ [ty])

/-- The place of a method, and the method signatures with it in place.  A method that the class
inherits under this name hands on its index, and its slot gets the new signature; otherwise the
method gets the next index and a slot of its own.  Only the type tells what is a method, so an
inherited field with the type of a method hands on its offset, too.  That is negative, and there is
no slot to go with it. -/
def methodPlace (l : ClassLayout) (name : String) (signature : Signature) :
    Int × List Signature :=
  match (l.members.find? name).filter fun e ↦ e.ty.isMethod with
  | some e =>
    (e.offset,
      if 0 ≤ e.offset then l.shape.methods.set e.offset.toNat signature else l.shape.methods)
  | none => (l.shape.methods.length, l.shape.methods ++ [signature])

/-- Adds a field, unless the class declares a member of that name already; then there is an error,
and the layout stays as it is. -/
def addField (l : ClassLayout) (b : Binder) : ClassLayout × List Finding :=
  if l.declared.contains b.name then (l, [.error ⟨.redeclared b.name, b.site.line⟩])
  else
    let (offset, fields) := l.fieldPlace b.name b.ty
    let entry : Entry := ⟨1, b.ty, offset⟩
    (l.place b.name entry { l.shape with fields }, [.layout b.site.id entry])

/-- Adds a method, unless the class declares a member of that name already.  Fields are added
before, so a method with the name of a field of the same class is an error, too. -/
def addMethod (l : ClassLayout) (f : FunDecl) : ClassLayout × List Finding :=
  if l.declared.contains f.name then (l, [.error ⟨.redeclared f.name, f.site.line⟩])
  else
    let (offset, methods) := l.methodPlace f.name f.signature
    let entry : Entry := ⟨1, .method f.signature, offset⟩
    (l.place f.name entry { l.shape with methods }, [.layout f.site.id entry])

/-- Adds several fields, each to the layout that the ones before it have left. -/
def addFields (l : ClassLayout) : List Binder → ClassLayout × List Finding
  | [] => (l, [])
  | b :: bs =>
    let (l₁, found) := l.addField b
    let (l₂, more) := l₁.addFields bs
    (l₂, found ++ more)

/-- Adds several methods, each to the layout that the ones before it have left. -/
def addMethods (l : ClassLayout) : List FunDecl → ClassLayout × List Finding
  | [] => (l, [])
  | f :: fs =>
    let (l₁, found) := l.addMethod f
    let (l₂, more) := l₁.addMethods fs
    (l₂, found ++ more)

/-- The layout of a class that inherits what `base` has, and what there is to say about its members.
Fields are added first, whatever the order in which the members are declared. -/
def ofDecl (base : ClassInfo) (c : ClassDecl) : ClassLayout × List Finding :=
  let (l₁, found) := (inherit base).addFields c.fields
  let (l₂, more) := l₁.addMethods c.methods
  (l₂, found ++ more)

end ClassLayout

end ObjectLet
