import ObjectLet.Tree

/-!
# Numbering the nodes of a tree

Trees are built bottom up in the state monad `Build`, which hands out node numbers 0, 1, 2, … in
the order in which the nodes are made, so that no two nodes made in one run share a number.  The
current line is part of the state as well: it stays what it is until `Build.setLine` changes it.
-/

set_option autoImplicit false

namespace ObjectLet

/-- The state of a tree under construction. -/
structure Numbering where
  /-- How many numbers have been handed out, which is also the next one. -/
  next : NodeId := 0
  /-- The line of the nodes made from here on. -/
  line : Nat := 1

/-- Building part of a tree. -/
abbrev Build := StateM Numbering

namespace Build

/-- Nodes made from here on stand on the given line. -/
def setLine (line : Nat) : Build Unit := modify fun s ↦ { s with line }

/-- The site of a new node.  Its number is used up, and its line is the current one. -/
def fresh : Build Site := fun s ↦ (⟨s.next, s.line⟩, { s with next := s.next + 1 })

/-- A program with global declarations, on the current line.  A program is not a node, so
it takes no number. -/
def letIn (decls : List Decl) (body : Expr) : Build Program := fun s ↦
  (.letIn s.line decls body, s)

end Build

end ObjectLet
