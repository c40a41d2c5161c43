import ObjectLet.ClassTable
import ObjectLet.Diagnostics
import ObjectLet.Ty.Subtyping

/-!
# What the analyses find out

Name analysis and type checking both go through a tree and leave a list of notes behind: a list of
`Finding`s the one, of `Remark`s the other, in the order in which things are found.  Everything else
is read off these lists.  A `Context` is the state of knowledge that they add up to: a table for
each kind of decoration of the nodes, the classes, and the errors reported so far.

Resolutions, members and layouts of a node are overwritten by later ones; the type of an expression
is recorded once and then stays.
-/

set_option autoImplicit false

namespace ObjectLet

/-- A use of a name, resolved.  Together the two levels say how far the declaration is from the
use. -/
structure Resolution where
  /-- The declaration that the name refers to. -/
  entry : Entry
  /-- How many scopes enclose the one in which the name is used. -/
  useLevel : Nat
deriving DecidableEq

/-- How many scopes lie between the use and the declaration, counting the latter.  As many access
links lead from the one to the other. -/
def Resolution.hops (r : Resolution) : Nat := r.useLevel - r.entry.level

/-- Something that name analysis has found.  All but errors are about a node, and are kept in a
table under its number. -/
inductive Finding where
  /-- The name used at a node is resolved. -/
  | use (node : NodeId) (resolution : Resolution)
  /-- The member used at a node is found. -/
  | member (node : NodeId) (entry : Entry)
  /-- The declaration at a node has its place. -/
  | layout (node : NodeId) (entry : Entry)
  /-- There is an error. -/
  | error (e : ScopeError)
deriving DecidableEq

/-- Something that type checking has found or done.  Types and errors are kept; the other remarks
only go into the log. -/
inductive Remark where
  /-- The expression at a node has a type. -/
  | typed (node : NodeId) (ty : Ty)
  /-- There is an error. -/
  | error (e : TypeError)
  /-- An error in a declaration has ended its check. -/
  | skipped (declaration : String) (e : TypeError)
  /-- An unresolved name in a declaration has ended its check. -/
  | unresolved (declaration : String) (line : Nat)
  /-- The check of a method has ended early. -/
  | skippedMethod (cls method : String) (e : CheckError)
deriving DecidableEq

/-- The errors among some findings. -/
def scopeErrors (fs : List Finding) : List ScopeError :=
  fs.filterMap fun
    | .error e => some e
    | _ => none

/-- The errors among some remarks. -/
def typeErrors (rs : List Remark) : List TypeError :=
  rs.filterMap fun
    | .error e => some e
    | _ => none

/-- What is known about a program. -/
structure Context where
  /-- The registered classes. -/
  classes : ClassTable := .empty
  /-- What the names used at nodes refer to. -/
  resolutions : Table NodeId Resolution := ∅
  /-- What the members used at nodes refer to. -/
  members : Table NodeId Entry := ∅
  /-- The places of the declarations. -/
  layouts : Table NodeId Entry := ∅
  /-- The types of the expressions. -/
  types : Table NodeId Ty := ∅
  /-- The errors found by name analysis, in the order in which they were found. -/
  scopeErrors : List ScopeError := []
  /-- The errors found by type checking, in the order in which they were found. -/
  typeErrors : List TypeError := []

namespace Context

instance : Inhabited Context := ⟨{}⟩

/-- The subtype relation between the types of a program. -/
def subtype (ctx : Context) (t u : Ty) : Bool := Ty.subtype ctx.classes.hierarchy t u

/-- Takes note of something that name analysis has found.  What was known of the same kind about the
same node is replaced. -/
def addFinding (ctx : Context) : Finding → Context
  | .use n r => { ctx with resolutions := ctx.resolutions.insert n r }
  | .member n e => { ctx with members := ctx.members.insert n e }
  | .layout n e => { ctx with layouts := ctx.layouts.insert n e }
  | .error e => { ctx with scopeErrors := ctx.scopeErrors ++ [e] }

/-- Takes note of something that type checking has found.  A type that is known already stays, and
notes for the log change nothing. -/
def addRemark (ctx : Context) : Remark → Context
  | .typed n t => { ctx with types := ctx.types.insertNew n t }
  | .error e => { ctx with typeErrors := ctx.typeErrors ++ [e] }
  | .skipped _ _ | .unresolved _ _ | .skippedMethod _ _ _ => ctx

/-- Takes note of all that name analysis has found. -/
def addFindings (ctx : Context) (fs : List Finding) : Context := fs.foldl addFinding ctx

/-- Takes note of all that type checking has found. -/
def addRemarks (ctx : Context) (rs : List Remark) : Context := rs.foldl addRemark ctx

/-- How many errors have been reported by the analyses.  A reader may have found others before. -/
def errorCounts (ctx : Context) : ErrorCounts :=
  { scope := ctx.scopeErrors.length, types := ctx.typeErrors.length }

/-! ## The errors are those of the notes -/

theorem scopeErrors_addFindings (ctx : Context) (fs : List Finding) :
    (ctx.addFindings fs).scopeErrors = ctx.scopeErrors ++ ObjectLet.scopeErrors fs := by
  induction fs generalizing ctx with
  | nil => simp [addFindings, ObjectLet.scopeErrors]
  | cons f fs ih =>
    rw [addFindings, List.foldl_cons, ← addFindings, ih]
    cases f <;> simp [addFinding, ObjectLet.scopeErrors]

theorem typeErrors_addRemarks (ctx : Context) (rs : List Remark) :
    (ctx.addRemarks rs).typeErrors = ctx.typeErrors ++ ObjectLet.typeErrors rs := by
  induction rs generalizing ctx with
  | nil => simp [addRemarks, ObjectLet.typeErrors]
  | cons r rs ih =>
    rw [addRemarks, List.foldl_cons, ← addRemarks, ih]
    cases r <;> simp [addRemark, ObjectLet.typeErrors]

theorem typeErrors_addFindings (ctx : Context) (fs : List Finding) :
    (ctx.addFindings fs).typeErrors = ctx.typeErrors := by
  induction fs generalizing ctx with
  | nil => rfl
  | cons f fs ih =>
    rw [addFindings, List.foldl_cons, ← addFindings, ih]
    cases f <;> rfl

theorem scopeErrors_addRemarks (ctx : Context) (rs : List Remark) :
    (ctx.addRemarks rs).scopeErrors = ctx.scopeErrors := by
  induction rs generalizing ctx with
  | nil => rfl
  | cons r rs ih =>
    rw [addRemarks, List.foldl_cons, ← addRemarks, ih]
    cases r <;> rfl

end Context

end ObjectLet
