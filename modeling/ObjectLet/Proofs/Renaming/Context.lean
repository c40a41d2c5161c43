import ObjectLet.Context
import ObjectLet.Proofs.Renaming.Trees

/-!
# Renamed knowledge

A `Renaming` gives different numbers to different nodes and different names to different names, and
it moves lines to lines.  So it acts not only on programs (as a `Relabelling`), but also on what is
found out about them: on scopes and class tables, on errors and notes, and on a whole `Context`.

What is looked up under a new name or number is what was there under the old one, renamed, and what
is noted renamed adds up to the renamed knowledge (`Context.addFindings_rename`,
`Context.addRemarks_rename`).
-/

set_option autoImplicit false

namespace ObjectLet

/-- Different numbers for different nodes, different names for different names, and other lines.
Lines may coincide, since nothing is looked up by them. -/
structure Renaming where
  /-- The new number of each node. -/
  ids : NodeId ↪ NodeId
  /-- The new name for each name. -/
  names : String ↪ String
  /-- The new line for each line of a node. -/
  lines : Nat → Nat
  /-- The new line of a program with declarations. -/
  top : Nat → Nat

namespace Renaming

/-- What a renaming does to trees. -/
def relabelling (r : Renaming) : Relabelling := ⟨r.ids, fun s ↦ r.lines s.line, r.names, r.top⟩

instance : Coe Renaming Relabelling := ⟨relabelling⟩

variable (r : Renaming) (s : Site)

@[simp] theorem names_relabelling : r.relabelling.names = r.names := rfl

@[simp] theorem id_site : (r.relabelling.site s).id = r.ids s.id := rfl

end Renaming

/-! ## Declarations -/

section Declarations

variable (r : Renaming) (b : Binder) (f : FunDecl) (c : ClassDecl)

@[simp] theorem Binder.site_relabel : (b.relabel r).site = r.relabelling.site b.site := rfl

@[simp] theorem Binder.name_relabel : (b.relabel r).name = r.names b.name := rfl

@[simp] theorem Binder.ty_relabel : (b.relabel r).ty = b.ty.rename r.names := rfl

@[simp] theorem FunDecl.site_relabel : (f.relabel r).site = r.relabelling.site f.site := by
  cases f
  rfl

@[simp] theorem FunDecl.name_relabel : (f.relabel r).name = r.names f.name := by
  cases f
  rfl

@[simp] theorem FunDecl.ret_relabel : (f.relabel r).ret = f.ret.rename r.names := by
  cases f
  rfl

@[simp] theorem FunDecl.params_relabel :
    (f.relabel r).params = f.params.map (Binder.relabel r) := by
  cases f
  rfl

@[simp] theorem FunDecl.signature_relabel :
    (f.relabel r).signature = f.signature.rename r.names := by
  obtain ⟨s, x, ret, params, locals, body⟩ := f
  simp only [relabel, signature, Signature.rename, Ty.renameAll_eq, List.map_map]
  rfl

@[simp] theorem ClassDecl.site_relabel : (c.relabel r).site = r.relabelling.site c.site := by
  cases c
  rfl

@[simp] theorem ClassDecl.name_relabel : (c.relabel r).name = r.names c.name := by
  cases c
  rfl

@[simp] theorem ClassDecl.superclass_relabel :
    (c.relabel r).superclass = c.superclass.map r.names := by
  cases c
  rfl

@[simp] theorem ClassDecl.fields_relabel :
    (c.relabel r).fields = c.fields.map (Binder.relabel r) := by
  cases c
  rfl

@[simp] theorem ClassDecl.methods_relabel :
    (c.relabel r).methods = c.methods.map (FunDecl.relabel r) := by
  cases c
  exact FunDecl.relabelAll_eq r _

end Declarations

section Names

variable (f : String ↪ String) (x y : String)

/-! ## Scopes -/

/-- An entry with other names for the classes. -/
def Entry.rename (f : String → String) (e : Entry) : Entry := ⟨e.level, e.ty.rename f, e.offset⟩

@[simp] theorem Entry.level_rename (f : String → String) (e : Entry) :
    (e.rename f).level = e.level := rfl

@[simp] theorem Entry.ty_rename (f : String → String) (e : Entry) :
    (e.rename f).ty = e.ty.rename f := rfl

@[simp] theorem Entry.offset_rename (f : String → String) (e : Entry) :
    (e.rename f).offset = e.offset := rfl

namespace Scopes

variable (s : Scopes)

/-- Scopes with other names. -/
def rename : Scopes := ⟨s.frames.map (Table.map f (Entry.rename f))⟩

@[simp] theorem nestingLevel_rename : (s.rename f).nestingLevel = s.nestingLevel := by
  rw [nestingLevel, rename, List.length_map, nestingLevel]

@[simp] theorem lookup?_rename :
    (s.rename f).lookup? (f x) = (s.lookup? x).map (Entry.rename f) := by
  obtain ⟨frames⟩ := s
  rw [lookup?, lookup?, rename]
  induction frames with
  | nil => rfl
  | cons frame frames ih =>
    simp only [List.map_cons, List.findSome?_cons, Table.find?_map] at ih ⊢
    cases frame.find? x with
    | none => exact ih
    | some e => rfl

@[simp] theorem lookupGlobal?_rename :
    (s.rename f).lookupGlobal? (f x) = (s.lookupGlobal? x).map (Entry.rename f) := by
  rw [lookupGlobal?, lookupGlobal?, rename, List.getLast?_map]
  cases s.frames.getLast? with
  | none => rfl
  | some frame => exact Table.find?_map f (Entry.rename f) frame x

@[simp] theorem declare?_rename (e : Entry) :
    (s.rename f).declare? (f x) (e.rename f) = (s.declare? x e).map (Scopes.rename f) := by
  obtain ⟨frames⟩ := s
  cases frames with
  | nil => rfl
  | cons frame frames =>
    simp only [declare?, rename, List.map_cons, Table.contains_map]
    split
    · rfl
    · simp only [Option.map_some, rename, List.map_cons, Table.map_insert]

end Scopes

/-! ## Class tables -/

/-- What is known about a class, with other names. -/
def ClassInfo.rename (i : ClassInfo) : ClassInfo :=
  ⟨i.members.map f (Entry.rename f), i.shape.rename f⟩

namespace ClassTable

variable (c : ClassTable)

/-- A class table with other names. -/
def rename : ClassTable := ⟨c.infos.map f (ClassInfo.rename f), c.hierarchy.rename f⟩

@[simp] theorem hierarchy_rename : (c.rename f).hierarchy = c.hierarchy.rename f := rfl

@[simp] theorem size_rename : (c.rename f).size = c.size :=
  Table.size_map f (ClassInfo.rename f) c.infos

@[simp] theorem info?_rename : (c.rename f).info? (f x) = (c.info? x).map (ClassInfo.rename f) :=
  Table.find?_map f (ClassInfo.rename f) c.infos x

@[simp] theorem contains_rename : (c.rename f).contains (f x) = c.contains x :=
  Table.contains_map f (ClassInfo.rename f) c.infos x

@[simp] theorem shape?_rename : (c.rename f).shape? (f x) = (c.shape? x).map (Shape.rename f) := by
  rw [shape?, shape?, info?_rename, Option.map_map, Option.map_map]
  rfl

@[simp] theorem members?_rename :
    (c.rename f).members? (f x) = (c.members? x).map (Table.map f (Entry.rename f)) := by
  rw [members?, members?, info?_rename, Option.map_map, Option.map_map]
  rfl

@[simp] theorem member?_rename :
    (c.rename f).member? (f x) (f y) = (c.member? x y).map (Entry.rename f) := by
  rw [member?, member?, members?_rename]
  cases c.members? x with
  | none => rfl
  | some members => exact Table.find?_map f (Entry.rename f) members y

@[simp] theorem superclass?_rename : (c.rename f).superclass? (f x) = (c.superclass? x).map f :=
  Hierarchy.superclass?_rename f c.hierarchy x

@[simp] theorem register?_rename (i : ClassInfo) :
    (c.rename f).register? (f x) (i.rename f) = (c.register? x i).map (ClassTable.rename f) := by
  rw [register?, register?, contains_rename]
  split
  · rfl
  · simp only [rename, Option.map_some, Table.map_insert]

@[simp] theorem rename_setSuperclass :
    (c.setSuperclass x y).rename f = (c.rename f).setSuperclass (f x) (f y) := by
  simp only [setSuperclass, rename, Hierarchy.rename_link]

end ClassTable

/-! ## Causes of errors -/

/-- The cause of a scope error, with other names. -/
def ScopeError.Cause.rename (f : String → String) : ScopeError.Cause → ScopeError.Cause
  | .redeclared x => .redeclared (f x)
  | .undeclared x => .undeclared (f x)
  | .undeclaredMember c x => .undeclaredMember (f c) (f x)
  | .undeclaredClass x => .undeclaredClass (f x)
  | .undeclaredSuperclass x => .undeclaredSuperclass (f x)
  | .undeclaredType x => .undeclaredType (f x)
  | .classNotGlobal x => .classNotGlobal (f x)

/-- The cause of a type error, with other names. -/
def TypeError.Cause.rename (f : String → String) : TypeError.Cause → TypeError.Cause
  | .incompatibleValue x => .incompatibleValue (f x)
  | .wrongReturnType x => .wrongReturnType (f x)
  | .nonIntegerOperand op => .nonIntegerOperand op
  | .incomparableOperands op => .incomparableOperands op
  | .nonBooleanOperand op => .nonBooleanOperand op
  | .nonBooleanNegation => .nonBooleanNegation
  | .nonBooleanCondition => .nonBooleanCondition
  | .incompatibleBranches => .incompatibleBranches
  | .notCallable x => .notCallable (f x)
  | .argumentCount x expected actual => .argumentCount (f x) expected actual
  | .argumentType x position => .argumentType (f x) position
  | .functionAsValue x => .functionAsValue (f x)
  | .classAsValue x => .classAsValue (f x)
  | .notAnObject x => .notAnObject (f x)
  | .methodAsField x => .methodAsField (f x)
  | .invalidOverride c x => .invalidOverride (f c) (f x)

/-- A resolution with other names. -/
def Resolution.rename (f : String → String) (r : Resolution) : Resolution :=
  ⟨r.entry.rename f, r.useLevel⟩

@[simp] theorem Resolution.entry_rename (f : String → String) (r : Resolution) :
    (r.rename f).entry = r.entry.rename f := rfl

end Names

/-! ## Errors and notes -/

/-- Another value, or another error. -/
def mapBoth {ε ε' α β : Type} (f : ε → ε') (g : α → β) : Except ε α → Except ε' β
  | .ok a => .ok (g a)
  | .error e => .error (f e)

theorem toOption_mapBoth {ε ε' α β : Type} (f : ε → ε') (g : α → β) (x : Except ε α) :
    (mapBoth f g x).toOption = x.toOption.map g := by
  cases x <;> rfl

section Notes

variable (r : Renaming)

/-- A scope error, renamed. -/
def ScopeError.rename (e : ScopeError) : ScopeError := ⟨e.cause.rename r.names, r.lines e.line⟩

/-- A type error, renamed. -/
def TypeError.rename (e : TypeError) : TypeError := ⟨e.cause.rename r.names, r.lines e.line⟩

/-- Why no type could be found, renamed. -/
def CheckError.rename : CheckError → CheckError
  | .type e => .type (e.rename r)
  | .unresolved line => .unresolved (r.lines line)

/-- Something that name analysis has found, renamed. -/
def Finding.rename : Finding → Finding
  | .use n u => .use (r.ids n) (u.rename r.names)
  | .member n e => .member (r.ids n) (e.rename r.names)
  | .layout n e => .layout (r.ids n) (e.rename r.names)
  | .error e => .error (e.rename r)

/-- Something that type checking has found or done, renamed. -/
def Remark.rename : Remark → Remark
  | .typed n t => .typed (r.ids n) (t.rename r.names)
  | .error e => .error (e.rename r)
  | .skipped d e => .skipped (r.names d) (e.rename r)
  | .unresolved d line => .unresolved (r.names d) (r.lines line)
  | .skippedMethod c m e => .skippedMethod (r.names c) (r.names m) (e.rename r)

end Notes

/-! ## Contexts -/

namespace Context

variable (r : Renaming) (ctx : Context)

/-- What is known about a program, renamed. -/
def rename : Context where
  classes := ctx.classes.rename r.names
  resolutions := ctx.resolutions.map r.ids (Resolution.rename r.names)
  members := ctx.members.map r.ids (Entry.rename r.names)
  layouts := ctx.layouts.map r.ids (Entry.rename r.names)
  types := ctx.types.map r.ids (Ty.rename r.names)
  scopeErrors := ctx.scopeErrors.map (ScopeError.rename r)
  typeErrors := ctx.typeErrors.map (TypeError.rename r)

@[simp] theorem classes_rename : (ctx.rename r).classes = ctx.classes.rename r.names := rfl

@[simp] theorem subtype_rename (t u : Ty) :
    (ctx.rename r).subtype (t.rename r.names) (u.rename r.names) = ctx.subtype t u :=
  Ty.subtype_rename r.names ctx.classes.hierarchy t u

theorem length_scopeErrors_rename :
    (ctx.rename r).scopeErrors.length = ctx.scopeErrors.length := List.length_map _

theorem length_typeErrors_rename :
    (ctx.rename r).typeErrors.length = ctx.typeErrors.length := List.length_map _

@[simp] theorem errorCounts_rename : (ctx.rename r).errorCounts = ctx.errorCounts := by
  simp only [errorCounts, length_scopeErrors_rename, length_typeErrors_rename]

theorem addFinding_rename (n : Finding) :
    (ctx.rename r).addFinding (n.rename r) = (ctx.addFinding n).rename r := by
  cases n <;> simp [addFinding, Finding.rename, rename]

theorem addRemark_rename (n : Remark) :
    (ctx.rename r).addRemark (n.rename r) = (ctx.addRemark n).rename r := by
  cases n <;> simp [addRemark, Remark.rename, rename]

theorem addFindings_rename (ns : List Finding) :
    (ctx.rename r).addFindings (ns.map (Finding.rename r)) = (ctx.addFindings ns).rename r := by
  induction ns generalizing ctx with
  | nil => rfl
  | cons n ns ih =>
    rw [List.map_cons, addFindings, List.foldl_cons, addFinding_rename, ← addFindings, ih]
    rfl

theorem addRemarks_rename (ns : List Remark) :
    (ctx.rename r).addRemarks (ns.map (Remark.rename r)) = (ctx.addRemarks ns).rename r := by
  induction ns generalizing ctx with
  | nil => rfl
  | cons n ns ih =>
    rw [List.map_cons, addRemarks, List.foldl_cons, addRemark_rename, ← addRemarks, ih]
    rfl

end Context

end ObjectLet
