import ObjectLet.Proofs.Renaming.Context
import ObjectLet.Proofs.Typings

/-!
# Types are found alike

The rules of type checking look at types, at the hierarchy and at the decorations of the nodes, and
never at a name itself.  So a renamed program is checked with the same outcome, renamed: the rules
first, then expressions and declarations by going through them.

* `Expr.check_rename`: **an expression has the same type, renamed, or none for the same reason.**
* `Program.check_rename`: **what is remarked about a renamed program is what is remarked about the
  program, renamed.**
-/

set_option autoImplicit false

namespace ObjectLet

variable (r : Renaming)

/-! ## Outcomes -/

namespace Checked

variable {α β γ δ : Type} {g : α → β} {h : γ → δ}

/-- An outcome, renamed. -/
def rename (g : α → β) (x : Checked α) : Checked β :=
  ⟨x.remarks.map (Remark.rename r), mapBoth (CheckError.rename r) g x.result⟩

theorem rename_pure (a : α) : (pure a : Checked α).rename r g = pure (g a) := rfl

/-- Two checks, one after the other, are renamed one after the other. -/
theorem rename_bind {x : Checked α} {k : α → Checked γ} {k' : β → Checked δ}
    (hk : ∀ a, k' (g a) = (k a).rename r h) : x.rename r g >>= k' = (x >>= k).rename r h := by
  obtain ⟨remarks, result⟩ := x
  cases result with
  | error e => rfl
  | ok a =>
    show (⟨remarks.map (Remark.rename r) ++ (k' (g a)).remarks, (k' (g a)).result⟩ : Checked δ) = _
    rw [hk, rename, ← List.map_append]
    rfl

theorem rename_require (site : Site) (holds : Bool) (cause : TypeError.Cause) :
    require (r.relabelling.site site) holds (cause.rename r.names)
      = (require site holds cause).rename r id := by
  cases holds <;> rfl

theorem rename_resolved (site : Site) (x : Option α) :
    resolved (r.relabelling.site site) (x.map g) = (resolved site x).rename r g := by
  cases x <;> rfl

theorem rename_typed (site : Site) (ty : Ty) :
    typed (r.relabelling.site site) (ty.rename r.names)
      = (typed site ty).rename r (Ty.rename r.names) := rfl

/-- A rule that gives the same, renamed, is applied alike. -/
theorem rename_judge (site : Site) (x : Except TypeError.Cause Ty) :
    judge (r.relabelling.site site) (mapBoth (TypeError.Cause.rename r.names) (Ty.rename r.names) x)
      = (judge site x).rename r (Ty.rename r.names) := by
  cases x <;> rfl

theorem rename_signature (site : Site) (x : Except TypeError.Cause Signature) :
    Checked.signature (r.relabelling.site site)
        (mapBoth (TypeError.Cause.rename r.names) (Signature.rename r.names) x)
      = (Checked.signature site x).rename r (Signature.rename r.names) := by
  cases x <;> rfl

theorem recover_rename (d : String) (x : Checked Unit) :
    (x.rename r id).recover (r.names d) = (x.recover d).map (Remark.rename r) := by
  obtain ⟨remarks, e | a⟩ := x
  · cases e <;> simp [recover, rename, mapBoth, CheckError.rename, Remark.rename]
  · rfl

theorem recoverMethod_rename (c m : String) (x : Checked Unit) :
    (x.rename r id).recoverMethod (r.names c) (r.names m)
      = (x.recoverMethod c m).map (Remark.rename r) := by
  obtain ⟨remarks, e | a⟩ := x
  · simp [recoverMethod, rename, mapBoth, Remark.rename]
  · rfl

end Checked

/-! ## Rules -/

section Rules

variable (f : String → String) (x : String) (ty : Ty)

theorem valueType_rename :
    valueType (f x) (ty.rename f)
      = mapBoth (TypeError.Cause.rename f) (Ty.rename f) (valueType x ty) := by
  cases ty <;> rfl

theorem fieldType_rename :
    fieldType (f x) (ty.rename f)
      = mapBoth (TypeError.Cause.rename f) (Ty.rename f) (fieldType x ty) := by
  rw [fieldType, Ty.isMethod_rename, fieldType]
  split <;> rfl

theorem calledSignature_rename :
    calledSignature (f x) (ty.rename f)
      = mapBoth (TypeError.Cause.rename f) (Signature.rename f) (calledSignature x ty) := by
  rw [calledSignature, Ty.callable?_rename, calledSignature]
  cases ty.callable? <;> rfl

theorem invokedSignature_rename :
    invokedSignature (f x) (ty.rename f)
      = mapBoth (TypeError.Cause.rename f) (Signature.rename f) (invokedSignature x ty) := by
  cases ty <;> rfl

end Rules

namespace Context

variable (ctx : Context) (t u : Ty) (site : Site) (x : String)

theorem subtype_int_rename : (ctx.rename r).subtype (t.rename r.names) .int = ctx.subtype t .int :=
  subtype_rename r ctx t .int

theorem subtype_bool_rename :
    (ctx.rename r).subtype (t.rename r.names) .bool = ctx.subtype t .bool :=
  subtype_rename r ctx t .bool

theorem arithType_rename (op : ArithOp) :
    (ctx.rename r).arithType op (t.rename r.names) (u.rename r.names)
      = mapBoth (TypeError.Cause.rename r.names) (Ty.rename r.names) (ctx.arithType op t u) := by
  simp only [arithType, subtype_int_rename]
  split <;> rfl

theorem compareType_rename (op : CompareOp) :
    (ctx.rename r).compareType op (t.rename r.names) (u.rename r.names)
      = mapBoth (TypeError.Cause.rename r.names) (Ty.rename r.names) (ctx.compareType op t u) := by
  simp only [compareType, subtype_rename]
  split <;> rfl

theorem logicType_rename (op : LogicOp) :
    (ctx.rename r).logicType op (t.rename r.names) (u.rename r.names)
      = mapBoth (TypeError.Cause.rename r.names) (Ty.rename r.names) (ctx.logicType op t u) := by
  simp only [logicType, subtype_bool_rename]
  split <;> rfl

theorem notType_rename :
    (ctx.rename r).notType (t.rename r.names)
      = mapBoth (TypeError.Cause.rename r.names) (Ty.rename r.names) (ctx.notType t) := by
  simp only [notType, subtype_bool_rename]
  split <;> rfl

theorem condType_rename :
    (ctx.rename r).condType (t.rename r.names) (u.rename r.names)
      = mapBoth (TypeError.Cause.rename r.names) (Ty.rename r.names) (ctx.condType t u) := by
  simp only [condType, subtype_rename, classes_rename, ClassTable.hierarchy_rename,
    Ty.commonAncestor?_rename]
  split
  · rfl
  split
  · rfl
  cases Ty.commonAncestor? ctx.classes.hierarchy t u <;> rfl

/-! ### Decorations -/

theorem resolution_rename :
    (ctx.rename r).resolution (r.relabelling.site site)
      = (ctx.resolution site).rename r (Resolution.rename r.names) := by
  rw [resolution, Renaming.id_site, rename, Table.find?_map, Checked.rename_resolved, resolution]

theorem member_rename :
    (ctx.rename r).member (r.relabelling.site site)
      = (ctx.member site).rename r (Entry.rename r.names) := by
  rw [member, Renaming.id_site, rename, Table.find?_map, Checked.rename_resolved, member]

theorem checkReceiver_rename :
    (ctx.rename r).checkReceiver (r.relabelling.site site) (r.names x)
      = (ctx.checkReceiver site x).rename r id := by
  rw [checkReceiver, resolution_rename, checkReceiver]
  refine Checked.rename_bind r fun u ↦ ?_
  rw [Resolution.entry_rename, Entry.ty_rename]
  cases u.entry.ty <;> rfl

theorem constructor_rename :
    (ctx.rename r).constructor (r.relabelling.site site) (r.names x)
      = (ctx.constructor site x).rename r (Signature.rename r.names) := by
  rw [constructor, resolution_rename, constructor]
  refine Checked.rename_bind r fun u ↦ ?_
  rw [classes_rename, ClassTable.shape?_rename, Checked.rename_resolved]
  refine Checked.rename_bind r fun s ↦ ?_
  rw [Checked.rename_pure, Shape.fields_rename, Signature.rename, Ty.renameAll_eq, Ty.rename]

end Context

theorem checkArity_rename (site : Site) (x : String) (s : Signature) (args : List Expr) :
    checkArity (r.relabelling.site site) (r.names x) (s.rename r.names) (Expr.relabelAll r args)
      = (checkArity site x s args).rename r id := by
  rw [checkArity, Signature.arity_rename, Expr.relabelAll_eq, List.length_map]
  exact Checked.rename_require r site _ (.argumentCount x s.arity args.length)

/-! ## Expressions -/

/-- The checks that all calls end with, given that the arguments are checked alike. -/
theorem Expr.checkCall_rename {ctx : Context} {s : Site} {x : String} {args : List Expr}
    (hargs : ∀ ps position, Expr.checkArgs (ctx.rename r) (r.relabelling.site s) (r.names x)
        position (Expr.relabelAll r args) (ps.map (Ty.rename r.names))
      = (Expr.checkArgs ctx s x position args ps).rename r id) (t : Signature) :
    Expr.checkCall (ctx.rename r) (r.relabelling.site s) (r.names x) (t.rename r.names)
        (Expr.relabelAll r args)
      = (Expr.checkCall ctx s x t args).rename r (Ty.rename r.names) := by
  rw [Expr.checkCall, checkArity_rename, Signature.params_rename, hargs, Signature.ret_rename]
  exact Checked.rename_bind r fun _ ↦ Checked.rename_bind r fun _ ↦ rfl

mutual

/-- **An expression has the same type, renamed, or none for the same reason.** -/
theorem Expr.check_rename (ctx : Context) : ∀ e : Expr,
    (e.relabel r).check (ctx.rename r) = (e.check ctx).rename r (Ty.rename r.names)
  | .int _ _ | .bool _ _ | .null _ => rfl
  | .arith s op a b => by
    simp only [Expr.relabel, Expr.check, Expr.check_rename ctx a, Expr.check_rename ctx b]
    refine Checked.rename_bind r fun t ↦ Checked.rename_bind r fun u ↦ ?_
    rw [Context.arithType_rename, Checked.rename_judge]
  | .compare s op a b => by
    simp only [Expr.relabel, Expr.check, Expr.check_rename ctx a, Expr.check_rename ctx b]
    refine Checked.rename_bind r fun t ↦ Checked.rename_bind r fun u ↦ ?_
    rw [Context.compareType_rename, Checked.rename_judge]
  | .logic s op a b => by
    simp only [Expr.relabel, Expr.check, Expr.check_rename ctx a, Expr.check_rename ctx b]
    refine Checked.rename_bind r fun t ↦ Checked.rename_bind r fun u ↦ ?_
    rw [Context.logicType_rename, Checked.rename_judge]
  | .not s e => by
    simp only [Expr.relabel, Expr.check, Expr.check_rename ctx e]
    refine Checked.rename_bind r fun t ↦ ?_
    rw [Context.notType_rename, Checked.rename_judge]
  | .cond s c a b => by
    simp only [Expr.relabel, Expr.check, Expr.check_rename ctx c, Expr.check_rename ctx a,
      Expr.check_rename ctx b]
    refine Checked.rename_bind r fun t ↦ ?_
    rw [Context.subtype_bool_rename]
    have hrequire := Checked.rename_require r s (ctx.subtype t .bool) .nonBooleanCondition
    rw [TypeError.Cause.rename] at hrequire
    rw [hrequire]
    refine Checked.rename_bind r fun _ ↦ Checked.rename_bind r fun u ↦
      Checked.rename_bind r fun v ↦ ?_
    rw [Context.condType_rename, Checked.rename_judge]
  | .print s e => by
    simp only [Expr.relabel, Expr.check, Expr.check_rename ctx e]
    exact Checked.rename_bind r fun t ↦ Checked.rename_typed r s t
  | .ident s x => by
    simp only [Expr.relabel, Expr.check, Context.resolution_rename]
    refine Checked.rename_bind r fun u ↦ ?_
    rw [Resolution.entry_rename, Entry.ty_rename, Renaming.names_relabelling, valueType_rename,
      Checked.rename_judge]
  | .call s x args => by
    simp only [Expr.relabel, Expr.check, Context.resolution_rename]
    refine Checked.rename_bind r fun u ↦ ?_
    rw [Resolution.entry_rename, Entry.ty_rename, Renaming.names_relabelling,
      calledSignature_rename, Checked.rename_signature]
    exact Checked.rename_bind r fun t ↦
      Expr.checkCall_rename r (Expr.checkArgs_rename ctx s x args) t
  | .field s x m => by
    simp only [Expr.relabel, Expr.check, Renaming.names_relabelling, Context.checkReceiver_rename,
      Context.member_rename]
    refine Checked.rename_bind r fun _ ↦ Checked.rename_bind r fun e ↦ ?_
    rw [Entry.ty_rename, fieldType_rename, Checked.rename_judge]
  | .invoke s x m args => by
    simp only [Expr.relabel, Expr.check, Renaming.names_relabelling, Context.checkReceiver_rename,
      Context.member_rename]
    refine Checked.rename_bind r fun _ ↦ Checked.rename_bind r fun e ↦ ?_
    rw [Entry.ty_rename, invokedSignature_rename, Checked.rename_signature]
    exact Checked.rename_bind r fun t ↦
      Expr.checkCall_rename r (Expr.checkArgs_rename ctx s m args) t
  | .new s c args => by
    simp only [Expr.relabel, Expr.check, Renaming.names_relabelling, Context.constructor_rename]
    exact Checked.rename_bind r fun t ↦
      Expr.checkCall_rename r (Expr.checkArgs_rename ctx s c args) t
termination_by structural e => e

theorem Expr.checkArgs_rename (ctx : Context) (s : Site) (x : String) :
    ∀ (args : List Expr) (ps : List Ty) (position : Nat),
    Expr.checkArgs (ctx.rename r) (r.relabelling.site s) (r.names x) position
        (Expr.relabelAll r args) (ps.map (Ty.rename r.names))
      = (Expr.checkArgs ctx s x position args ps).rename r id
  | [], _, _ => rfl
  | _ :: _, [], _ => rfl
  | e :: es, p :: ps, position => by
    simp only [Expr.relabelAll, List.map_cons, Expr.checkArgs, Expr.check_rename ctx e]
    refine Checked.rename_bind r fun t ↦ ?_
    have hrequire := Checked.rename_require r s (ctx.subtype t p) (.argumentType x position)
    rw [TypeError.Cause.rename] at hrequire
    rw [Context.subtype_rename, hrequire]
    exact Checked.rename_bind r fun _ ↦ Expr.checkArgs_rename ctx s x es ps (position + 1)
termination_by structural args => args

end

/-! ## Overriding -/

namespace Context

variable (ctx : Context) (t u : Ty)

theorem fieldOverrides_rename :
    (ctx.rename r).fieldOverrides (t.rename r.names) (u.rename r.names)
      = ctx.fieldOverrides t u := by
  rw [fieldOverrides, Ty.isMethod_rename, subtype_rename, fieldOverrides]

theorem methodOverrides_rename (s : Signature) :
    (ctx.rename r).methodOverrides (t.rename r.names) (s.rename r.names)
      = ctx.methodOverrides t s := by
  cases t with
  | method u => exact Signature.subtype_rename r.names ctx.classes.hierarchy s u
  | _ => rfl

theorem inheritedMembers_rename (c : ClassDecl) :
    (ctx.rename r).inheritedMembers (c.relabel r)
      = (ctx.inheritedMembers c).map r.names (Entry.rename r.names) := by
  rw [inheritedMembers, inheritedMembers, ClassDecl.superclass_relabel]
  cases c.superclass with
  | none => rfl
  | some s =>
    rw [Option.map_some, Option.bind_some, classes_rename, ClassTable.members?_rename,
      Option.bind_some]
    cases ctx.classes.members? s <;> rfl

/-- What a class overrides is looked at alike. -/
theorem checkOverrides_rename (c : ClassDecl) :
    (ctx.rename r).checkOverrides (c.relabel r)
      = (ctx.checkOverrides c).map (Remark.rename r) := by
  simp only [checkOverrides, inheritedMembers_rename, ClassDecl.fields_relabel,
    ClassDecl.methods_relabel, List.flatMap_map, List.map_append, List.map_flatMap]
  congr 2
  · funext b
    simp only [Binder.name_relabel, Table.find?_map]
    cases (ctx.inheritedMembers c).find? b.name with
    | none => rfl
    | some m =>
      simp only [Option.map_some, Entry.ty_rename, Binder.ty_relabel, fieldOverrides_rename,
        ClassDecl.name_relabel]
      split <;> rfl
  · funext f
    simp only [FunDecl.name_relabel, Table.find?_map]
    cases (ctx.inheritedMembers c).find? f.name with
    | none => rfl
    | some m =>
      simp only [Option.map_some, Entry.ty_rename, FunDecl.signature_relabel,
        methodOverrides_rename, ClassDecl.name_relabel, FunDecl.site_relabel]
      split <;> rfl

end Context

/-! ## Declarations -/

theorem checkInit_rename (ctx : Context) (s : Site) (x : String) (ty : Ty) (e : Expr) :
    checkInit (ctx.rename r) (r.relabelling.site s) (r.names x) (ty.rename r.names) (e.relabel r)
      = (checkInit ctx s x ty e).rename r id := by
  rw [checkInit, Expr.check_rename]
  refine Checked.rename_bind r fun t ↦ ?_
  rw [Context.subtype_rename]
  exact Checked.rename_require r s _ (.incompatibleValue x)

theorem checkBody_rename (ctx : Context) (s : Site) (x : String) (ret : Ty) (e : Expr) :
    checkBody (ctx.rename r) (r.relabelling.site s) (r.names x) (ret.rename r.names) (e.relabel r)
      = (checkBody ctx s x ret e).rename r id := by
  rw [checkBody, Expr.check_rename]
  refine Checked.rename_bind r fun t ↦ ?_
  rw [Context.subtype_rename]
  exact Checked.rename_require r s _ (.wrongReturnType x)

mutual

/-- **What is remarked about a declaration is remarked alike**, in the same order and
with other names. -/
theorem Decl.check_rename (ctx : Context) : ∀ d : Decl,
    (d.relabel r).check (ctx.rename r) = (d.check ctx).map (Remark.rename r)
  | .var s x ty e => by
    simp only [Decl.relabel, Decl.check, Renaming.names_relabelling, checkInit_rename,
      Checked.recover_rename]
  | .func f => by
    simp only [Decl.relabel, Decl.check, FunDecl.check_rename ctx f, FunDecl.name_relabel,
      Checked.recover_rename]
  | .cls c => ClassDecl.check_rename ctx c
termination_by structural d => d

theorem FunDecl.check_rename (ctx : Context) : ∀ f : FunDecl,
    (f.relabel r).check (ctx.rename r) = (f.check ctx).rename r id
  | ⟨s, x, ret, params, locals, body⟩ => by
    simp only [FunDecl.relabel, FunDecl.check, Renaming.names_relabelling, checkBody_rename,
      Decl.check_rename_all ctx locals, Checked.rename, List.map_append]
termination_by structural f => f

theorem ClassDecl.check_rename (ctx : Context) : ∀ c : ClassDecl,
    (c.relabel r).check (ctx.rename r) = (c.check ctx).map (Remark.rename r)
  | ⟨s, x, superclass, fields, methods⟩ => by
    have hover := Context.checkOverrides_rename r ctx ⟨s, x, superclass, fields, methods⟩
    simp only [ClassDecl.relabel, Renaming.names_relabelling] at hover ⊢
    simp only [ClassDecl.check, hover, FunDecl.check_rename_methods ctx x methods, List.map_append]
termination_by structural c => c

theorem Decl.check_rename_all (ctx : Context) : ∀ ds : List Decl,
    Decl.checkAll (ctx.rename r) (Decl.relabelAll r ds)
      = (Decl.checkAll ctx ds).map (Remark.rename r)
  | [] => rfl
  | d :: ds => by
    simp only [Decl.relabelAll, Decl.checkAll, Decl.check_rename ctx d,
      Decl.check_rename_all ctx ds, List.map_append]
termination_by structural ds => ds

theorem FunDecl.check_rename_methods (ctx : Context) (c : String) : ∀ fs : List FunDecl,
    FunDecl.checkMethods (ctx.rename r) (r.names c) (FunDecl.relabelAll r fs)
      = (FunDecl.checkMethods ctx c fs).map (Remark.rename r)
  | [] => rfl
  | f :: fs => by
    simp only [FunDecl.relabelAll, FunDecl.checkMethods, FunDecl.check_rename ctx f,
      FunDecl.name_relabel, Checked.recoverMethod_rename, FunDecl.check_rename_methods ctx c fs,
      List.map_append]
termination_by structural fs => fs

end

/-- **What is remarked about a renamed program is what is remarked about the program, renamed.** -/
theorem Program.check_rename (ctx : Context) (p : Program) :
    (p.relabel r).check (ctx.rename r) = (p.check ctx).rename r (Ty.rename r.names) := by
  simp only [Program.check, Program.body_relabel, Program.decls_relabel, Expr.check_rename,
    Decl.check_rename_all, Checked.rename, List.map_append]

end ObjectLet
