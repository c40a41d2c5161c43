import ObjectLet.Proofs.Renaming.Context
import ObjectLet.Resolution

/-!
# Names are resolved alike

Name analysis of a renamed program goes through renamed scopes and finds, in the same order, the
same things renamed.  Each part of it has a lemma that says so: one for each way to use or declare a
name, one for the layout of classes, and one for each sort of tree.

* `Decl.resolve_rename`: **declarations are gone through alike.**
* `Program.resolve_rename`: **what is found in a renamed program is what is found in the program,
  renamed**, errors and their order included.
-/

set_option autoImplicit false

namespace ObjectLet

variable (r : Renaming)

/-! ## Layouts -/

namespace ClassLayout

variable (l : ClassLayout)

/-- A layout with other names. -/
def rename (f : String ↪ String) : ClassLayout :=
  ⟨l.members.map f (Entry.rename f), l.shape.rename f, l.declared.map f⟩

@[simp] theorem rename_inherit (f : String ↪ String) (i : ClassInfo) :
    (inherit i).rename f = inherit (i.rename f) := rfl

@[simp] theorem info_rename (f : String ↪ String) : (l.rename f).info = l.info.rename f := rfl

@[simp] theorem shape_rename (f : String ↪ String) : (l.rename f).shape = l.shape.rename f := rfl

@[simp] theorem members_rename (f : String ↪ String) :
    (l.rename f).members = l.members.map f (Entry.rename f) := rfl

@[simp] theorem contains_declared_rename (f : String ↪ String) (x : String) :
    (l.rename f).declared.contains (f x) = l.declared.contains x := by
  rw [Bool.eq_iff_iff, List.contains_iff_mem, List.contains_iff_mem, rename,
    List.mem_map_of_injective f.injective]

@[simp] theorem rename_place (f : String ↪ String) (x : String) (e : Entry) (s : Shape) :
    (l.place x e s).rename f = (l.rename f).place (f x) (e.rename f) (s.rename f) := by
  simp only [place, rename, Table.map_insert, List.map_cons]

theorem fieldPlace_rename (f : String ↪ String) (x : String) (ty : Ty) :
    (l.rename f).fieldPlace (f x) (ty.rename f)
      = ((l.fieldPlace x ty).1, (l.fieldPlace x ty).2.map (Ty.rename f)) := by
  simp only [fieldPlace, rename, Table.find?_map, Shape.fields_rename, List.length_map,
    Option.filter_map]
  have htest : (fun e : Entry ↦ !e.ty.isMethod) ∘ Entry.rename f = fun e ↦ !e.ty.isMethod :=
    funext fun e ↦ by simp
  rw [htest]
  cases (l.members.find? x).filter fun e ↦ !e.ty.isMethod with
  | none => simp
  | some e => simp [List.map_set]

theorem methodPlace_rename (f : String ↪ String) (x : String) (s : Signature) :
    (l.rename f).methodPlace (f x) (s.rename f)
      = ((l.methodPlace x s).1, (l.methodPlace x s).2.map (Signature.rename f)) := by
  simp only [methodPlace, rename, Table.find?_map, Shape.methods_rename, List.length_map,
    Option.filter_map]
  have htest : (fun e : Entry ↦ e.ty.isMethod) ∘ Entry.rename f = fun e ↦ e.ty.isMethod :=
    funext fun e ↦ by simp
  rw [htest]
  cases (l.members.find? x).filter fun e ↦ e.ty.isMethod with
  | none => simp
  | some e =>
    by_cases h : 0 ≤ e.offset <;> simp [h, List.map_set]

theorem addField_rename (b : Binder) :
    (l.rename r.names).addField (b.relabel r)
      = ((l.addField b).1.rename r.names, (l.addField b).2.map (Finding.rename r)) := by
  simp only [addField, Binder.name_relabel, contains_declared_rename, Binder.ty_relabel,
    fieldPlace_rename, shape_rename, Shape.methods_rename]
  split
  · rfl
  · simp only [rename_place, Shape.rename_mk]
    rfl

theorem addMethod_rename (f : FunDecl) :
    (l.rename r.names).addMethod (f.relabel r)
      = ((l.addMethod f).1.rename r.names, (l.addMethod f).2.map (Finding.rename r)) := by
  simp only [addMethod, FunDecl.name_relabel, contains_declared_rename, FunDecl.site_relabel,
    FunDecl.signature_relabel, methodPlace_rename, shape_rename, Shape.fields_rename]
  split
  · rfl
  · simp only [rename_place, Shape.rename_mk]
    rfl

theorem addFields_rename (bs : List Binder) :
    (l.rename r.names).addFields (bs.map (Binder.relabel r))
      = ((l.addFields bs).1.rename r.names, (l.addFields bs).2.map (Finding.rename r)) := by
  induction bs generalizing l with
  | nil => rfl
  | cons b bs ih => simp only [List.map_cons, addFields, addField_rename, ih, List.map_append]

theorem addMethods_rename (fs : List FunDecl) :
    (l.rename r.names).addMethods (fs.map (FunDecl.relabel r))
      = ((l.addMethods fs).1.rename r.names, (l.addMethods fs).2.map (Finding.rename r)) := by
  induction fs generalizing l with
  | nil => rfl
  | cons f fs ih => simp only [List.map_cons, addMethods, addMethod_rename, ih, List.map_append]

/-- A class is laid out alike. -/
theorem ofDecl_rename (base : ClassInfo) (c : ClassDecl) :
    ofDecl (base.rename r.names) (c.relabel r)
      = ((ofDecl base c).1.rename r.names, (ofDecl base c).2.map (Finding.rename r)) := by
  simp only [ofDecl, ← rename_inherit, ClassDecl.fields_relabel, addFields_rename,
    ClassDecl.methods_relabel, addMethods_rename, List.map_append]

end ClassLayout

/-! ## Types -/

mutual

theorem Ty.unknownClasses_rename (f : String ↪ String) (c : ClassTable) : ∀ t : Ty,
    (t.rename f).unknownClasses (c.rename f) = (t.unknownClasses c).map f
  | .int | .bool | .null | .cls _ => rfl
  | .ref x => by
    simp only [Ty.rename, Ty.unknownClasses, ClassTable.contains_rename]
    split <;> rfl
  | .arrow s => Signature.unknownClasses_rename f c s
  | .method s => Signature.unknownClasses_rename f c s
termination_by structural t => t

theorem Signature.unknownClasses_rename (f : String ↪ String) (c : ClassTable) : ∀ s : Signature,
    (s.rename f).unknownClasses (c.rename f) = (s.unknownClasses c).map f
  | ⟨ps, r⟩ => by
    simp only [Signature.rename, Signature.unknownClasses, Ty.unknownClasses_rename_all f c ps,
      Ty.unknownClasses_rename f c r, List.map_append]
termination_by structural s => s

theorem Ty.unknownClasses_rename_all (f : String ↪ String) (c : ClassTable) : ∀ ts : List Ty,
    Ty.unknownClassesIn (c.rename f) (Ty.renameAll f ts) = (Ty.unknownClassesIn c ts).map f
  | [] => rfl
  | t :: ts => by
    simp only [Ty.renameAll, Ty.unknownClassesIn, Ty.unknownClasses_rename f c t,
      Ty.unknownClasses_rename_all f c ts, List.map_append]
termination_by structural ts => ts

end

namespace Env

variable (env : Env)

/-- What is in scope, with other names. -/
def rename (f : String ↪ String) : Env :=
  ⟨env.scopes.rename f, env.classes.rename f, env.nextOffset⟩

@[simp] theorem scopes_rename (f : String ↪ String) :
    (env.rename f).scopes = env.scopes.rename f := rfl

@[simp] theorem classes_rename (f : String ↪ String) :
    (env.rename f).classes = env.classes.rename f := rfl

@[simp] theorem level_rename (f : String ↪ String) : (env.rename f).level = env.level :=
  Scopes.nestingLevel_rename f env.scopes

@[simp] theorem annotation_rename (site : Site) (ty : Ty) :
    Env.annotation (env.rename r.names) (r.relabelling.site site) (ty.rename r.names)
      = (env.annotation site ty).map (Finding.rename r) := by
  simp only [Env.annotation, classes_rename, Ty.unknownClasses_rename, List.map_map]
  rfl

@[simp] theorem signature_rename (f : FunDecl) :
    (env.rename r.names).signature (f.relabel r)
      = (env.signature f).map (Finding.rename r) := by
  simp [signature, List.flatMap_map, List.map_flatMap]

/-- Whether a type is the class itself does not depend on its name. -/
@[simp] theorem memberAnnotation_rename (cls : String) (site : Site) (ty : Ty) :
    Env.memberAnnotation (env.rename r.names) (r.names cls) (r.relabelling.site site)
        (ty.rename r.names)
      = (env.memberAnnotation cls site ty).map (Finding.rename r) := by
  have hself : ty.rename r.names = .ref (r.names cls) ↔ ty = .ref cls :=
    Ty.rename_inj r.names (u := .ref cls)
  simp only [Env.memberAnnotation, hself, annotation_rename]
  split <;> rfl

@[simp] theorem memberAnnotations_rename (c : ClassDecl) :
    (env.rename r.names).memberAnnotations (c.relabel r)
      = (env.memberAnnotations c).map (Finding.rename r) := by
  simp [memberAnnotations, List.flatMap_map, List.map_flatMap]

/-! ## Uses -/

@[simp] theorem useName_rename (site : Site) (x : String) :
    (env.rename r.names).useName (r.relabelling.site site) (r.names x)
      = (env.useName site x).map (Finding.rename r) := by
  simp only [useName, scopes_rename, Scopes.lookup?_rename, level_rename]
  cases env.scopes.lookup? x <;> rfl

@[simp] theorem useMember_rename (site : Site) (x m : String) :
    (env.rename r.names).useMember (r.relabelling.site site) (r.names x) (r.names m)
      = (env.useMember site x m).map (Finding.rename r) := by
  simp only [useMember, useName_rename, scopes_rename, Scopes.lookup?_rename, List.map_append]
  congr 1
  cases env.scopes.lookup? x with
  | none => rfl
  | some e =>
    obtain ⟨level, ty, offset⟩ := e
    cases ty with
    | ref c =>
      simp only [Option.map_some, Entry.ty_rename, Ty.rename, classes_rename,
        ClassTable.member?_rename]
      cases env.classes.member? c m <;> rfl
    | _ => rfl

theorem lookupClass?_rename (f : String ↪ String) (c : String) :
    (env.rename f).lookupClass? (f c) = (env.lookupClass? c).map (Entry.rename f) := by
  simp only [lookupClass?, scopes_rename, Scopes.lookupGlobal?_rename, classes_rename,
    ClassTable.contains_rename]
  cases env.scopes.lookupGlobal? c with
  | none => rfl
  | some e =>
    obtain ⟨level, ty, offset⟩ := e
    cases ty with
    | cls s =>
      simp only [Option.map_some, Entry.rename, Ty.rename]
      split <;> rfl
    | _ => rfl

@[simp] theorem useClass_rename (site : Site) (c : String) :
    (env.rename r.names).useClass (r.relabelling.site site) (r.names c)
      = (env.useClass site c).map (Finding.rename r) := by
  simp only [useClass, lookupClass?_rename, level_rename]
  cases env.lookupClass? c <;> rfl

end Env

/-! ## Expressions -/

mutual

/-- Expressions are gone through alike. -/
theorem Expr.resolve_rename (env : Env) : ∀ e : Expr,
    (e.relabel r).resolve (env.rename r.names) = (e.resolve env).map (Finding.rename r)
  | .int _ _ | .bool _ _ | .null _ => rfl
  | .arith _ _ a b | .compare _ _ a b | .logic _ _ a b => by
    simp only [Expr.relabel, Expr.resolve, Expr.resolve_rename env a, Expr.resolve_rename env b,
      List.map_append]
  | .not _ e => Expr.resolve_rename env e
  | .print _ e => Expr.resolve_rename env e
  | .cond _ c a b => by
    simp only [Expr.relabel, Expr.resolve, Expr.resolve_rename env c, Expr.resolve_rename env a,
      Expr.resolve_rename env b, List.map_append]
  | .ident s x => Env.useName_rename r env s x
  | .field s x m => Env.useMember_rename r env s x m
  | .call s x args => by
    simp only [Expr.relabel, Expr.resolve, Renaming.names_relabelling, Env.useName_rename,
      Expr.resolve_rename_all env args, List.map_append]
  | .invoke s x m args => by
    simp only [Expr.relabel, Expr.resolve, Renaming.names_relabelling, Env.useMember_rename,
      Expr.resolve_rename_all env args, List.map_append]
  | .new s c args => by
    simp only [Expr.relabel, Expr.resolve, Renaming.names_relabelling, Env.useClass_rename,
      Expr.resolve_rename_all env args, List.map_append]
termination_by structural e => e

theorem Expr.resolve_rename_all (env : Env) : ∀ es : List Expr,
    Expr.resolveAll (env.rename r.names) (Expr.relabelAll r es)
      = (Expr.resolveAll env es).map (Finding.rename r)
  | [] => rfl
  | e :: es => by
    simp only [Expr.relabelAll, Expr.resolveAll, Expr.resolve_rename env e,
      Expr.resolve_rename_all env es, List.map_append]
termination_by structural es => es

end

/-! ## Declarations -/

namespace Env

variable (env : Env)

@[simp] theorem rename_enter (f : String ↪ String) :
    env.enter.rename f = (env.rename f).enter := rfl

theorem declare_rename (site : Site) (x : String) (e : Entry) :
    (env.rename r.names).declare (r.relabelling.site site) (r.names x) (e.rename r.names)
      = ((env.declare site x e).1.rename r.names,
        (env.declare site x e).2.map (Finding.rename r)) := by
  simp only [declare, scopes_rename, Scopes.declare?_rename]
  cases env.scopes.declare? x e <;> rfl

theorem declareNext_rename (site : Site) (x : String) (ty : Ty) :
    (env.rename r.names).declareNext (r.relabelling.site site) (r.names x) (ty.rename r.names)
      = ((env.declareNext site x ty).1.rename r.names,
        (env.declareNext site x ty).2.map (Finding.rename r)) := by
  rw [declareNext, level_rename]
  exact declare_rename r { env with nextOffset := env.nextOffset - 1 } site x
    ⟨env.level, ty, env.nextOffset⟩

theorem declareParams_rename (offset : Int) (bs : List Binder) :
    (env.rename r.names).declareParams offset (bs.map (Binder.relabel r))
      = ((env.declareParams offset bs).1.rename r.names,
        (env.declareParams offset bs).2.map (Finding.rename r)) := by
  induction bs generalizing env offset with
  | nil => rfl
  | cons b bs ih =>
    have hfirst : (env.rename r.names).declare (r.relabelling.site b.site) (r.names b.name)
        ⟨env.level, b.ty.rename r.names, offset⟩
          = ((env.declare b.site b.name ⟨env.level, b.ty, offset⟩).1.rename r.names,
            (env.declare b.site b.name ⟨env.level, b.ty, offset⟩).2.map (Finding.rename r)) :=
      declare_rename r env b.site b.name ⟨env.level, b.ty, offset⟩
    simp only [List.map_cons, declareParams, level_rename, Binder.site_relabel,
      Binder.name_relabel, Binder.ty_relabel, hfirst, ih, List.map_append]

/-! ### Classes -/

theorem superclass_rename (c : ClassDecl) :
    (env.rename r.names).superclass (c.relabel r)
      = ((env.superclass c).1.map r.names, (env.superclass c).2.1.rename r.names,
        (env.superclass c).2.2.map (Finding.rename r)) := by
  simp only [superclass, ClassDecl.superclass_relabel]
  cases c.superclass with
  | none => rfl
  | some s =>
    simp only [Option.map_some, classes_rename, ClassTable.info?_rename]
    cases env.classes.info? s with
    | none =>
      rw [ClassDecl.site_relabel]
      rfl
    | some i => rfl

theorem register_rename (f : String ↪ String) (x : String) (s : Option String) (i : ClassInfo) :
    (env.rename f).register (f x) (s.map f) (i.rename f) = (env.register x s i).rename f := by
  simp only [register, classes_rename, ClassTable.register?_rename]
  cases env.classes.register? x i with
  | none => rfl
  | some classes =>
    cases s with
    | none => rfl
    | some s => simp only [Option.map_some, rename, ClassTable.rename_setSuperclass]

theorem declareClass_rename (c : ClassDecl) (s : Option String) (i : ClassInfo) :
    (env.rename r.names).declareClass (c.relabel r) (s.map r.names) (i.rename r.names)
      = ((env.declareClass c s i).1.rename r.names,
        (env.declareClass c s i).2.map (Finding.rename r)) := by
  simp only [declareClass, level_rename, ClassDecl.name_relabel, ClassDecl.site_relabel,
    register_rename]
  split
  · exact declareNext_rename r _ c.site c.name (.cls i.shape)
  · rfl

theorem classHead_rename (c : ClassDecl) :
    (env.rename r.names).classHead (c.relabel r)
      = ((env.classHead c).1.rename r.names, (env.classHead c).2.1.rename r.names,
        (env.classHead c).2.2.map (Finding.rename r)) := by
  have hmisplaced : (if env.level = 0 then []
      else [errorAt (r.relabelling.site c.site) (.classNotGlobal (r.names c.name))])
        = (if env.level = 0 then [] else [errorAt c.site (.classNotGlobal c.name)]).map
          (Finding.rename r) := by
    split <;> rfl
  simp only [classHead_eq, superclass_rename, ClassLayout.ofDecl_rename, ClassLayout.info_rename,
    declareClass_rename, memberAnnotations_rename, level_rename, ClassDecl.site_relabel,
    ClassDecl.name_relabel, hmisplaced, ClassLayout.members_rename, List.map_append]
  rfl

end Env

mutual

/-- **Declarations are gone through alike.** What is in scope afterwards has been renamed, and so
has what was found. -/
theorem Decl.resolve_rename : ∀ (d : Decl) (env : Env),
    (d.relabel r).resolve (env.rename r.names)
      = ((d.resolve env).1.rename r.names, (d.resolve env).2.map (Finding.rename r))
  | .var s x ty e, env => by
    simp only [Decl.relabel, Decl.resolve, Renaming.names_relabelling, Env.declareNext_rename,
      Expr.resolve_rename, Env.annotation_rename, List.map_append]
  | .func f, env => by
    have hnext := Env.declareNext_rename r env f.site f.name (.arrow f.signature)
    rw [Ty.rename] at hnext
    simp only [Decl.relabel, Decl.resolve, FunDecl.site_relabel, FunDecl.name_relabel,
      FunDecl.signature_relabel, hnext, Env.signature_rename, FunDecl.resolveBody_rename f,
      List.map_append]
  | .cls c, env => ClassDecl.resolve_rename c env
termination_by structural d => d

theorem FunDecl.resolveBody_rename : ∀ (f : FunDecl) (env : Env),
    (f.relabel r).resolveBody (env.rename r.names) = (f.resolveBody env).map (Finding.rename r)
  | ⟨s, x, ret, params, locals, body⟩, env => by
    simp only [FunDecl.relabel, FunDecl.resolveBody, ← Env.rename_enter, Env.declareParams_rename,
      Decl.resolve_rename_all locals, Expr.resolve_rename, List.map_append]
termination_by structural f => f

theorem ClassDecl.resolve_rename : ∀ (c : ClassDecl) (env : Env),
    (c.relabel r).resolve (env.rename r.names)
      = ((c.resolve env).1.rename r.names, (c.resolve env).2.map (Finding.rename r))
  | ⟨s, x, superclass, fields, methods⟩, env => by
    have hhead := Env.classHead_rename r env ⟨s, x, superclass, fields, methods⟩
    simp only [ClassDecl.relabel] at hhead ⊢
    simp only [ClassDecl.resolve, hhead, FunDecl.resolveBodies_rename methods, List.map_append]
termination_by structural c => c

theorem Decl.resolve_rename_all : ∀ (ds : List Decl) (env : Env),
    Decl.resolveAll (env.rename r.names) (Decl.relabelAll r ds)
      = ((Decl.resolveAll env ds).1.rename r.names,
        (Decl.resolveAll env ds).2.map (Finding.rename r))
  | [], _ => rfl
  | d :: ds, env => by
    simp only [Decl.relabelAll, Decl.resolveAll, Decl.resolve_rename d, Decl.resolve_rename_all ds,
      List.map_append]
termination_by structural ds => ds

theorem FunDecl.resolveBodies_rename : ∀ (fs : List FunDecl) (env : Env),
    FunDecl.resolveBodies (env.rename r.names) (FunDecl.relabelAll r fs)
      = (FunDecl.resolveBodies env fs).map (Finding.rename r)
  | [], _ => rfl
  | f :: fs, env => by
    simp only [FunDecl.relabelAll, FunDecl.resolveBodies, FunDecl.resolveBody_rename f,
      FunDecl.resolveBodies_rename fs, List.map_append]
termination_by structural fs => fs

end

/-- **What is found in a renamed program is what is found in the program, renamed.** -/
theorem Program.resolve_rename (classes : ClassTable) (p : Program) :
    (p.relabel r).resolve (classes.rename r.names)
      = ((p.resolve classes).1.rename r.names, (p.resolve classes).2.map (Finding.rename r)) := by
  cases p with
  | letIn line ds body =>
    have hstart : (⟨.push .empty ∅, classes.rename r.names, firstDeclOffset⟩ : Env)
        = Env.rename ⟨.push .empty ∅, classes, firstDeclOffset⟩ r.names := rfl
    simp only [Program.relabel, Program.resolve, hstart, Decl.resolve_rename_all,
      Expr.resolve_rename, List.map_append, Env.classes_rename]
  | bare body =>
    have hstart : (⟨.empty, classes.rename r.names, firstDeclOffset⟩ : Env)
        = Env.rename ⟨.empty, classes, firstDeclOffset⟩ r.names := rfl
    simp only [Program.relabel, Program.resolve, hstart, Expr.resolve_rename]

end ObjectLet
