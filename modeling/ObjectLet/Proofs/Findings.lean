import Mathlib.Data.List.Nodup
import ObjectLet.Resolution

/-!
# What name analysis leaves behind

The notes of name analysis are read off a `Context` later on, by type checking and by the code
generator.  A finding that was made at a node is still there then only if no later one has
overwritten it, and two findings of one sort never meet at a node if the nodes of the program have
different numbers.

* `Program.ids` lists the numbers of all nodes of a program.
* `count_slots_resolve_le`: a program has at most as many findings of one sort at a node as it has
  nodes of that number.
* `recorded_addFindings`: **if the numbers are all different and there was no error, a context tells
  everything that was found** (`Recorded`).

A bare expression is in no scope, so all that can be found in it are errors (`Expr.resolve_bare`).
-/

set_option autoImplicit false

namespace ObjectLet

/-! ## The numbers of the nodes -/

mutual

/-- The numbers of the nodes of an expression, its own number first. -/
def Expr.ids : Expr → List NodeId
  | .int s _ | .bool s _ | .null s | .ident s _ | .field s _ _ => [s.id]
  | .arith s _ l r | .compare s _ l r | .logic s _ l r => s.id :: (l.ids ++ r.ids)
  | .not s e | .print s e => s.id :: e.ids
  | .cond s c a b => s.id :: (c.ids ++ a.ids ++ b.ids)
  | .call s _ args | .invoke s _ _ args | .new s _ args => s.id :: Expr.idsAll args
termination_by structural e => e

/-- The numbers of the nodes of several expressions. -/
def Expr.idsAll : List Expr → List NodeId
  | [] => []
  | e :: es => e.ids ++ Expr.idsAll es
termination_by structural es => es

end

/-- The number of the node of a parameter or field. -/
def Binder.id (b : Binder) : NodeId := b.site.id

mutual

/-- The numbers of the nodes of a declaration, parameters and fields included. -/
def Decl.ids : Decl → List NodeId
  | .var s _ _ e => s.id :: e.ids
  | .func f => f.ids
  | .cls c => c.ids
termination_by structural d => d

/-- The numbers of the nodes of a function. -/
def FunDecl.ids : FunDecl → List NodeId
  | ⟨s, _, _, params, locals, body⟩ =>
    s.id :: (params.map Binder.id ++ Decl.idsAll locals ++ body.ids)
termination_by structural f => f

/-- The numbers of the nodes of a class. -/
def ClassDecl.ids : ClassDecl → List NodeId
  | ⟨s, _, _, fields, methods⟩ => s.id :: (fields.map Binder.id ++ FunDecl.idsAll methods)
termination_by structural c => c

/-- The numbers of the nodes of several declarations. -/
def Decl.idsAll : List Decl → List NodeId
  | [] => []
  | d :: ds => d.ids ++ Decl.idsAll ds
termination_by structural ds => ds

/-- The numbers of the nodes of several functions. -/
def FunDecl.idsAll : List FunDecl → List NodeId
  | [] => []
  | f :: fs => f.ids ++ FunDecl.idsAll fs
termination_by structural fs => fs

end

/-- The numbers of the nodes of a program. -/
def Program.ids (p : Program) : List NodeId := Decl.idsAll p.decls ++ p.body.ids

/-! ## The parts of what is found -/

theorem Env.classHead_eq (env : Env) (c : ClassDecl) :
    env.classHead c =
      ((env.declareClass c (env.superclass c).1
          (ClassLayout.ofDecl (env.superclass c).2.1 c).1.info).1,
        { (env.declareClass c (env.superclass c).1
            (ClassLayout.ofDecl (env.superclass c).2.1 c).1.info).1 with
          scopes := (env.declareClass c (env.superclass c).1
            (ClassLayout.ofDecl (env.superclass c).2.1 c).1.info).1.scopes.push
              (ClassLayout.ofDecl (env.superclass c).2.1 c).1.members },
        (if env.level = 0 then [] else [errorAt c.site (.classNotGlobal c.name)])
          ++ (env.superclass c).2.2 ++ (ClassLayout.ofDecl (env.superclass c).2.1 c).2
          ++ (env.declareClass c (env.superclass c).1
            (ClassLayout.ofDecl (env.superclass c).2.1 c).1.info).2
          ++ (env.declareClass c (env.superclass c).1
            (ClassLayout.ofDecl (env.superclass c).2.1 c).1.info).1.memberAnnotations c) := rfl

theorem ClassDecl.resolve_eq (env : Env) (c : ClassDecl) :
    c.resolve env = ((env.classHead c).1,
      (env.classHead c).2.2 ++ FunDecl.resolveBodies (env.classHead c).2.1 c.methods) := by
  cases c
  rfl

theorem FunDecl.resolveBody_eq (env : Env) (f : FunDecl) :
    f.resolveBody env =
      (env.enter.declareParams firstParamOffset f.params).2
        ++ (Decl.resolveAll (env.enter.declareParams firstParamOffset f.params).1 f.locals).2
        ++ f.body.resolve
          (Decl.resolveAll (env.enter.declareParams firstParamOffset f.params).1 f.locals).1 := by
  cases f
  rfl

theorem Expr.resolveAll_eq (env : Env) (es : List Expr) :
    Expr.resolveAll env es = es.flatMap (Expr.resolve env) := by
  induction es with
  | nil => rfl
  | cons e es ih => rw [Expr.resolveAll, ih, List.flatMap_cons]

theorem FunDecl.resolveBodies_eq (env : Env) (fs : List FunDecl) :
    FunDecl.resolveBodies env fs = fs.flatMap (FunDecl.resolveBody env) := by
  induction fs with
  | nil => rfl
  | cons f fs ih => rw [FunDecl.resolveBodies, ih, List.flatMap_cons]

/-! ## Slots -/

/-- The sorts of notes that are kept for a node.  Two notes of different sorts do not get in the
way of each other. -/
inductive Slot where
  | use | member | layout
deriving DecidableEq

/-- Where a finding is noted; errors are not noted at a node. -/
def Finding.slot? : Finding → Option (Slot × NodeId)
  | .use n _ => some (.use, n)
  | .member n _ => some (.member, n)
  | .layout n _ => some (.layout, n)
  | .error _ => none

/-- Where several findings are noted. -/
def slots (found : List Finding) : List (Slot × NodeId) := found.filterMap Finding.slot?

@[simp] theorem slots_nil : slots [] = [] := rfl

@[simp] theorem slots_append (fs gs : List Finding) : slots (fs ++ gs) = slots fs ++ slots gs :=
  List.filterMap_append

@[simp] theorem slots_use (n : NodeId) (r : Resolution) (fs : List Finding) :
    slots (.use n r :: fs) = (.use, n) :: slots fs := rfl

@[simp] theorem slots_member (n : NodeId) (e : Entry) (fs : List Finding) :
    slots (.member n e :: fs) = (.member, n) :: slots fs := rfl

@[simp] theorem slots_layout (n : NodeId) (e : Entry) (fs : List Finding) :
    slots (.layout n e :: fs) = (.layout, n) :: slots fs := rfl

@[simp] theorem slots_errorAt (site : Site) (cause : ScopeError.Cause) (fs : List Finding) :
    slots (errorAt site cause :: fs) = slots fs := rfl

@[simp] theorem slots_error (e : ScopeError) (fs : List Finding) :
    slots (.error e :: fs) = slots fs := rfl

/-! ## No finding is overwritten -/

@[simp] theorem slots_annotation (env : Env) (site : Site) (ty : Ty) :
    slots (env.annotation site ty) = [] := by
  simp [Env.annotation, slots, errorAt, Finding.slot?]

@[simp] theorem slots_signature (env : Env) (f : FunDecl) : slots (env.signature f) = [] := by
  simp only [Env.signature, slots_append, slots_annotation, List.append_nil]
  induction f.params with
  | nil => rfl
  | cons b bs ih => simp [ih]

@[simp] theorem slots_memberAnnotation (env : Env) (cls : String) (site : Site) (ty : Ty) :
    slots (env.memberAnnotation cls site ty) = [] := by
  simp only [Env.memberAnnotation]
  split <;> simp

theorem slots_flatMap_eq_nil {α : Type} {l : List α} {f : α → List Finding}
    (h : ∀ a ∈ l, slots (f a) = []) : slots (l.flatMap f) = [] := by
  induction l with
  | nil => rfl
  | cons a l ih =>
    rw [List.flatMap_cons, slots_append, h a List.mem_cons_self,
      ih fun b hb ↦ h b (List.mem_cons_of_mem _ hb), List.append_nil]

@[simp] theorem slots_memberAnnotations (env : Env) (c : ClassDecl) :
    slots (env.memberAnnotations c) = [] := by
  rw [Env.memberAnnotations, slots_append, slots_flatMap_eq_nil fun b _ ↦ by simp,
    slots_flatMap_eq_nil fun f _ ↦ ?_, List.append_nil]
  rw [slots_append, slots_memberAnnotation, slots_flatMap_eq_nil fun b _ ↦ by simp,
    List.append_nil]

section Counting

variable (s : Slot) (n : NodeId)

/-- A use of a name leaves at most one note of each sort, at its own node. -/
theorem count_slots_useMember_le (env : Env) (site : Site) (object member : String) :
    (slots (env.useMember site object member)).count (s, n) ≤ [site.id].count n := by
  simp only [Env.useMember, Env.useName]
  repeat' split
  all_goals cases s <;> simp [List.count_cons]

theorem count_slots_useName_le (env : Env) (site : Site) (name : String) :
    (slots (env.useName site name)).count (s, n) ≤ [site.id].count n := by
  simp only [Env.useName]
  split <;> cases s <;> simp [List.count_cons]

theorem count_slots_useClass_le (env : Env) (site : Site) (cls : String) :
    (slots (env.useClass site cls)).count (s, n) ≤ [site.id].count n := by
  simp only [Env.useClass]
  split <;> cases s <;> simp [List.count_cons]

mutual

theorem Expr.count_slots_le (env : Env) :
    ∀ e : Expr, (slots (e.resolve env)).count (s, n) ≤ e.ids.count n
  | .int _ _ | .bool _ _ | .null _ => by simp [Expr.resolve]
  | .ident site x => by
    rw [Expr.resolve, Expr.ids]
    exact count_slots_useName_le s n env site x
  | .field site x f => by
    rw [Expr.resolve, Expr.ids]
    exact count_slots_useMember_le s n env site x f
  | .arith _ _ l r | .compare _ _ l r | .logic _ _ l r => by
    have hl := Expr.count_slots_le env l
    have hr := Expr.count_slots_le env r
    simp only [Expr.resolve, Expr.ids, slots_append, List.count_append, List.count_cons]
    omega
  | .not _ e | .print _ e => by
    have he := Expr.count_slots_le env e
    simp only [Expr.resolve, Expr.ids, List.count_cons]
    omega
  | .cond _ c a b => by
    have hc := Expr.count_slots_le env c
    have ha := Expr.count_slots_le env a
    have hb := Expr.count_slots_le env b
    simp only [Expr.resolve, Expr.ids, slots_append, List.count_append, List.count_cons]
    omega
  | .call site f args => by
    have hu := count_slots_useName_le s n env site f
    have ha := Expr.count_slots_all_le env args
    simp only [Expr.resolve, Expr.ids, slots_append, List.count_append, List.count_cons,
      List.count_nil] at hu ⊢
    omega
  | .invoke site x m args => by
    have hu := count_slots_useMember_le s n env site x m
    have ha := Expr.count_slots_all_le env args
    simp only [Expr.resolve, Expr.ids, slots_append, List.count_append, List.count_cons,
      List.count_nil] at hu ⊢
    omega
  | .new site c args => by
    have hu := count_slots_useClass_le s n env site c
    have ha := Expr.count_slots_all_le env args
    simp only [Expr.resolve, Expr.ids, slots_append, List.count_append, List.count_cons,
      List.count_nil] at hu ⊢
    omega
termination_by structural e => e

theorem Expr.count_slots_all_le (env : Env) :
    ∀ es : List Expr, (slots (Expr.resolveAll env es)).count (s, n) ≤ (Expr.idsAll es).count n
  | [] => by simp [Expr.resolveAll]
  | e :: es => by
    have he := Expr.count_slots_le env e
    have hes := Expr.count_slots_all_le env es
    simp only [Expr.resolveAll, Expr.idsAll, slots_append, List.count_append]
    omega
termination_by structural es => es

end

/-! ### Declarations -/

theorem slots_declare (env : Env) (site : Site) (x : String) (e : Entry) :
    slots (env.declare site x e).2 = [(.layout, site.id)] := by
  simp only [Env.declare]
  split <;> simp

theorem slots_declareNext (env : Env) (site : Site) (x : String) (ty : Ty) :
    slots (env.declareNext site x ty).2 = [(.layout, site.id)] :=
  slots_declare _ _ _ _

theorem slots_declareParams (env : Env) (offset : Int) (bs : List Binder) :
    slots (env.declareParams offset bs).2 = bs.map fun b ↦ (.layout, b.id) := by
  induction bs generalizing env offset with
  | nil => rfl
  | cons b bs ih =>
    simp only [Env.declareParams, slots_append, slots_declare, ih]
    rfl

theorem count_layout_le {α : Type} (id : α → NodeId) (as : List α) :
    (as.map fun a ↦ (Slot.layout, id a)).count (s, n) ≤ (as.map id).count n := by
  induction as with
  | nil => simp
  | cons a as ih =>
    rw [List.map_cons, List.map_cons, List.count_cons, List.count_cons]
    cases s <;> simp <;> omega

theorem count_slots_addFields_le (l : ClassLayout) (bs : List Binder) :
    (slots (l.addFields bs).2).count (s, n) ≤ (bs.map Binder.id).count n := by
  induction bs generalizing l with
  | nil => simp [ClassLayout.addFields]
  | cons b bs ih =>
    have hrest := ih (l.addField b).1
    simp only [ClassLayout.addFields, slots_append, List.count_append, List.map_cons,
      List.count_cons]
    simp only [ClassLayout.addField]
    split <;> cases s <;> simp [Binder.id] at hrest ⊢ <;> grind

theorem count_slots_addMethods_le (l : ClassLayout) (fs : List FunDecl) :
    (slots (l.addMethods fs).2).count (s, n) ≤ (fs.map fun f ↦ f.site.id).count n := by
  induction fs generalizing l with
  | nil => simp [ClassLayout.addMethods]
  | cons f fs ih =>
    have hrest := ih (l.addMethod f).1
    simp only [ClassLayout.addMethods, slots_append, List.count_append, List.map_cons,
      List.count_cons]
    simp only [ClassLayout.addMethod]
    split <;> cases s <;> simp at hrest ⊢ <;> grind

theorem count_slots_classHead_le (env : Env) (c : ClassDecl) :
    (slots (env.classHead c).2.2).count (s, n) ≤
      [c.site.id].count n + (c.fields.map Binder.id).count n
        + (c.methods.map fun f ↦ f.site.id).count n := by
  have hmisplaced :
      slots (if env.level = 0 then [] else [errorAt c.site (.classNotGlobal c.name)]) = [] := by
    split <;> simp
  have hextended : slots (env.superclass c).2.2 = [] := by
    rw [Env.superclass]
    repeat' split
    all_goals simp
  have hdeclared : ∀ sup info, (slots (env.declareClass c sup info).2).count (s, n) ≤
      [c.site.id].count n := by
    intro sup info
    rw [Env.declareClass]
    split
    · rw [slots_declareNext]
      exact count_layout_le s n (fun _ ↦ c.site.id) [()]
    · simp
  have hd := hdeclared (env.superclass c).1 (ClassLayout.ofDecl (env.superclass c).2.1 c).1.info
  have hf := count_slots_addFields_le s n (.inherit (env.superclass c).2.1) c.fields
  have hm := count_slots_addMethods_le s n
    ((ClassLayout.inherit (env.superclass c).2.1).addFields c.fields).1 c.methods
  have hlaid : slots (ClassLayout.ofDecl (env.superclass c).2.1 c).2 =
      slots ((ClassLayout.inherit (env.superclass c).2.1).addFields c.fields).2
        ++ slots (((ClassLayout.inherit (env.superclass c).2.1).addFields c.fields).1.addMethods
          c.methods).2 := slots_append _ _
  rw [Env.classHead_eq]
  simp only [slots_append, List.count_append, hlaid, hextended, hmisplaced,
    slots_memberAnnotations, List.count_nil]
  omega

mutual

theorem Decl.count_slots_le (env : Env) :
    ∀ d : Decl, (slots (d.resolve env).2).count (s, n) ≤ d.ids.count n
  | .var site x ty e => by
    have he := Expr.count_slots_le s n env e
    have hd := count_layout_le s n (fun _ ↦ site.id) [()]
    simp only [Decl.resolve, Decl.ids, slots_append, slots_annotation, slots_declareNext,
      List.count_append, List.count_cons, List.count_nil, List.map_cons, List.map_nil] at hd ⊢
    omega
  | .func f => by
    have hf := FunDecl.count_slots_le (env.declareNext f.site f.name (.arrow f.signature)).1 f
    have hd := count_layout_le s n (fun _ ↦ f.site.id) [()]
    simp only [Decl.resolve, Decl.ids, slots_append, slots_signature, slots_declareNext,
      List.count_append, List.count_nil, List.map_cons, List.map_nil] at hd ⊢
    omega
  | .cls c => ClassDecl.count_slots_le env c
termination_by structural d => d

theorem FunDecl.count_slots_le (env : Env) :
    ∀ f : FunDecl, (slots (f.resolveBody env)).count (s, n) + [f.site.id].count n ≤ f.ids.count n
  | ⟨site, _, _, params, locals, body⟩ => by
    have hp := count_layout_le s n Binder.id params
    have hl := Decl.count_slots_all_le (env.enter.declareParams firstParamOffset params).1 locals
    have hb := Expr.count_slots_le s n
      (Decl.resolveAll (env.enter.declareParams firstParamOffset params).1 locals).1 body
    simp only [FunDecl.resolveBody, FunDecl.ids, slots_append, slots_declareParams,
      List.count_append, List.count_cons, List.count_nil] at hp hl hb ⊢
    omega
termination_by structural f => f

theorem ClassDecl.count_slots_le (env : Env) :
    ∀ c : ClassDecl, (slots (c.resolve env).2).count (s, n) ≤ c.ids.count n
  | ⟨site, name, superclass, fields, methods⟩ => by
    have hh := count_slots_classHead_le s n env ⟨site, name, superclass, fields, methods⟩
    have hm := FunDecl.count_slots_all_le
      (env.classHead ⟨site, name, superclass, fields, methods⟩).2.1 methods
    rw [ClassDecl.resolve_eq]
    simp only [ClassDecl.ids, slots_append, List.count_append, List.count_cons,
      List.count_nil] at hh hm ⊢
    omega
termination_by structural c => c

theorem Decl.count_slots_all_le (env : Env) :
    ∀ ds : List Decl, (slots (Decl.resolveAll env ds).2).count (s, n) ≤ (Decl.idsAll ds).count n
  | [] => by simp [Decl.resolveAll]
  | d :: ds => by
    have hd := Decl.count_slots_le env d
    have hds := Decl.count_slots_all_le (d.resolve env).1 ds
    simp only [Decl.resolveAll, Decl.idsAll, slots_append, List.count_append]
    omega
termination_by structural ds => ds

theorem FunDecl.count_slots_all_le (env : Env) :
    ∀ fs : List FunDecl, (slots (FunDecl.resolveBodies env fs)).count (s, n)
      + (fs.map fun f ↦ f.site.id).count n ≤ (FunDecl.idsAll fs).count n
  | [] => by simp [FunDecl.resolveBodies]
  | f :: fs => by
    have hf := FunDecl.count_slots_le env f
    have hfs := FunDecl.count_slots_all_le env fs
    simp only [FunDecl.resolveBodies, FunDecl.idsAll, slots_append, List.count_append,
      List.map_cons, List.count_cons, List.count_nil] at hf hfs ⊢
    omega
termination_by structural fs => fs

end

/-- A program has at most as many findings of one sort at a node as it has nodes of that number. -/
theorem count_slots_resolve_le (classes : ClassTable) (p : Program) :
    (slots (p.resolve classes).2).count (s, n) ≤ p.ids.count n := by
  cases p with
  | letIn line decls body =>
    have hd := Decl.count_slots_all_le s n ⟨.push .empty ∅, classes, firstDeclOffset⟩ decls
    have hb := Expr.count_slots_le s n
      (Decl.resolveAll ⟨.push .empty ∅, classes, firstDeclOffset⟩ decls).1 body
    simp only [Program.resolve, Program.ids, Program.decls, Program.body, slots_append,
      List.count_append]
    omega
  | bare body =>
    have hb := Expr.count_slots_le s n ⟨.empty, classes, firstDeclOffset⟩ body
    simp only [Program.resolve, Program.ids, Program.decls, Program.body, List.count_append]
    omega

end Counting

theorem nodup_slots_resolve {p : Program} (classes : ClassTable) (h : p.ids.Nodup) :
    (slots (p.resolve classes).2).Nodup :=
  List.nodup_iff_count_le_one.2 fun k ↦
    Nat.le_trans (count_slots_resolve_le k.1 k.2 classes p) (List.nodup_iff_count_le_one.1 h k.2)

/-! ## What a context tells -/

/-- A context tells what a finding says, and the finding is no error.  If this holds of everything
that was found, nothing has been replaced later. -/
def Finding.Noted (ctx : Context) : Finding → Prop
  | .use n r => ctx.resolutions.find? n = some r
  | .member n e => ctx.members.find? n = some e
  | .layout n e => ctx.layouts.find? n = some e
  | .error _ => False

/-- A context tells what several findings say, and there is no error among them. -/
def Recorded (ctx : Context) (found : List Finding) : Prop := ∀ f ∈ found, f.Noted ctx

section Recorded

variable {ctx : Context} {fs gs : List Finding}

@[simp] theorem recorded_nil : Recorded ctx [] := nofun

@[simp] theorem recorded_append : Recorded ctx (fs ++ gs) ↔ Recorded ctx fs ∧ Recorded ctx gs := by
  simp only [Recorded, List.mem_append, or_imp, forall_and]

@[simp] theorem recorded_cons {f : Finding} :
    Recorded ctx (f :: fs) ↔ f.Noted ctx ∧ Recorded ctx fs := by
  simp only [Recorded, List.mem_cons, or_imp, forall_and, forall_eq]

@[simp] theorem not_noted_errorAt {site : Site} {cause : ScopeError.Cause} :
    ¬ (errorAt site cause).Noted ctx := id

/-- What has been noted stays until the same is noted again. -/
theorem Finding.Noted.addFindings {f : Finding} (h : f.Noted ctx)
    (hnew : ∀ k, f.slot? = some k → k ∉ slots gs) : f.Noted (ctx.addFindings gs) := by
  induction gs generalizing ctx with
  | nil => exact h
  | cons g gs ih =>
    rw [Context.addFindings, List.foldl_cons, ← Context.addFindings]
    have hrest : ∀ k, f.slot? = some k → k ∉ slots gs := fun k hk hmem ↦
      hnew k hk (by rw [slots, List.filterMap_cons]; split <;> simp_all [slots])
    have hhead : f.slot? = none ∨ f.slot? ≠ g.slot? := by
      cases hf : f.slot? with
      | none => exact .inl rfl
      | some k => exact .inr fun hg ↦ hnew k hf (by simp [slots, ← hg])
    refine ih ?_ hrest
    cases f <;> cases g <;>
      simp_all [Finding.Noted, Finding.slot?, Context.addFinding, Table.find?_insert, eq_comm]

/-- What was found at a node is known, if nothing was found twice. -/
theorem noted_addFindings (hnd : (slots fs).Nodup) {f : Finding} (hf : f ∈ fs)
    {k : Slot × NodeId} (hk : f.slot? = some k) : f.Noted (ctx.addFindings fs) := by
  induction fs generalizing ctx with
  | nil => cases hf
  | cons g gs ih =>
    rw [Context.addFindings, List.foldl_cons, ← Context.addFindings]
    rcases List.mem_cons.1 hf with rfl | hf
    · have hnew : k ∉ slots gs := by
        rw [slots, List.filterMap_cons_some hk, List.nodup_cons] at hnd
        exact hnd.1
      refine .addFindings ?_ fun k' hk' ↦ by rwa [← Option.some.inj (hk.symm.trans hk')]
      cases f <;> simp_all [Finding.Noted, Finding.slot?, Context.addFinding]
    · refine ih (hnd.sublist ?_) hf
      exact List.Sublist.filterMap _ (List.sublist_cons_self _ _)

/-- **A context tells everything that was found, if nothing was found twice and there was no
error.** -/
theorem recorded_addFindings (hnd : (slots fs).Nodup) (herr : scopeErrors fs = []) :
    Recorded (ctx.addFindings fs) fs := by
  intro f hf
  cases f with
  | error e => simpa using List.filterMap_eq_nil_iff.1 herr _ hf
  | _ => exact noted_addFindings hnd hf rfl

/-- Only what was found is noted, now or before. -/
theorem Finding.Noted.of_addFindings {f : Finding} (h : f.Noted (ctx.addFindings fs)) :
    f.Noted ctx ∨ f ∈ fs := by
  induction fs generalizing ctx with
  | nil => exact .inl h
  | cons g fs ih =>
    rw [Context.addFindings, List.foldl_cons, ← Context.addFindings] at h
    rcases ih h with h | h
    · have hlast : f.Noted ctx ∨ f = g := by
        cases f <;> cases g <;>
          simp_all only [Finding.Noted, Context.addFinding, Table.find?_insert, Finding.use.injEq,
            Finding.member.injEq, Finding.layout.injEq, reduceCtorEq, or_false]
        all_goals
          split at h
          · exact .inr ⟨Eq.symm ‹_›, (Option.some.inj h).symm⟩
          · exact .inl h
      rcases hlast with h | rfl
      · exact .inl h
      · exact .inr List.mem_cons_self
    · exact .inr (List.mem_cons_of_mem _ h)

end Recorded

/-! ## Bare expressions -/

/-- All that can be found in an expression outside of every scope are errors. -/
theorem Expr.resolve_bare (classes : ClassTable) (offset : Int) :
    ∀ e : Expr, scopeErrors (e.resolve ⟨.empty, classes, offset⟩) = [] →
      e.resolve ⟨.empty, classes, offset⟩ = []
  | .int _ _ | .bool _ _ | .null _ => fun _ ↦ by simp [Expr.resolve]
  | .arith _ _ l r | .compare _ _ l r | .logic _ _ l r => by
    have hl := Expr.resolve_bare classes offset l
    have hr := Expr.resolve_bare classes offset r
    simp only [Expr.resolve, scopeErrors, List.filterMap_append, List.append_eq_nil_iff] at hl hr ⊢
    exact fun h ↦ ⟨hl h.1, hr h.2⟩
  | .not _ e | .print _ e => by
    simpa only [Expr.resolve] using Expr.resolve_bare classes offset e
  | .cond _ c a b => by
    have hc := Expr.resolve_bare classes offset c
    have ha := Expr.resolve_bare classes offset a
    have hb := Expr.resolve_bare classes offset b
    simp only [Expr.resolve, scopeErrors, List.filterMap_append, List.append_eq_nil_iff]
      at hc ha hb ⊢
    exact fun h ↦ ⟨⟨hc h.1.1, ha h.1.2⟩, hb h.2⟩
  | .ident _ _ | .call _ _ _ | .field _ _ _ | .invoke _ _ _ _ | .new _ _ _ => by
    simp [Expr.resolve, Env.useName, Env.useMember, Env.useClass, Env.lookupClass?,
      Scopes.lookup?, Scopes.lookupGlobal?, Scopes.empty, errorAt, scopeErrors]

end ObjectLet
