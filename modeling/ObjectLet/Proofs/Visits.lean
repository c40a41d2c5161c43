import Mathlib.Data.List.Pairwise
import ObjectLet.Proofs.Nodes

/-!
# Where expressions are gone through

Name analysis goes through every initial value and every body of a program once, each of them in an
environment of its own.  `Program.visits` lists them together.

* `Expr.resolve_eq`: what is found in an expression is what is found at its nodes, one by one.
* `Program.uses_resolve`: **what is found about uses of names is what is found on these visits**, in
  the same order.
* `Program.mem_resolve_iff`: if the nodes have different numbers, what is noted about the use of a
  name at a node can only come from the visit of that node.
-/

set_option autoImplicit false

namespace ObjectLet

/-! ## Expressions -/

/-- What is found at an expression itself, apart from its parts.  Only names are looked up, so there
is nothing for an operator. -/
def Expr.own (env : Env) : Expr → List Finding
  | .ident site x | .call site x _ => env.useName site x
  | .field site x m | .invoke site x m _ => env.useMember site x m
  | .new site c _ => env.useClass site c
  | _ => []

section Expressions

variable {env : Env}

theorem Expr.resolve_parts (e : Expr) :
    e.resolve env = e.own env ++ e.parts.flatMap (Expr.resolve env) := by
  cases e <;> simp [Expr.resolve, Expr.own, Expr.parts, Expr.resolveAll_eq]

/-- **What is found in an expression is what is found at its nodes**, in the order in which these
are gone through. -/
theorem Expr.resolve_eq (e : Expr) : e.resolve env = e.nodes.flatMap (Expr.own env) := by
  induction e using Expr.parts_induction with
  | step e ih =>
    rw [Expr.resolve_parts, Expr.nodes_eq, List.flatMap_cons, List.flatMap_assoc,
      List.flatMap_congr ih]

theorem Env.slot_useName {site : Site} {x : String} {f : Finding} {k : Slot × NodeId}
    (hf : f ∈ env.useName site x) (hk : f.slot? = some k) : k = (.use, site.id) := by
  rw [useName] at hf
  split at hf <;> cases List.mem_singleton.1 hf <;> cases hk
  rfl

theorem Env.slot_useMember {site : Site} {x m : String} {f : Finding} {k : Slot × NodeId}
    (hf : f ∈ env.useMember site x m) (hk : f.slot? = some k) :
    k = (.use, site.id) ∨ k = (.member, site.id) := by
  rw [useMember, List.mem_append] at hf
  rcases hf with hf | hf
  · exact .inl (Env.slot_useName hf hk)
  · split at hf
    · split at hf <;> cases List.mem_singleton.1 hf <;> cases hk
      exact .inr rfl
    · cases hf

theorem Env.slot_useClass {site : Site} {c : String} {f : Finding} {k : Slot × NodeId}
    (hf : f ∈ env.useClass site c) (hk : f.slot? = some k) : k = (.use, site.id) := by
  rw [useClass] at hf
  split at hf <;> cases List.mem_singleton.1 hf <;> cases hk
  rfl

/-- What is noted at an expression is noted under its number. -/
theorem Expr.slot_own {e : Expr} {f : Finding} {k : Slot × NodeId} (hf : f ∈ e.own env)
    (hk : f.slot? = some k) : k.2 = e.site.id := by
  cases e with
  | ident site x | call site x args => rw [Env.slot_useName hf hk]; rfl
  | field site x m | invoke site x m args => rcases Env.slot_useMember hf hk with rfl | rfl <;> rfl
  | new site c args => rw [Env.slot_useClass hf hk]; rfl
  | _ => cases hf

end Expressions

/-! ## Declarations -/

mutual

/-- The initial values and bodies in a declaration, each with the environment in which it is gone
through. -/
def Decl.visits (env : Env) : Decl → List (Env × Expr)
  | .var _ _ _ e => [(env, e)]
  | .func f => f.visits (env.declareNext f.site f.name (.arrow f.signature)).1
  | .cls c => c.visits env
termination_by structural d => d

/-- The initial values and bodies in a function, its own body last. -/
def FunDecl.visits (env : Env) : FunDecl → List (Env × Expr)
  | ⟨_, _, _, params, locals, body⟩ =>
    let inside := (env.enter.declareParams firstParamOffset params).1
    Decl.visitsAll inside locals ++ [((Decl.resolveAll inside locals).1, body)]
termination_by structural f => f

/-- The initial values and bodies in the methods of a class, all of which are gone through
in the same scope. -/
def ClassDecl.visits (env : Env) : ClassDecl → List (Env × Expr)
  | ⟨site, name, superclass, fields, methods⟩ =>
    FunDecl.visitsAll (env.classHead ⟨site, name, superclass, fields, methods⟩).2.1 methods
termination_by structural c => c

/-- The initial values and bodies in several declarations, one after the other. -/
def Decl.visitsAll (env : Env) : List Decl → List (Env × Expr)
  | [] => []
  | d :: ds => d.visits env ++ Decl.visitsAll (d.resolve env).1 ds
termination_by structural ds => ds

/-- The initial values and bodies in several methods of a class. -/
def FunDecl.visitsAll (env : Env) : List FunDecl → List (Env × Expr)
  | [] => []
  | f :: fs => f.visits env ++ FunDecl.visitsAll env fs
termination_by structural fs => fs

end

/-- The initial values and bodies in a program, given the classes known before, in the order in
which they are gone through. -/
def Program.visits (classes : ClassTable) : Program → List (Env × Expr)
  | .letIn _ ds body =>
    let start : Env := ⟨.push .empty ∅, classes, firstDeclOffset⟩
    Decl.visitsAll start ds ++ [((Decl.resolveAll start ds).1, body)]
  | .bare body => [(⟨.empty, classes, firstDeclOffset⟩, body)]

theorem FunDecl.visitsAll_eq (env : Env) (fs : List FunDecl) :
    FunDecl.visitsAll env fs = fs.flatMap (FunDecl.visits env) := by
  induction fs with
  | nil => rfl
  | cons f fs ih => rw [FunDecl.visitsAll, ih, List.flatMap_cons]

theorem FunDecl.visits_eq (env : Env) (f : FunDecl) :
    f.visits env =
      Decl.visitsAll (env.enter.declareParams firstParamOffset f.params).1 f.locals
        ++ [((Decl.resolveAll (env.enter.declareParams firstParamOffset f.params).1 f.locals).1,
          f.body)] := by
  cases f
  rfl

theorem ClassDecl.visits_eq (env : Env) (c : ClassDecl) :
    c.visits env = c.methods.flatMap (FunDecl.visits (env.classHead c).2.1) := by
  rw [← FunDecl.visitsAll_eq]
  cases c
  rfl

theorem Decl.visitsAll_append (env : Env) (ds es : List Decl) :
    Decl.visitsAll env (ds ++ es)
      = Decl.visitsAll env ds ++ Decl.visitsAll (Decl.resolveAll env ds).1 es := by
  induction ds generalizing env with
  | nil => rfl
  | cons d ds ih =>
    rw [List.cons_append, Decl.visitsAll, ih, Decl.visitsAll, List.append_assoc]
    rfl

/-- A visit of one of several declarations is one of the visits of all of them. -/
theorem Decl.mem_visitsAll {env : Env} {before after : List Decl} {d : Decl} {v : Env × Expr}
    (hv : v ∈ d.visits (Decl.resolveAll env before).1) :
    v ∈ Decl.visitsAll env (before ++ d :: after) := by
  rw [Decl.visitsAll_append, Decl.visitsAll]
  exact List.mem_append_right _ (List.mem_append_left _ hv)

/-! ### What is visited -/

theorem Decl.roots_visitsAll {ds : List Decl}
    (ih : ∀ d ∈ ds, ∀ env, (d.visits env).map Prod.snd = d.roots) (env : Env) :
    (Decl.visitsAll env ds).map Prod.snd = ds.flatMap Decl.roots := by
  induction ds generalizing env with
  | nil => rfl
  | cons d ds ih' =>
    rw [List.forall_mem_cons] at ih
    rw [Decl.visitsAll, List.map_append, ih.1, ih' ih.2, List.flatMap_cons]

theorem FunDecl.roots_visits {f : FunDecl}
    (ih : ∀ d ∈ f.locals, ∀ env, (d.visits env).map Prod.snd = d.roots) (env : Env) :
    (f.visits env).map Prod.snd = f.roots := by
  rw [FunDecl.visits_eq, FunDecl.roots_eq, List.map_append, Decl.roots_visitsAll ih]
  rfl

/-- **Every initial value and every body in a declaration is visited once**, in the order in which
they are written. -/
theorem Decl.roots_visits (d : Decl) : ∀ env, (d.visits env).map Prod.snd = d.roots := by
  induction d using Decl.induction with
  | var site x ty e => exact fun _ ↦ rfl
  | func f ih => exact fun env ↦ FunDecl.roots_visits ih _
  | cls c ih =>
    intro env
    rw [Decl.visits, Decl.roots, ClassDecl.visits_eq, ClassDecl.roots_eq, List.map_flatMap]
    exact List.flatMap_congr fun f hf ↦ FunDecl.roots_visits (ih f hf) _

theorem Program.roots_visits (classes : ClassTable) (p : Program) :
    (p.visits classes).map Prod.snd = p.roots := by
  cases p with
  | letIn line ds body =>
    rw [Program.visits, List.map_append, Decl.roots_visitsAll fun d _ ↦ d.roots_visits]
    rfl
  | bare body => rfl

/-! ### What is found on the visits -/

/-- Whether a finding is about the use of a name.  The others are about declarations and types. -/
def Finding.isUse : Finding → Bool
  | .use _ _ | .member _ _ => true
  | .layout _ _ => false
  | .error e =>
    match e.cause with
    | .undeclared _ | .undeclaredMember _ _ | .undeclaredClass _ => true
    | _ => false

/-- The findings about uses of names. -/
def uses (fs : List Finding) : List Finding := fs.filter Finding.isUse

@[simp] theorem uses_nil : uses [] = [] := rfl

@[simp] theorem uses_append (fs gs : List Finding) : uses (fs ++ gs) = uses fs ++ uses gs :=
  List.filter_append _ _

theorem uses_flatMap {α : Type} (l : List α) (f : α → List Finding) :
    uses (l.flatMap f) = l.flatMap fun a ↦ uses (f a) := by
  induction l with
  | nil => rfl
  | cons a l ih => rw [List.flatMap_cons, uses_append, ih, List.flatMap_cons]

theorem Env.uses_useName (env : Env) (site : Site) (x : String) :
    uses (env.useName site x) = env.useName site x := by
  rw [useName]
  split <;> rfl

theorem Expr.uses_own (env : Env) (e : Expr) : uses (e.own env) = e.own env := by
  cases e with
  | ident site x | call site x args => exact env.uses_useName site x
  | field site x m | invoke site x m args =>
    simp only [Expr.own, Env.useMember, uses_append, Env.uses_useName]
    congr 1
    split
    · split <;> rfl
    · rfl
  | new site c args =>
    rw [Expr.own, Env.useClass]
    split <;> rfl
  | _ => rfl

/-- Everything that is found in an expression is about uses of names. -/
theorem Expr.uses_resolve (env : Env) (e : Expr) : uses (e.resolve env) = e.resolve env := by
  rw [Expr.resolve_eq, uses_flatMap]
  exact List.flatMap_congr fun u _ ↦ u.uses_own env

/-- There are no uses of names among some findings. -/
def Useless (fs : List Finding) : Prop := ∀ f ∈ fs, f.isUse = false

namespace Useless

variable {fs gs : List Finding}

theorem uses_eq (h : Useless fs) : uses fs = [] := by
  rw [uses, List.filter_eq_nil_iff]
  exact fun f hf ↦ Bool.not_eq_true _ ▸ h f hf

theorem nil : Useless [] := nofun

theorem append (hf : Useless fs) (hg : Useless gs) : Useless (fs ++ gs) :=
  List.forall_mem_append.2 ⟨hf, hg⟩

theorem flatMap {α : Type} {l : List α} {f : α → List Finding} (h : ∀ a ∈ l, Useless (f a)) :
    Useless (l.flatMap f) := by
  intro g hg
  obtain ⟨a, ha, hg⟩ := List.mem_flatMap.1 hg
  exact h a ha g hg

theorem onType (env : Env) (site : Site) (ty : Ty) : Useless (env.annotation site ty) := by
  intro f hf
  obtain ⟨c, -, rfl⟩ := List.mem_map.1 hf
  rfl

theorem signature (env : Env) (f : FunDecl) : Useless (env.signature f) :=
  .append (.flatMap fun _ _ ↦ onType _ _ _) (onType _ _ _)

theorem onMemberType (env : Env) (cls : String) (site : Site) (ty : Ty) :
    Useless (env.memberAnnotation cls site ty) := by
  rw [Env.memberAnnotation]
  split
  · exact nil
  · exact onType _ _ _

theorem memberAnnotations (env : Env) (c : ClassDecl) : Useless (env.memberAnnotations c) :=
  .append (.flatMap fun _ _ ↦ onMemberType _ _ _ _)
    (.flatMap fun _ _ ↦ .append (.flatMap fun _ _ ↦ onMemberType _ _ _ _)
      (onMemberType _ _ _ _))

theorem declare (env : Env) (site : Site) (x : String) (e : Entry) :
    Useless (env.declare site x e).2 := by
  rw [Env.declare]
  split <;> simp [Useless, errorAt, Finding.isUse]

theorem declareNext (env : Env) (site : Site) (x : String) (ty : Ty) :
    Useless (env.declareNext site x ty).2 := declare _ _ _ _

theorem declareParams (env : Env) (offset : Int) (bs : List Binder) :
    Useless (env.declareParams offset bs).2 := by
  induction bs generalizing env offset with
  | nil => exact nil
  | cons b bs ih => exact (declare _ _ _ _).append (ih _ _)

theorem addFields (l : ClassLayout) (bs : List Binder) : Useless (l.addFields bs).2 := by
  induction bs generalizing l with
  | nil => exact nil
  | cons b bs ih =>
    have hfield : Useless (l.addField b).2 := by
      rw [ClassLayout.addField]
      split <;> exact List.forall_mem_singleton.2 rfl
    exact hfield.append (ih _)

theorem addMethods (l : ClassLayout) (fs : List FunDecl) : Useless (l.addMethods fs).2 := by
  induction fs generalizing l with
  | nil => exact nil
  | cons f fs ih =>
    have hmethod : Useless (l.addMethod f).2 := by
      rw [ClassLayout.addMethod]
      split <;> exact List.forall_mem_singleton.2 rfl
    exact hmethod.append (ih _)

theorem superclass (env : Env) (c : ClassDecl) : Useless (env.superclass c).2.2 := by
  rw [Env.superclass]
  split
  · exact nil
  · split
    · exact nil
    · exact List.forall_mem_singleton.2 rfl

theorem classHead (env : Env) (c : ClassDecl) : Useless (env.classHead c).2.2 := by
  rw [Env.classHead_eq]
  refine .append (.append (.append (.append ?_ (superclass env c)) ?_) ?_) (memberAnnotations _ c)
  · split
    · exact nil
    · exact List.forall_mem_singleton.2 rfl
  · exact (addFields _ _).append (addMethods _ _)
  · rw [Env.declareClass]
    split
    · exact declareNext _ _ _ _
    · exact nil

end Useless

section Uses

theorem Decl.uses_resolveAll {ds : List Decl}
    (ih : ∀ d ∈ ds, ∀ env,
      uses (d.resolve env).2 = (d.visits env).flatMap fun v ↦ v.2.resolve v.1) (env : Env) :
    uses (Decl.resolveAll env ds).2
      = (Decl.visitsAll env ds).flatMap fun v ↦ v.2.resolve v.1 := by
  induction ds generalizing env with
  | nil => rfl
  | cons d ds ih' =>
    rw [List.forall_mem_cons] at ih
    simp only [Decl.resolveAll, Decl.visitsAll, uses_append, List.flatMap_append]
    rw [ih.1, ih' ih.2]

theorem FunDecl.uses_resolveBody {f : FunDecl}
    (ih : ∀ d ∈ f.locals, ∀ env,
      uses (d.resolve env).2 = (d.visits env).flatMap fun v ↦ v.2.resolve v.1) (env : Env) :
    uses (f.resolveBody env) = (f.visits env).flatMap fun v ↦ v.2.resolve v.1 := by
  rw [FunDecl.resolveBody_eq, FunDecl.visits_eq, uses_append, uses_append,
    (Useless.declareParams _ _ _).uses_eq, Decl.uses_resolveAll ih, Expr.uses_resolve,
    List.flatMap_append, List.nil_append, List.flatMap_singleton]

/-- **What is found about uses of names in a declaration is what is found on the visits.** -/
theorem Decl.uses_resolve (d : Decl) :
    ∀ env, uses (d.resolve env).2 = (d.visits env).flatMap fun v ↦ v.2.resolve v.1 := by
  induction d using Decl.induction with
  | var site x ty e =>
    intro env
    simp only [Decl.resolve, Decl.visits, uses_append, Expr.uses_resolve,
      (Useless.onType _ _ _).uses_eq, (Useless.declareNext _ _ _ _).uses_eq,
      List.append_nil, List.flatMap_singleton]
  | func f ih =>
    intro env
    simp only [Decl.resolve, Decl.visits, uses_append, (Useless.signature _ _).uses_eq,
      (Useless.declareNext _ _ _ _).uses_eq, List.nil_append]
    exact FunDecl.uses_resolveBody ih _
  | cls c ih =>
    intro env
    rw [Decl.resolve, Decl.visits, ClassDecl.resolve_eq, ClassDecl.visits_eq, uses_append,
      (Useless.classHead _ _).uses_eq, List.nil_append, FunDecl.resolveBodies_eq, uses_flatMap,
      List.flatMap_assoc]
    exact List.flatMap_congr fun f hf ↦ FunDecl.uses_resolveBody (ih f hf) _

/-- **What is found about uses of names in a program is what is found on the visits.** -/
theorem Program.uses_resolve (classes : ClassTable) (p : Program) :
    uses (p.resolve classes).2 = (p.visits classes).flatMap fun v ↦ v.2.resolve v.1 := by
  cases p with
  | letIn line ds body =>
    simp only [Program.resolve, Program.visits, uses_append, Expr.uses_resolve,
      Decl.uses_resolveAll fun d _ ↦ d.uses_resolve, List.flatMap_append, List.flatMap_singleton]
  | bare body => simp only [Program.resolve, Program.visits, Expr.uses_resolve,
      List.flatMap_singleton]

end Uses

/-! ## Where a note comes from -/

/-- Of several lists that have no element in common, only one has a given element. -/
theorem eq_of_nodup_flatMap {α β : Type} {l : List α} {f : α → List β} (h : (l.flatMap f).Nodup)
    {a b : α} (ha : a ∈ l) (hb : b ∈ l) {x : β} (hxa : x ∈ f a) (hxb : x ∈ f b) : a = b := by
  by_contra hne
  have hsymm : Std.Symm (Function.onFun List.Disjoint f) := ⟨fun _ _ h _ hb ha ↦ h ha hb⟩
  exact (List.nodup_flatMap.1 h).2.forall ha hb hne hxa hxb

section Notes

variable {p : Program} {classes : ClassTable} {env : Env} {e u : Expr}

/-- Different visits are visits of different nodes.  So a node is analysed in one
environment only. -/
theorem Program.nodup_visits (hids : p.ids.Nodup) (classes : ClassTable) :
    ((p.visits classes).flatMap fun v ↦ v.2.ids).Nodup := by
  have hroots : ((p.visits classes).flatMap fun v ↦ v.2.ids)
      = p.nodes.map fun u ↦ u.site.id := by
    rw [Program.nodes, List.map_flatMap, ← p.roots_visits classes, List.flatMap_map]
    exact List.flatMap_congr fun v _ ↦ v.2.ids_eq
  rw [hroots]
  exact (p.ids_perm.nodup_iff.1 hids).of_append_right

theorem Program.mem_nodes_of_visits (hv : (env, e) ∈ p.visits classes) (hu : u ∈ e.nodes) :
    u ∈ p.nodes := by
  refine List.mem_flatMap.2 ⟨e, ?_, hu⟩
  rw [← p.roots_visits classes]
  exact List.mem_map.2 ⟨_, hv, rfl⟩

/-- **What is noted about the use of a name at a node is found there**, if the nodes of a program
have different numbers. -/
theorem Program.mem_resolve_iff (hids : p.ids.Nodup) (hv : (env, e) ∈ p.visits classes)
    (hu : u ∈ e.nodes) {f : Finding} (huse : f.isUse = true) {s : Slot}
    (hslot : f.slot? = some (s, u.site.id)) : f ∈ (p.resolve classes).2 ↔ f ∈ u.own env := by
  have hmem : f ∈ (p.resolve classes).2 ↔
      ∃ v ∈ p.visits classes, ∃ w ∈ v.2.nodes, f ∈ w.own v.1 := by
    rw [← and_iff_left (a := f ∈ (p.resolve classes).2) huse, ← List.mem_filter, ← uses,
      p.uses_resolve, List.mem_flatMap]
    simp only [Expr.resolve_eq, List.mem_flatMap]
  rw [hmem]
  refine ⟨fun ⟨v, hv', w, hw, hf⟩ ↦ ?_, fun hf ↦ ⟨_, hv, u, hu, hf⟩⟩
  have hid : u.site.id = w.site.id := Expr.slot_own hf hslot
  obtain rfl := Program.eq_of_id_eq hids (Program.mem_nodes_of_visits hv hu)
    (Program.mem_nodes_of_visits hv' hw) hid
  have hids' : ∀ v ∈ p.visits classes, u ∈ v.2.nodes → u.site.id ∈ v.2.ids := fun v _ hu ↦ by
    rw [Expr.ids_eq]
    exact List.mem_map.2 ⟨u, hu, rfl⟩
  obtain rfl := eq_of_nodup_flatMap (p.nodup_visits hids classes) hv' hv (hids' _ hv' hw)
    (hids' _ hv hu)
  exact hf

end Notes

end ObjectLet
