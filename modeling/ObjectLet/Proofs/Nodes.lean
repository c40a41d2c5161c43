import ObjectLet.Proofs.Findings

/-!
# The nodes of a tree

What is known about a program is known about its nodes: about the expressions anywhere in it
(`Program.nodes`) and about the declarations, the parameters and fields among them
(`Program.sites`).  `Program.ids_perm` says that there are no others.

An induction over a tree does not have to go through the lists that its nodes hold:
`Expr.parts_induction` and `Decl.induction` give the hypothesis for all members of a list at once.
-/

set_option autoImplicit false

namespace ObjectLet

/-! ## Expressions -/

/-- The operands, branches or arguments of an expression. -/
def Expr.parts : Expr → List Expr
  | .int _ _ | .bool _ _ | .null _ | .ident _ _ | .field _ _ _ => []
  | .arith _ _ l r | .compare _ _ l r | .logic _ _ l r => [l, r]
  | .not _ e | .print _ e => [e]
  | .cond _ c a b => [c, a, b]
  | .call _ _ args | .invoke _ _ _ args | .new _ _ args => args

mutual

/-- The expressions inside an expression, in the order in which they are written.  The expression
itself is not one of them. -/
def Expr.inner : Expr → List Expr
  | .int _ _ | .bool _ _ | .null _ | .ident _ _ | .field _ _ _ => []
  | .arith _ _ l r | .compare _ _ l r | .logic _ _ l r => l :: l.inner ++ r :: r.inner
  | .not _ e | .print _ e => e :: e.inner
  | .cond _ c a b => c :: c.inner ++ (a :: a.inner ++ b :: b.inner)
  | .call _ _ args | .invoke _ _ _ args | .new _ _ args => Expr.innerAll args
termination_by structural e => e

/-- Several expressions and those inside them. -/
def Expr.innerAll : List Expr → List Expr
  | [] => []
  | e :: es => e :: e.inner ++ Expr.innerAll es
termination_by structural es => es

end

/-- The nodes of an expression: the expression itself and those inside it. -/
def Expr.nodes (e : Expr) : List Expr := e :: e.inner

theorem Expr.innerAll_eq (es : List Expr) : Expr.innerAll es = es.flatMap Expr.nodes := by
  induction es with
  | nil => rfl
  | cons e es ih => rw [Expr.innerAll, ih, List.flatMap_cons, Expr.nodes]

theorem Expr.nodes_eq (e : Expr) : e.nodes = e :: e.parts.flatMap Expr.nodes := by
  rw [Expr.nodes]
  cases e <;> simp [Expr.inner, Expr.parts, Expr.innerAll_eq, Expr.nodes]

theorem Expr.mem_nodes_iff {u e : Expr} : u ∈ e.nodes ↔ u = e ∨ ∃ d ∈ e.parts, u ∈ d.nodes := by
  rw [Expr.nodes_eq, List.mem_cons, List.mem_flatMap]

theorem Expr.mem_nodes_self (e : Expr) : e ∈ e.nodes := List.mem_cons_self

mutual

/-- What an expression has whenever its parts have it, every expression has. -/
theorem Expr.parts_induction {P : Expr → Prop} (step : ∀ e, (∀ d ∈ e.parts, P d) → P e) :
    ∀ e, P e
  | .int _ _ | .bool _ _ | .null _ | .ident _ _ | .field _ _ _ => step _ nofun
  | .arith _ _ l r | .compare _ _ l r | .logic _ _ l r => step _ (by
    have hl := Expr.parts_induction step l
    have hr := Expr.parts_induction step r
    simpa [Expr.parts] using ⟨hl, hr⟩)
  | .not _ e | .print _ e => step _ (by
    simpa [Expr.parts] using Expr.parts_induction step e)
  | .cond _ c a b => step _ (by
    have hc := Expr.parts_induction step c
    have ha := Expr.parts_induction step a
    have hb := Expr.parts_induction step b
    simpa [Expr.parts] using ⟨hc, ha, hb⟩)
  | .call _ _ args | .invoke _ _ _ args | .new _ _ args =>
    step _ (Expr.parts_induction_all step args)
termination_by structural e => e

theorem Expr.parts_induction_all {P : Expr → Prop} (step : ∀ e, (∀ d ∈ e.parts, P d) → P e) :
    ∀ es : List Expr, ∀ e ∈ es, P e
  | [] => nofun
  | e :: es => List.forall_mem_cons.2
    ⟨Expr.parts_induction step e, Expr.parts_induction_all step es⟩
termination_by structural es => es

end

/-- What an expression hands down to its parts, all its nodes have. -/
theorem Expr.forall_nodes {P : Expr → Prop} (hparts : ∀ e, P e → ∀ d ∈ e.parts, P d) {e : Expr}
    (he : P e) : ∀ u ∈ e.nodes, P u := by
  induction e using Expr.parts_induction with
  | step e ih =>
    intro u hu
    rcases Expr.mem_nodes_iff.1 hu with rfl | ⟨d, hd, hu⟩
    · exact he
    · exact ih d hd (hparts e he d hd) u hu

theorem Expr.idsAll_eq (es : List Expr) : Expr.idsAll es = es.flatMap Expr.ids := by
  induction es with
  | nil => rfl
  | cons e es ih => rw [Expr.idsAll, ih, List.flatMap_cons]

theorem Expr.ids_eq (e : Expr) : e.ids = e.nodes.map fun u ↦ u.site.id := by
  induction e using Expr.parts_induction with
  | step e ih =>
    have hparts : e.ids = e.site.id :: e.parts.flatMap Expr.ids := by
      cases e <;> simp [Expr.ids, Expr.parts, Expr.site, Expr.idsAll_eq]
    rw [hparts, Expr.nodes_eq, List.map_cons, List.map_flatMap, List.flatMap_congr ih]

/-! ## Declarations -/

mutual

/-- The initial values and bodies in a declaration.  All expressions of the declaration are
inside one of these. -/
def Decl.roots : Decl → List Expr
  | .var _ _ _ e => [e]
  | .func f => f.roots
  | .cls c => c.roots
termination_by structural d => d

/-- The initial values and bodies in a function, its own body last. -/
def FunDecl.roots : FunDecl → List Expr
  | ⟨_, _, _, _, locals, body⟩ => Decl.rootsAll locals ++ [body]
termination_by structural f => f

/-- The initial values and bodies in the methods of a class. -/
def ClassDecl.roots : ClassDecl → List Expr
  | ⟨_, _, _, _, methods⟩ => FunDecl.rootsAll methods
termination_by structural c => c

/-- The initial values and bodies in several declarations. -/
def Decl.rootsAll : List Decl → List Expr
  | [] => []
  | d :: ds => d.roots ++ Decl.rootsAll ds
termination_by structural ds => ds

/-- The initial values and bodies in several functions. -/
def FunDecl.rootsAll : List FunDecl → List Expr
  | [] => []
  | f :: fs => f.roots ++ FunDecl.rootsAll fs
termination_by structural fs => fs

end

mutual

/-- Where a declaration and those inside it are, parameters, fields and methods included. -/
def Decl.sites : Decl → List Site
  | .var s _ _ _ => [s]
  | .func f => f.sites
  | .cls c => c.sites
termination_by structural d => d

/-- Where a function, its parameters and its local declarations are. -/
def FunDecl.sites : FunDecl → List Site
  | ⟨s, _, _, params, locals, _⟩ => s :: (params.map Binder.site ++ Decl.sitesAll locals)
termination_by structural f => f

/-- Where a class, its fields and its methods are. -/
def ClassDecl.sites : ClassDecl → List Site
  | ⟨s, _, _, fields, methods⟩ => s :: (fields.map Binder.site ++ FunDecl.sitesAll methods)
termination_by structural c => c

/-- Where several declarations and those inside them are. -/
def Decl.sitesAll : List Decl → List Site
  | [] => []
  | d :: ds => d.sites ++ Decl.sitesAll ds
termination_by structural ds => ds

/-- Where several functions and what they declare are. -/
def FunDecl.sitesAll : List FunDecl → List Site
  | [] => []
  | f :: fs => f.sites ++ FunDecl.sitesAll fs
termination_by structural fs => fs

end

theorem Decl.rootsAll_eq (ds : List Decl) : Decl.rootsAll ds = ds.flatMap Decl.roots := by
  induction ds with
  | nil => rfl
  | cons d ds ih => rw [Decl.rootsAll, ih, List.flatMap_cons]

theorem FunDecl.rootsAll_eq (fs : List FunDecl) :
    FunDecl.rootsAll fs = fs.flatMap FunDecl.roots := by
  induction fs with
  | nil => rfl
  | cons f fs ih => rw [FunDecl.rootsAll, ih, List.flatMap_cons]

theorem FunDecl.roots_eq (f : FunDecl) : f.roots = f.locals.flatMap Decl.roots ++ [f.body] := by
  rw [← Decl.rootsAll_eq]
  cases f
  rfl

theorem ClassDecl.roots_eq (c : ClassDecl) : c.roots = c.methods.flatMap FunDecl.roots := by
  rw [← FunDecl.rootsAll_eq]
  cases c
  rfl

theorem Decl.sitesAll_eq (ds : List Decl) : Decl.sitesAll ds = ds.flatMap Decl.sites := by
  induction ds with
  | nil => rfl
  | cons d ds ih => rw [Decl.sitesAll, ih, List.flatMap_cons]

theorem FunDecl.sitesAll_eq (fs : List FunDecl) :
    FunDecl.sitesAll fs = fs.flatMap FunDecl.sites := by
  induction fs with
  | nil => rfl
  | cons f fs ih => rw [FunDecl.sitesAll, ih, List.flatMap_cons]

theorem FunDecl.sites_eq (f : FunDecl) :
    f.sites = f.site :: (f.params.map Binder.site ++ f.locals.flatMap Decl.sites) := by
  rw [← Decl.sitesAll_eq]
  cases f
  rfl

theorem ClassDecl.sites_eq (c : ClassDecl) :
    c.sites = c.site :: (c.fields.map Binder.site ++ c.methods.flatMap FunDecl.sites) := by
  rw [← FunDecl.sitesAll_eq]
  cases c
  rfl

theorem Decl.idsAll_eq (ds : List Decl) : Decl.idsAll ds = ds.flatMap Decl.ids := by
  induction ds with
  | nil => rfl
  | cons d ds ih => rw [Decl.idsAll, ih, List.flatMap_cons]

theorem FunDecl.idsAll_eq (fs : List FunDecl) : FunDecl.idsAll fs = fs.flatMap FunDecl.ids := by
  induction fs with
  | nil => rfl
  | cons f fs ih => rw [FunDecl.idsAll, ih, List.flatMap_cons]

theorem FunDecl.ids_eq (f : FunDecl) :
    f.ids = f.site.id :: (f.params.map Binder.id ++ f.locals.flatMap Decl.ids ++ f.body.ids) := by
  rw [← Decl.idsAll_eq]
  cases f
  rfl

theorem ClassDecl.ids_eq (c : ClassDecl) :
    c.ids = c.site.id :: (c.fields.map Binder.id ++ c.methods.flatMap FunDecl.ids) := by
  rw [← FunDecl.idsAll_eq]
  cases c
  rfl

/-- What a function has if its local declarations have it, and a class if those of its methods have
it, every declaration has. -/
theorem Decl.induction {P : Decl → Prop} (var : ∀ s x ty e, P (.var s x ty e))
    (func : ∀ f : FunDecl, (∀ d ∈ f.locals, P d) → P (.func f))
    (cls : ∀ c : ClassDecl, (∀ f ∈ c.methods, ∀ d ∈ f.locals, P d) → P (.cls c)) (d : Decl) : P d :=
  @Decl.rec (fun f ↦ ∀ d ∈ f.locals, P d) (fun c ↦ ∀ f ∈ c.methods, ∀ d ∈ f.locals, P d) P
    (fun ds ↦ ∀ d ∈ ds, P d) (fun fs ↦ ∀ f ∈ fs, ∀ d ∈ f.locals, P d)
    (fun _ _ _ _ _ _ ih ↦ ih) (fun _ _ _ _ _ ih ↦ ih) var func cls
    nofun (fun _ _ hd hds ↦ List.forall_mem_cons.2 ⟨hd, hds⟩)
    nofun (fun _ _ hf hfs ↦ List.forall_mem_cons.2 ⟨hf, hfs⟩) d

/-! ## Programs -/

/-- All initial values and bodies in a program, its own body last. -/
def Program.roots (p : Program) : List Expr := p.decls.flatMap Decl.roots ++ [p.body]

/-- All expressions in a program. -/
def Program.nodes (p : Program) : List Expr := p.roots.flatMap Expr.nodes

/-- Where the declarations of a program are, parameters, fields and methods included. -/
def Program.sites (p : Program) : List Site := p.decls.flatMap Decl.sites

/-- What is numbered in a list of declarations is what they and the expressions in them number. -/
theorem Decl.ids_flatMap_perm {α : Type} {l : List α} {ids : α → List NodeId}
    {sites : α → List Site} {roots : α → List Expr}
    (h : ∀ a ∈ l, (ids a).Perm ((sites a).map Site.id ++ (roots a).flatMap Expr.ids)) :
    (l.flatMap ids).Perm
      ((l.flatMap sites).map Site.id ++ (l.flatMap roots).flatMap Expr.ids) := by
  induction l with
  | nil => exact .nil
  | cons a l ih =>
    rw [List.forall_mem_cons] at h
    refine (h.1.append (ih h.2)).trans ?_
    simp only [List.flatMap_cons, List.map_append, List.flatMap_append]
    exact List.perm_iff_count.2 fun n ↦ by simp only [List.count_append]; omega

theorem FunDecl.ids_perm {f : FunDecl}
    (h : ∀ d ∈ f.locals, d.ids.Perm (d.sites.map Site.id ++ d.roots.flatMap Expr.ids)) :
    f.ids.Perm (f.sites.map Site.id ++ f.roots.flatMap Expr.ids) := by
  have hlocals := List.perm_iff_count.1 (Decl.ids_flatMap_perm h)
  have hparams : f.params.map Binder.id = (f.params.map Binder.site).map Site.id := by
    rw [List.map_map]
    rfl
  rw [FunDecl.ids_eq, FunDecl.sites_eq, FunDecl.roots_eq, hparams]
  refine List.perm_iff_count.2 fun n ↦ ?_
  have hn := hlocals n
  simp only [List.map_cons, List.map_append, List.flatMap_append, List.flatMap_cons,
    List.flatMap_nil, List.append_nil, List.count_append, List.count_cons] at hn ⊢
  omega

/-- **Every node of a declaration is a declaration or an expression**, and is counted once. -/
theorem Decl.ids_perm (d : Decl) :
    d.ids.Perm (d.sites.map Site.id ++ d.roots.flatMap Expr.ids) := by
  induction d using Decl.induction with
  | var s x ty e => simp [Decl.ids, Decl.sites, Decl.roots]
  | func f ih => exact FunDecl.ids_perm ih
  | cls c ih =>
    have hmethods : (c.methods.flatMap FunDecl.ids).Perm
        ((c.methods.flatMap FunDecl.sites).map Site.id
          ++ (c.methods.flatMap FunDecl.roots).flatMap Expr.ids) :=
      Decl.ids_flatMap_perm fun f hf ↦ FunDecl.ids_perm (ih f hf)
    have hfields : c.fields.map Binder.id = (c.fields.map Binder.site).map Site.id := by
      rw [List.map_map]
      rfl
    rw [Decl.ids, Decl.sites, Decl.roots, ClassDecl.ids_eq, ClassDecl.sites_eq,
      ClassDecl.roots_eq, hfields]
    refine List.perm_iff_count.2 fun n ↦ ?_
    have hn := List.perm_iff_count.1 hmethods n
    simp only [List.map_cons, List.map_append, List.count_append, List.count_cons] at hn ⊢
    omega

/-- **Every node of a program is a declaration or an expression.** So different numbers of nodes are
different numbers of declarations and of expressions. -/
theorem Program.ids_perm (p : Program) :
    p.ids.Perm (p.sites.map Site.id ++ p.nodes.map fun u ↦ u.site.id) := by
  have hnodes : p.nodes.map (fun u ↦ u.site.id) = p.roots.flatMap Expr.ids := by
    rw [Program.nodes, List.map_flatMap]
    exact List.flatMap_congr fun e _ ↦ e.ids_eq.symm
  rw [hnodes, Program.ids, Decl.idsAll_eq, Program.sites, Program.roots, List.flatMap_append,
    ← List.append_assoc]
  simpa using (Decl.ids_flatMap_perm fun d _ ↦ d.ids_perm).append_right p.body.ids

/-- Expressions of a program with different node numbers are told apart by their numbers. -/
theorem Program.eq_of_id_eq {p : Program} (hids : p.ids.Nodup) {u v : Expr} (hu : u ∈ p.nodes)
    (hv : v ∈ p.nodes) (h : u.site.id = v.site.id) : u = v :=
  List.inj_on_of_nodup_map ((p.ids_perm.nodup_iff.1 hids).of_append_right) hu hv h

end ObjectLet
