import Mathlib.Data.List.Induction
import ObjectLet.Proofs.Declarations

/-!
# The registry of classes

Whatever errors a program has, the classes that name analysis registers are those that are declared
globally, one after the other: `Program.classes_resolve` says that the table of classes is what
`ClassTable.declare` makes of them.  Only this function has to be looked at to see what can be in a
table of classes.

* `ClassTable.Stands`: a registered class comes from a declaration, and is laid out over what its
  superclass is registered with.
* `ClassTable.exists_stands_first`: **every registered class stands for the first declaration of its
  name.**
* `ClassTable.forall_info_declareAll`: the induction over all registered classes.
-/

set_option autoImplicit false

namespace ObjectLet

/-! ## Declaring classes -/

namespace ClassTable

variable {t u : ClassTable} {c : ClassDecl} {cs : List ClassDecl} {x s : String} {i : ClassInfo}

/-- The classes after the declaration of one more.  Its name may be taken, and its superclass be
unknown: then the declaration is without effect, or the class without a superclass. -/
def declare (t : ClassTable) (c : ClassDecl) : ClassTable :=
  (Env.register ⟨.empty, t, 0⟩ c.name (c.superclass.filter t.contains) (t.layout c)).classes

/-- The classes after several declarations. -/
def declareAll (t : ClassTable) (cs : List ClassDecl) : ClassTable := cs.foldl declare t

@[simp] theorem declareAll_nil (t : ClassTable) : t.declareAll [] = t := rfl

@[simp] theorem declareAll_cons (t : ClassTable) (c : ClassDecl) (cs : List ClassDecl) :
    t.declareAll (c :: cs) = (t.declare c).declareAll cs := rfl

theorem declareAll_append (t : ClassTable) (cs ds : List ClassDecl) :
    t.declareAll (cs ++ ds) = (t.declareAll cs).declareAll ds := List.foldl_append

theorem contains_eq_isSome (t : ClassTable) (x : String) : t.contains x = (t.info? x).isSome := rfl

/-- A class whose name is taken is not registered again. -/
theorem declare_of_info? (h : t.info? c.name = some i) : t.declare c = t := by
  have htaken : t.contains c.name = true := by rw [contains_eq_isSome, h]; rfl
  rw [declare, Env.register, register?, if_pos htaken]

/-- **A class is registered with its layout**, if its name is free.  Otherwise what is known
under that name stays. -/
theorem info?_declare (t : ClassTable) (c : ClassDecl) (x : String) :
    (t.declare c).info? x = (t.info? x).or (if c.name = x then some (t.layout c) else none) := by
  cases hname : t.info? c.name with
  | some i =>
    rw [declare_of_info? hname]
    split
    · rename_i hx
      rw [← hx, hname]
      rfl
    · rw [Option.or_none]
  | none =>
    have hinfo : (t.declare c).info? x = if c.name = x then some (t.layout c) else t.info? x := by
      rw [declare, Env.register, register?_eq hname]
      cases c.superclass.filter t.contains <;> exact info?_register? (register?_eq hname) x
    rw [hinfo]
    split
    · rename_i hx
      rw [← hx, hname]
      rfl
    · rw [Option.or_none]

/-- A class gets a superclass only when it is registered, and only one that is registered. -/
theorem superclass?_declare (t : ClassTable) (c : ClassDecl) (x : String) :
    (t.declare c).superclass? x = (t.superclass? x).or
      (if c.name = x ∧ t.info? x = none then c.superclass.filter t.contains else none) := by
  cases hname : t.info? c.name with
  | some i =>
    rw [declare_of_info? hname, if_neg, Option.or_none]
    rintro ⟨rfl, hx⟩
    rw [hname] at hx
    cases hx
  | none =>
    rw [declare, Env.register, register?_eq hname]
    cases hs : c.superclass.filter t.contains with
    | none => simp only [ite_self, Option.or_none]; rfl
    | some s =>
      have hlink : ∀ v : ClassTable, (v.setSuperclass c.name s).superclass? x =
          (v.superclass? x).or (if c.name = x then some s else none) := by
        intro v
        simp only [superclass?, setSuperclass, Hierarchy.superclass?, Hierarchy.link,
          Table.find?_insertNew]
        by_cases hx : c.name = x
        · subst hx
          cases v.hierarchy.links.find? c.name <;> simp
        · simp [hx]
      rw [hlink]
      by_cases hx : c.name = x
      · subst hx
        simp only [hname, and_self, if_true]
        rfl
      · simp only [hx, false_and, if_false]
        rfl

theorem within_declare (t : ClassTable) (c : ClassDecl) : t.Within (t.declare c) := by
  intro x i hi
  refine ⟨by rw [info?_declare, hi, Option.some_or], ?_⟩
  have hno : ¬(c.name = x ∧ t.info? x = none) := fun h ↦ Option.some_ne_none i (hi.symm.trans h.2)
  rw [superclass?_declare, if_neg hno, Option.or_none]

end ClassTable

/-! ## The classes of a program -/

namespace Env

theorem superclass_fst (env : Env) (c : ClassDecl) :
    (env.superclass c).1 = c.superclass.filter env.classes.contains := by
  rw [superclass]
  cases c.superclass with
  | none => rfl
  | some s =>
    rw [Option.filter_some, ClassTable.contains_eq_isSome]
    cases hs : env.classes.info? s <;> simp [hs]

theorem superclass_snd (env : Env) (c : ClassDecl) :
    (env.superclass c).2.1 = env.classes.base c := by
  rw [superclass, ClassTable.base]
  cases c.superclass with
  | none => rfl
  | some s => cases hs : env.classes.info? s <;> simp [hs]

theorem register_eq (env : Env) (x : String) (s : Option String) (i : ClassInfo) :
    env.register x s i =
      { env with classes := (register ⟨.empty, env.classes, 0⟩ x s i).classes } := by
  simp only [register]
  cases env.classes.register? x i <;> rfl

theorem level_declare (env : Env) (site : Site) (x : String) (e : Entry) :
    (env.declare site x e).1.level = env.level := by
  rw [declare]
  split
  · rename_i hs
    exact Scopes.nestingLevel_of_declare? hs
  · rfl

theorem classes_declare (env : Env) (site : Site) (x : String) (e : Entry) :
    (env.declare site x e).1.classes = env.classes := by
  rw [declare]
  split <;> rfl

@[simp] theorem level_declareNext (env : Env) (site : Site) (x : String) (ty : Ty) :
    (env.declareNext site x ty).1.level = env.level :=
  level_declare { env with nextOffset := env.nextOffset - 1 } site x _

@[simp] theorem classes_declareNext (env : Env) (site : Site) (x : String) (ty : Ty) :
    (env.declareNext site x ty).1.classes = env.classes :=
  classes_declare { env with nextOffset := env.nextOffset - 1 } site x _

theorem classHead_fst (env : Env) (c : ClassDecl) :
    (env.classHead c).1 =
      (env.declareClass c (c.superclass.filter env.classes.contains) (env.classes.layout c)).1 := by
  rw [classHead_eq, superclass_fst, superclass_snd]
  rfl

/-- The methods of a class are in the scope of its members. -/
theorem classHead_inside (env : Env) (c : ClassDecl) :
    (env.classHead c).2.1 = { (env.classHead c).1 with
      scopes := (env.classHead c).1.scopes.push (env.classes.layout c).members } := by
  rw [classHead_eq, superclass_snd]
  rfl

/-- A class declared globally is registered, one declared elsewhere is not. -/
theorem classes_classHead (env : Env) (c : ClassDecl) :
    (env.classHead c).1.level = env.level ∧
      (env.classHead c).1.classes =
        if env.level = 0 then env.classes.declare c else env.classes := by
  rw [classHead_fst, declareClass]
  split
  · rw [register_eq]
    exact ⟨level_declareNext _ _ _ _, classes_declareNext _ _ _ _⟩
  · exact ⟨rfl, rfl⟩

end Env

theorem Decl.level_resolve (env : Env) (d : Decl) : (d.resolve env).1.level = env.level := by
  cases d with
  | var site x ty e => exact Env.level_declareNext _ _ _ _
  | func f => exact Env.level_declareNext _ _ _ _
  | cls c =>
    rw [Decl.resolve, ClassDecl.resolve_eq]
    exact (env.classes_classHead c).1

/-- Only a class in the global scope is registered. -/
theorem Decl.classes_resolve_eq (env : Env) (d : Decl) :
    (d.resolve env).1.classes =
      if env.level = 0 then env.classes.declareAll d.classes else env.classes := by
  cases d with
  | var site x ty e => exact (Env.classes_declareNext _ _ _ _).trans (ite_self _).symm
  | func f => exact (Env.classes_declareNext _ _ _ _).trans (ite_self _).symm
  | cls c =>
    rw [Decl.resolve, ClassDecl.resolve_eq]
    exact (env.classes_classHead c).2

theorem Decl.classes_resolve {env : Env} (h : env.level = 0) (d : Decl) :
    (d.resolve env).1.classes = env.classes.declareAll d.classes :=
  (d.classes_resolve_eq env).trans (if_pos h)

theorem Decl.classes_resolveAll {env : Env} (h : env.level = 0) (ds : List Decl) :
    (Decl.resolveAll env ds).1.classes = env.classes.declareAll (ds.flatMap Decl.classes) := by
  induction ds generalizing env with
  | nil => rfl
  | cons d ds ih =>
    rw [List.flatMap_cons, ClassTable.declareAll_append, ← d.classes_resolve h]
    exact ih ((d.level_resolve env).trans h)

/-- **The classes that a program registers are those that it declares globally**, whatever else
goes wrong in it. -/
theorem Program.classes_resolve (t : ClassTable) (p : Program) :
    (p.resolve t).1 = t.declareAll (p.decls.flatMap Decl.classes) := by
  cases p with
  | letIn line ds body => exact Decl.classes_resolveAll rfl ds
  | bare body => rfl

/-! ## Where registered classes come from -/

namespace ClassTable

/-- A class stands for its declaration: it is laid out over what its superclass is registered with,
or over nothing if it has none. -/
structure Stands (t : ClassTable) (c : ClassDecl) (base info : ClassInfo) : Prop where
  /-- It is registered. -/
  registered : t.info? c.name = some info
  /-- It is laid out as it is declared. -/
  laid : info = (ClassLayout.ofDecl base c).1.info
  /-- What it is laid out over belongs to its superclass. -/
  base : match t.superclass? c.name with
    | some s => c.superclass = some s ∧ t.info? s = some base
    | none => base = ⟨∅, .empty⟩

/-- Only registered classes have superclasses. -/
def Linked (t : ClassTable) : Prop := ∀ x, t.info? x = none → t.superclass? x = none

section Stands

variable {t u : ClassTable} {c : ClassDecl} {cs : List ClassDecl} {base info i : ClassInfo}
  {x : String}

theorem linked_empty : Linked .empty := fun _ _ ↦ rfl

theorem Linked.declare (h : t.Linked) (c : ClassDecl) : (t.declare c).Linked := by
  intro x hx
  rw [info?_declare, Option.or_eq_none_iff] at hx
  rw [superclass?_declare, h x hx.1, if_neg, Option.none_or]
  rintro ⟨hc, -⟩
  simp [hc] at hx

theorem Linked.declareAll (h : t.Linked) (cs : List ClassDecl) : (t.declareAll cs).Linked := by
  induction cs generalizing t with
  | nil => exact h
  | cons c cs ih => exact ih (h.declare c)

theorem Stands.within (h : t.Stands c base info) (hw : t.Within u) : u.Stands c base info := by
  refine ⟨hw.info h.registered, h.laid, ?_⟩
  have hbase := h.base
  rw [hw.superclass h.registered]
  split
  · rename_i s hs
    rw [hs] at hbase
    exact ⟨hbase.1, hw.info hbase.2⟩
  · rename_i hs
    rwa [hs] at hbase

theorem Stands.base_of_superclass? {s : String} (h : t.Stands c base info)
    (hs : t.superclass? c.name = some s) : c.superclass = some s ∧ t.info? s = some base := by
  have hbase := h.base
  rwa [hs] at hbase

/-- A class that has just been registered stands for its declaration. -/
theorem Linked.stands_declare (h : t.Linked) (hnew : t.info? c.name = none) :
    (t.declare c).Stands c (t.base c) (t.layout c) := by
  refine ⟨by rw [info?_declare, hnew, if_pos rfl, Option.none_or], rfl, ?_⟩
  rw [superclass?_declare, h _ hnew, if_pos ⟨rfl, hnew⟩, Option.none_or, ClassTable.base]
  cases hs : c.superclass with
  | none => rfl
  | some s =>
    rw [Option.filter_some, contains_eq_isSome]
    cases hi : t.info? s with
    | none => simp [hi]
    | some i => simpa [hi] using (t.within_declare c).info hi

theorem info?_declareAll_eq_none_iff :
    (t.declareAll cs).info? x = none ↔ t.info? x = none ∧ ∀ c ∈ cs, c.name ≠ x := by
  induction cs generalizing t with
  | nil => simp
  | cons c cs ih =>
    rw [declareAll_cons, ih, info?_declare, Option.or_eq_none_iff, List.forall_mem_cons, and_assoc]
    simp

/-- **Every registered class stands for the first declaration of its name.** Later ones are errors,
and never registered. -/
theorem exists_stands_first (h : ((empty.declareAll cs).info? x) = some info) :
    ∃ c, cs.find? (fun c ↦ c.name = x) = some c ∧
      ∃ base, (empty.declareAll cs).Stands c base info := by
  induction cs using List.reverseRecOn with
  | nil => cases h
  | append_singleton cs c ih =>
    rw [declareAll_append, declareAll_cons, declareAll_nil] at h ⊢
    rw [List.find?_append]
    cases hx : (empty.declareAll cs).info? x with
    | some i =>
      obtain rfl : i = info := by
        rw [((empty.declareAll cs).within_declare c).info hx] at h
        exact Option.some.inj h
      obtain ⟨d, hd, base, hstands⟩ := ih hx
      exact ⟨d, by rw [hd, Option.some_or], base, hstands.within (within_declare _ c)⟩
    | none =>
      rw [info?_declare, hx, Option.none_or] at h
      split at h
      · rename_i hname
        subst hname
        obtain rfl := Option.some.inj h
        have hnone : cs.find? (fun d ↦ d.name = c.name) = none := by
          rw [List.find?_eq_none]
          intro d hd
          simpa using (info?_declareAll_eq_none_iff.1 hx).2 d hd
        exact ⟨c, by simp [hnone], _, (linked_empty.declareAll cs).stands_declare hx⟩
      · cases h

/-- Every registered class stands for one of the declarations. -/
theorem exists_stands (h : ((empty.declareAll cs).info? x) = some info) :
    ∃ c ∈ cs, c.name = x ∧ ∃ base, (empty.declareAll cs).Stands c base info := by
  obtain ⟨c, hc, hstands⟩ := exists_stands_first h
  exact ⟨c, List.mem_of_find?_eq_some hc, by simpa using List.find?_some hc, hstands⟩

/-- What every class has that is laid out over one that has it, all registered classes have. -/
theorem forall_info_declareAll {P : ClassInfo → Prop} (hempty : P ⟨∅, .empty⟩)
    (hlaid : ∀ c ∈ cs, ∀ base, P base → P (ClassLayout.ofDecl base c).1.info)
    (ht : ∀ x i, t.info? x = some i → P i) (hx : (t.declareAll cs).info? x = some info) :
    P info := by
  induction cs generalizing t with
  | nil => exact ht x info hx
  | cons c cs ih =>
    refine ih (fun c hc ↦ hlaid c (List.mem_cons_of_mem _ hc)) (fun y j hy ↦ ?_) hx
    rw [info?_declare, Option.or_eq_some_iff] at hy
    rcases hy with hy | ⟨-, hy⟩
    · exact ht y j hy
    · split at hy
      · obtain rfl := Option.some.inj hy
        exact hlaid c List.mem_cons_self _ (forall_base hempty ht c)
      · cases hy

end Stands

end ClassTable

end ObjectLet
