import ObjectLet.Proofs.Layouts

/-!
# What declarations do to the environment

If name analysis finds no error in a declaration, it adds one name to the innermost scope and
nothing else (`Env.Declares`), except that a class is registered as well.  `Env.Global` is what
holds of the environment between two global declarations, and `Env.Global.resolve` shows that it is
kept up.
-/

set_option autoImplicit false

namespace ObjectLet

/-! ## Growing class tables -/

/-- Everything that one table of classes says is said by another one.  The other one may know of
more classes, but of those that both know it says the same. -/
def ClassTable.Within (t u : ClassTable) : Prop :=
  ∀ x i, t.info? x = some i → u.info? x = some i ∧ u.superclass? x = t.superclass? x

namespace ClassTable.Within

variable {t u v : ClassTable}

theorem refl (t : ClassTable) : t.Within t := fun _ _ h ↦ ⟨h, rfl⟩

theorem trans (h : t.Within u) (h' : u.Within v) : t.Within v := fun x i hi ↦
  ⟨(h' x i (h x i hi).1).1, (h' x i (h x i hi).1).2.trans (h x i hi).2⟩

theorem info (h : t.Within u) {x : String} {i : ClassInfo} (hi : t.info? x = some i) :
    u.info? x = some i := (h x i hi).1

theorem superclass (h : t.Within u) {x : String} {i : ClassInfo} (hi : t.info? x = some i) :
    u.superclass? x = t.superclass? x := (h x i hi).2

end ClassTable.Within

/-! ## Adding one name -/

/-- One environment comes from another one by declaring a name in the innermost scope, at the next
offset. -/
def Env.Declares (env : Env) (x : String) (ty : Ty) (env' : Env) : Prop :=
  ∃ scopes, env.scopes.declare? x ⟨env.level, ty, env.nextOffset⟩ = some scopes ∧
    env' = { env with scopes, nextOffset := env.nextOffset - 1 }

theorem Scopes.frames_of_declare? {s s' : Scopes} {x : String} {e : Entry}
    (h : s.declare? x e = some s') :
    ∃ frame rest, s.frames = frame :: rest ∧ frame.find? x = none ∧
      s'.frames = frame.insert x e :: rest := by
  obtain ⟨_ | ⟨frame, rest⟩⟩ := s
  · cases h
  · simp only [declare?] at h
    split at h
    · cases h
    · rename_i hnew
      refine ⟨frame, rest, rfl, ?_, by rw [← Option.some.inj h]⟩
      simpa [Table.contains] using hnew

theorem Scopes.nestingLevel_of_declare? {s s' : Scopes} {x : String} {e : Entry}
    (h : s.declare? x e = some s') : s'.nestingLevel = s.nestingLevel := by
  obtain ⟨frame, rest, hs, -, hs'⟩ := frames_of_declare? h
  rw [nestingLevel, nestingLevel, hs, hs', List.length_cons, List.length_cons]

namespace Env

variable {ctx : Context} {env env' : Env} {site : Site} {x : String} {ty : Ty} {e : Entry}

theorem declare_of_recorded (h : Recorded ctx (env.declare site x e).2) :
    ∃ scopes, env.scopes.declare? x e = some scopes ∧
      (env.declare site x e).1 = { env with scopes } := by
  simp only [declare] at h ⊢
  split at h
  · rename_i scopes hs
    exact ⟨scopes, hs, rfl⟩
  · simp at h

theorem declares_of_recorded (h : Recorded ctx (env.declareNext site x ty).2) :
    env.Declares x ty (env.declareNext site x ty).1 :=
  let next : Env := { env with nextOffset := env.nextOffset - 1 }
  @declare_of_recorded ctx next site x ⟨env.level, ty, env.nextOffset⟩ h

namespace Declares

theorem level_eq (h : env.Declares x ty env') : env'.level = env.level := by
  obtain ⟨scopes, hs, rfl⟩ := h
  exact Scopes.nestingLevel_of_declare? hs

theorem classes_eq (h : env.Declares x ty env') : env'.classes = env.classes := by
  obtain ⟨scopes, -, rfl⟩ := h
  rfl

theorem nextOffset_eq (h : env.Declares x ty env') : env'.nextOffset = env.nextOffset - 1 := by
  obtain ⟨scopes, -, rfl⟩ := h
  rfl

theorem frames_eq (h : env.Declares x ty env') :
    ∃ frame rest, env.scopes.frames = frame :: rest ∧ frame.find? x = none ∧
      env'.scopes.frames = frame.insert x ⟨env.level, ty, env.nextOffset⟩ :: rest := by
  obtain ⟨scopes, hs, rfl⟩ := h
  exact Scopes.frames_of_declare? hs

end Declares

end Env

/-! ## Classes -/

section ClassHead

variable {ctx : Context} {env : Env} {c : ClassDecl}

theorem Env.superclass_of_recorded (h : Recorded ctx (env.superclass c).2.2) :
    (∀ s, c.superclass = some s → ∃ i, env.classes.info? s = some i) ∧
      (env.superclass c).1 = c.superclass ∧ (env.superclass c).2.1 = env.classes.base c := by
  rw [superclass, ClassTable.base] at *
  cases hs : c.superclass with
  | none => exact ⟨fun s h ↦ (by cases h), rfl, rfl⟩
  | some s =>
    simp only [hs] at h ⊢
    cases hi : env.classes.info? s with
    | none => simp [hi] at h
    | some i =>
      refine ⟨?_, rfl, by simp [hi]⟩
      rintro _ ⟨⟩
      exact ⟨i, hi⟩

theorem ClassTable.register?_eq {t : ClassTable} {x : String} {i : ClassInfo}
    (hnew : t.info? x = none) :
    t.register? x i = some { t with infos := t.infos.insert x i } := by
  have hfree : t.infos.find? x = none := hnew
  simp [ClassTable.register?, ClassTable.contains, Table.contains, hfree]

/-- The classes after the registration of one more.  It is not registered if its name is taken. -/
def ClassTable.extend (t : ClassTable) (c : ClassDecl) : ClassTable :=
  (Env.register ⟨.empty, t, 0⟩ c.name c.superclass (t.layout c)).classes

theorem ClassTable.extend_eq (env : Env) (c : ClassDecl) :
    env.register c.name c.superclass (env.classes.layout c)
      = { env with classes := env.classes.extend c } := by
  simp only [ClassTable.extend, Env.register]
  cases env.classes.register? c.name (env.classes.layout c) <;> rfl

/-- **A class in which no error is found is in the global scope and extends a known class.**  Its
name is added to the scope, and the class to the registered ones. -/
theorem Env.classHead_of_recorded (h : Recorded ctx (env.classHead c).2.2) :
    env.level = 0 ∧ (∀ s, c.superclass = some s → ∃ i, env.classes.info? s = some i) ∧
      Recorded ctx (ClassLayout.ofDecl (env.classes.base c) c).2 ∧
      { env with classes := env.classes.extend c }.Declares c.name
        (.cls (env.classes.layout c).shape) (env.classHead c).1 ∧
      (env.classHead c).2.1 = { (env.classHead c).1 with
        scopes := (env.classHead c).1.scopes.push (env.classes.layout c).members } := by
  rw [Env.classHead_eq] at h ⊢
  simp only [recorded_append] at h
  obtain ⟨⟨⟨⟨hlevel, hsup⟩, hlaid⟩, hdecl⟩, -⟩ := h
  have hlevel : env.level = 0 := by
    by_contra hne
    rw [if_neg hne] at hlevel
    simp at hlevel
  obtain ⟨hknown, hname, hbase⟩ := Env.superclass_of_recorded hsup
  rw [hname, hbase] at hdecl ⊢
  rw [hbase] at hlaid
  have hinfo : (ClassLayout.ofDecl (env.classes.base c) c).1.info = env.classes.layout c := rfl
  rw [hinfo, Env.declareClass, if_pos hlevel, ClassTable.extend_eq] at hdecl ⊢
  exact ⟨hlevel, hknown, hlaid, Env.declares_of_recorded hdecl, rfl⟩

/-- Registering a class whose name is free adds it and changes nothing else. -/
theorem ClassTable.info?_extend {t : ClassTable} (hnew : t.info? c.name = none) (x : String) :
    (t.extend c).info? x = if c.name = x then some (t.layout c) else t.info? x := by
  rw [ClassTable.extend, Env.register, ClassTable.register?_eq hnew]
  cases c.superclass <;> exact ClassTable.info?_register? (ClassTable.register?_eq hnew) x

theorem ClassTable.superclass?_extend {t : ClassTable} (hnew : t.info? c.name = none)
    (hnone : t.superclass? c.name = none) (x : String) :
    (t.extend c).superclass? x = if c.name = x then c.superclass else t.superclass? x := by
  rw [ClassTable.extend, Env.register, ClassTable.register?_eq hnew]
  cases hs : c.superclass with
  | none =>
    simp only
    split
    · rename_i hx
      rw [← hx]
      exact hnone
    · rfl
  | some s =>
    have hfree : t.hierarchy.links.find? c.name = none := hnone
    simp [ClassTable.superclass?, ClassTable.setSuperclass, Hierarchy.superclass?, Hierarchy.link,
      Table.find?_insertNew, hfree]

theorem recorded_resolveBodies {fs : List FunDecl}
    (h : Recorded ctx (FunDecl.resolveBodies env fs)) :
    ∀ f ∈ fs, Recorded ctx (f.resolveBody env) := by
  induction fs with
  | nil => nofun
  | cons f fs ih =>
    rw [FunDecl.resolveBodies, recorded_append] at h
    exact List.forall_mem_cons.2 ⟨h.1, ih h.2⟩

end ClassHead

/-! ## Soundness of what a class overrides -/

theorem typeErrors_append (rs ts : List Remark) :
    typeErrors (rs ++ ts) = typeErrors rs ++ typeErrors ts := List.filterMap_append

theorem typeErrors_flatMap {α : Type} {l : List α} {f : α → List Remark}
    (h : typeErrors (l.flatMap f) = []) : ∀ a ∈ l, typeErrors (f a) = [] := by
  induction l with
  | nil => nofun
  | cons a l ih =>
    rw [List.flatMap_cons, typeErrors_append, List.append_eq_nil_iff] at h
    exact List.forall_mem_cons.2 ⟨h.1, ih h.2⟩

/-- If nothing is wrong with what a class overrides, all of it fits. -/
theorem ClassDecl.sound_of_checkOverrides {ctx : Context} {c : ClassDecl}
    (h : typeErrors (ctx.checkOverrides c) = []) : c.Sound ctx (ctx.inheritedMembers c) := by
  rw [Context.checkOverrides, typeErrors_append, List.append_eq_nil_iff] at h
  refine ⟨fun b hb e he ↦ ?_, fun f hf e he ↦ ?_⟩
  · have := typeErrors_flatMap h.1 b hb
    simp only [he] at this
    split at this
    · assumption
    · simp [typeErrors] at this
  · have := typeErrors_flatMap h.2 f hf
    simp only [he] at this
    split at this
    · assumption
    · simp [typeErrors] at this

theorem ClassTable.base_members {ctx : Context} {t : ClassTable} {c : ClassDecl}
    (hwithin : t.Within ctx.classes)
    (hknown : ∀ s, c.superclass = some s → ∃ i, t.info? s = some i) :
    (t.base c).members = ctx.inheritedMembers c := by
  rw [ClassTable.base, Context.inheritedMembers]
  cases hs : c.superclass with
  | none => rfl
  | some s =>
    obtain ⟨i, hi⟩ := hknown s hs
    simp only [Option.bind_some, ClassTable.members?, hi, hwithin.info hi, Option.map_some,
      Option.getD_some]

/-! ## Global declarations -/

/-- The classes that a declaration declares globally.  A class inside a function is not one of
them. -/
def Decl.classes : Decl → List ClassDecl
  | .cls c => [c]
  | _ => []

/-- There is no scope but the global one, and the names of the registered classes are taken. -/
structure Env.AtTop (env : Env) : Prop where
  /-- The global scope is the only one, and the names of the classes are declared in it. -/
  scope : ∃ frame, env.scopes.frames = [frame] ∧
    ∀ x i, env.classes.info? x = some i → ∃ e, frame.find? x = some e
  /-- Only registered classes have superclasses. -/
  links : ∀ x, env.classes.info? x = none → env.classes.superclass? x = none

namespace Env.AtTop

variable {ctx : Context} {env env' : Env} {x : String} {ty : Ty} {t : ClassTable}

theorem start : Env.AtTop ⟨.push .empty ∅, .empty, firstDeclOffset⟩ :=
  ⟨⟨∅, rfl, nofun⟩, fun _ _ ↦ rfl⟩

theorem level_eq (h : env.AtTop) : env.level = 0 := by
  obtain ⟨frame, hf, -⟩ := h.scope
  rw [level, Scopes.nestingLevel, hf]
  rfl

/-- The name of a class that is declared without an error is free. -/
theorem info?_eq_none (h : env.AtTop) (hd : { env with classes := t }.Declares x ty env') :
    env.classes.info? x = none := by
  obtain ⟨frame, hf, hnames⟩ := h.scope
  obtain ⟨frame', rest, hf', hnone, -⟩ := hd.frames_eq
  obtain ⟨rfl, rfl⟩ := List.cons.inj (hf.symm.trans hf')
  cases hi : env.classes.info? x with
  | none => rfl
  | some i =>
    obtain ⟨e, he⟩ := hnames x i hi
    rw [hnone] at he
    cases he

theorem declares (h : env.AtTop) (hd : env.Declares x ty env') : env'.AtTop := by
  obtain ⟨frame, hf, hnames⟩ := h.scope
  obtain ⟨frame', rest, hf', -, hf''⟩ := hd.frames_eq
  obtain ⟨rfl, rfl⟩ := List.cons.inj (hf.symm.trans hf')
  refine ⟨⟨_, hf'', fun y i hi ↦ ?_⟩, fun y hy ↦ ?_⟩
  · rw [hd.classes_eq] at hi
    obtain ⟨e, he⟩ := hnames y i hi
    rw [Table.find?_insert]
    split
    · exact ⟨_, rfl⟩
    · exact ⟨e, he⟩
  · rw [hd.classes_eq] at hy ⊢
    exact h.links y hy

theorem extend (h : env.AtTop) {c : ClassDecl} (hrec : Recorded ctx (env.classHead c).2.2) :
    (env.classHead c).1.AtTop := by
  obtain ⟨-, -, -, hd, -⟩ := Env.classHead_of_recorded hrec
  have hnew := h.info?_eq_none hd
  obtain ⟨frame, hf, hnames⟩ := h.scope
  obtain ⟨frame', rest, hf', -, hf''⟩ := hd.frames_eq
  obtain ⟨rfl, rfl⟩ := List.cons.inj (hf.symm.trans hf')
  refine ⟨⟨_, hf'', fun y i hi ↦ ?_⟩, fun y hy ↦ ?_⟩
  · rw [hd.classes_eq, ClassTable.info?_extend hnew] at hi
    rw [Table.find?_insert]
    split
    · exact ⟨_, rfl⟩
    · rename_i hne
      rw [if_neg hne] at hi
      exact hnames y i hi
  · rw [hd.classes_eq] at hy ⊢
    rw [ClassTable.info?_extend hnew] at hy
    rw [ClassTable.superclass?_extend hnew (h.links _ hnew)]
    split at hy
    · cases hy
    · rename_i hne
      rw [if_neg hne]
      exact h.links y hy

/-- Declarations keep to the global scope, and only add classes. -/
theorem resolve (h : env.AtTop) {d : Decl} (hrec : Recorded ctx (d.resolve env).2) :
    (d.resolve env).1.AtTop ∧ env.classes.Within (d.resolve env).1.classes := by
  cases d with
  | var site x ty e =>
    simp only [Decl.resolve, recorded_append] at hrec ⊢
    have hd := Env.declares_of_recorded hrec.2
    exact ⟨h.declares hd, hd.classes_eq ▸ .refl _⟩
  | func f =>
    simp only [Decl.resolve, recorded_append] at hrec ⊢
    have hd := Env.declares_of_recorded hrec.1.2
    exact ⟨h.declares hd, hd.classes_eq ▸ .refl _⟩
  | cls c =>
    simp only [Decl.resolve, ClassDecl.resolve_eq, recorded_append] at hrec ⊢
    refine ⟨h.extend hrec.1, fun y i hi ↦ ?_⟩
    obtain ⟨-, -, -, hd, -⟩ := Env.classHead_of_recorded hrec.1
    have hnew := h.info?_eq_none hd
    have hne : c.name ≠ y := by
      rintro rfl
      rw [hnew] at hi
      cases hi
    rw [hd.classes_eq, ClassTable.info?_extend hnew, if_neg hne,
      ClassTable.superclass?_extend hnew (h.links _ hnew), if_neg hne]
    exact ⟨hi, rfl⟩

theorem within_resolveAll (h : env.AtTop) {ds : List Decl}
    (hrec : Recorded ctx (Decl.resolveAll env ds).2) :
    env.classes.Within (Decl.resolveAll env ds).1.classes := by
  induction ds generalizing env with
  | nil => exact .refl _
  | cons d ds ih =>
    simp only [Decl.resolveAll, recorded_append] at hrec ⊢
    obtain ⟨htop, hwithin⟩ := h.resolve hrec.1
    exact hwithin.trans (ih htop hrec.2)

end Env.AtTop

/-- What holds between two global declarations, given the classes declared so far, newest first. -/
structure Env.Global (ctx : Context) (env : Env) (cs : List ClassDecl) : Prop where
  /-- The global scope is the only one. -/
  top : env.AtTop
  /-- The classes are registered. -/
  classes : Classes ctx env.classes cs

namespace Env.Global

variable {ctx : Context} {env : Env} {cs : List ClassDecl}

theorem start (ctx : Context) : Env.Global ctx ⟨.push .empty ∅, .empty, firstDeclOffset⟩ [] :=
  ⟨.start, .nil⟩

/-- A class declared without an error is registered over those before it. -/
theorem extend (h : env.Global ctx cs) {c : ClassDecl}
    (hrec : Recorded ctx (env.classHead c).2.2)
    (hsound : c.Sound ctx (env.classes.base c).members)
    (hdisp : c.Dispatched (env.classes.base c).members) :
    (env.classHead c).1.Global ctx (c :: cs) := by
  obtain ⟨-, hknown, hlaid, hd, -⟩ := Env.classHead_of_recorded hrec
  have hnew := h.top.info?_eq_none hd
  refine ⟨h.top.extend hrec, ?_⟩
  rw [hd.classes_eq]
  exact .cons h.classes hnew hknown hlaid hsound hdisp (ClassTable.info?_extend hnew)
    (ClassTable.superclass?_extend hnew (h.top.links _ hnew))

/-- **What holds between two global declarations is kept up** by a declaration without errors, if
the methods of a class override only what has a place in the dispatch table. -/
theorem resolve (h : env.Global ctx cs) {d : Decl} (hrec : Recorded ctx (d.resolve env).2)
    (hcheck : typeErrors (d.check ctx) = []) (hwithin : env.classes.Within ctx.classes)
    (hdisp : ∀ c ∈ d.classes, c.Dispatched (ctx.inheritedMembers c)) :
    (d.resolve env).1.Global ctx (d.classes ++ cs) := by
  cases d with
  | var site x ty e =>
    simp only [Decl.resolve, recorded_append] at hrec ⊢
    have hd := Env.declares_of_recorded hrec.2
    exact ⟨h.top.declares hd, hd.classes_eq ▸ h.classes⟩
  | func f =>
    simp only [Decl.resolve, recorded_append] at hrec ⊢
    have hd := Env.declares_of_recorded hrec.1.2
    exact ⟨h.top.declares hd, hd.classes_eq ▸ h.classes⟩
  | cls c =>
    simp only [Decl.resolve, ClassDecl.resolve_eq, recorded_append] at hrec ⊢
    have hbase := ClassTable.base_members hwithin (Env.classHead_of_recorded hrec.1).2.1
    refine h.extend hrec.1 ?_ (hbase ▸ hdisp c (by simp [Decl.classes]))
    rw [hbase]
    refine ClassDecl.sound_of_checkOverrides ?_
    obtain ⟨site, name, superclass, fields, methods⟩ := c
    rw [Decl.check, ClassDecl.check, typeErrors_append, List.append_eq_nil_iff] at hcheck
    exact hcheck.2

end Env.Global

end ObjectLet
