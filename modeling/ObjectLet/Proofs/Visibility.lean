import ObjectLet.Proofs.Compiling
import ObjectLet.Proofs.Registry
import ObjectLet.Proofs.Visits

/-!
# Static scoping

Which declaration a name refers to can be told from the text of a program alone.  `Encloses` says
which scopes are around an expression, without any reference to how name analysis goes about it:
the global scope, for a method the members of its class, and for every function around it the
parameters and what is declared before.

* `Encloses.visits`: **name analysis goes through every expression in the scopes that enclose it.**
* `Toolchain.resolves_statically`: **a name refers to the first declaration in the innermost scope
  that has it**, and the levels that are recorded count the scopes.
-/

set_option autoImplicit false

namespace ObjectLet

/-! ## Scopes -/

/-- What a scope declares, in order. -/
abbrev Scope := List (String × Entry)

/-- The entry of a name in a scope, which is that of its first declaration there. -/
def Scope.entry? (s : Scope) (x : String) : Option Entry := Table.lookupIn x s

/-- The type that a declaration gives to its name, given the classes declared before.  Of a class
this is its shape, with all that it inherits. -/
def Decl.declaredTy (t : ClassTable) : Decl → Ty
  | .var _ _ ty _ => ty
  | .func f => .arrow f.signature
  | .cls c => .cls (t.layout c).shape

/-- What some declarations add to a scope: its level, the classes declared before, and the number
of declarations before. -/
def Decl.scope (level : Nat) : ClassTable → Nat → List Decl → Scope
  | _, _, [] => []
  | t, i, d :: ds =>
    (d.name, ⟨level, d.declaredTy t, -(i : Int) - 2⟩)
      :: Decl.scope level (t.declareAll d.classes) (i + 1) ds

/-- What the parameters of a function declare in its scope, with offsets from 1 on. -/
def Binder.scope (level : Nat) (bs : List Binder) : Scope :=
  bs.zipIdx.map fun b ↦ (b.1.name, ⟨level, b.1.ty, (b.2 : Int) + 1⟩)

/-- The scopes that enclose an expression, innermost first.  The expression is in a block, which
consists of some declarations and an expression after them; around the block are the scopes `outer`,
in its own scope there are the parameters `head`, and the classes in `t` are declared before it. -/
inductive Encloses : ClassTable → List Scope → Scope → List Decl → Expr → List Scope → Expr → Prop
  /-- The expression after the declarations sees all of them. -/
  | body {t : ClassTable} {outer : List Scope} {head : Scope} {ds : List Decl} {body : Expr} :
    Encloses t outer head ds body ((head ++ Decl.scope outer.length t 0 ds) :: outer) body
  /-- An initial value sees the declarations before, but not the variable itself. -/
  | init {t : ClassTable} {outer : List Scope} {head : Scope} {before after : List Decl}
    {site : Site} {x : String} {ty : Ty} {e body : Expr} :
    Encloses t outer head (before ++ .var site x ty e :: after) body
      ((head ++ Decl.scope outer.length t 0 before) :: outer) e
  /-- What is inside a function sees its parameters, and around it the function itself and the
  declarations before. -/
  | func {t : ClassTable} {outer : List Scope} {head : Scope} {before after : List Decl}
    {f : FunDecl} {body e : Expr} {scopes : List Scope}
    (h : Encloses (t.declareAll (before.flatMap Decl.classes))
      ((head ++ Decl.scope outer.length t 0 (before ++ [.func f])) :: outer)
      (Binder.scope (outer.length + 1) f.params) f.locals f.body scopes e) :
    Encloses t outer head (before ++ .func f :: after) body scopes e
  /-- What is inside a method of a global class sees its parameters, around it the members of the
  class, and around these the class itself and the declarations before. -/
  | method {t : ClassTable} {head : Scope} {before after : List Decl} {c : ClassDecl} {f : FunDecl}
    {body e : Expr} {scopes : List Scope} (hf : f ∈ c.methods)
    (h : Encloses ((t.declareAll (before.flatMap Decl.classes)).declare c)
      [((t.declareAll (before.flatMap Decl.classes)).layout c).members.entries,
        head ++ Decl.scope 0 t 0 (before ++ [.cls c])]
      (Binder.scope 2 f.params) f.locals f.body scopes e) :
    Encloses t [] head (before ++ .cls c :: after) body scopes e

/-- The scopes that enclose an expression in a program.  They are those of the initial value or body
that the expression is in. -/
def Program.Encloses (p : Program) (scopes : List Scope) (u : Expr) : Prop :=
  ∃ e, ObjectLet.Encloses .empty [] [] p.decls p.body scopes e ∧ u ∈ e.nodes

/-- There is no class in a declaration, however deep inside. -/
inductive Decl.ClassFree : Decl → Prop
  | var (site : Site) (x : String) (ty : Ty) (e : Expr) : ClassFree (.var site x ty e)
  | func (f : FunDecl) (h : ∀ d ∈ f.locals, ClassFree d) : ClassFree (.func f)

/-- There is no class in the functions and methods of a declaration. -/
def Decl.ClassFreeInside : Decl → Prop
  | .var _ _ _ _ => True
  | .func f => ∀ d ∈ f.locals, d.ClassFree
  | .cls c => ∀ f ∈ c.methods, ∀ d ∈ f.locals, d.ClassFree

/-- All classes of a program are declared globally. -/
def Program.ClassesGlobal (p : Program) : Prop := ∀ d ∈ p.decls, d.ClassFreeInside

/-! ### Entries -/

/-- All entries of a scope are at one level. -/
def Scope.HasLevel (s : Scope) (k : Nat) : Prop := ∀ x e, Scope.entry? s x = some e → e.level = k

/-- The entries of each scope are at the level that counts the scopes around it.  So the level of an
entry says which scope it was found in. -/
def Levelled : List Scope → Prop
  | [] => True
  | s :: outer => s.HasLevel outer.length ∧ Levelled outer

section Entries

variable {s s' : Scope} {x : String} {e : Entry} {k : Nat}

theorem Scope.entry?_append (s s' : Scope) (x : String) :
    Scope.entry? (s ++ s') x = (Scope.entry? s x).or (Scope.entry? s' x) :=
  Table.lookupIn_append x s s'

/-- One more declaration is entered last.  The classes declared before it determine its type, if it
is a class itself. -/
theorem Decl.scope_concat (level : Nat) (t : ClassTable) (i : Nat) (ds : List Decl) (d : Decl) :
    Decl.scope level t i (ds ++ [d]) = Decl.scope level t i ds ++
      [(d.name, ⟨level, d.declaredTy (t.declareAll (ds.flatMap Decl.classes)),
        -((i + ds.length : Nat) : Int) - 2⟩)] := by
  induction ds generalizing t i with
  | nil => rfl
  | cons c ds ih =>
    simp only [List.cons_append, Decl.scope, ih, List.flatMap_cons, ClassTable.declareAll_append,
      List.length_cons]
    rw [show i + 1 + ds.length = i + (ds.length + 1) by omega]

theorem Scope.HasLevel.append (hs : s.HasLevel k) (hs' : s'.HasLevel k) :
    Scope.HasLevel (s ++ s') k := by
  intro x e he
  rw [Scope.entry?_append, Option.or_eq_some_iff] at he
  rcases he with he | ⟨-, he⟩
  · exact hs x e he
  · exact hs' x e he

theorem Decl.hasLevel_scope (t : ClassTable) (i : Nat) (ds : List Decl) :
    (Decl.scope k t i ds).HasLevel k := by
  induction ds generalizing t i with
  | nil => nofun
  | cons d ds ih =>
    intro x e he
    rw [Scope.entry?, Decl.scope, Table.lookupIn] at he
    split at he
    · rw [← Option.some.inj he]
    · exact ih _ _ x e he

theorem Binder.hasLevel_scope (bs : List Binder) : (Binder.scope k bs).HasLevel k := by
  intro x e he
  obtain ⟨b, -, hb⟩ := List.mem_map.1 (Table.mem_of_lookupIn he)
  cases hb
  rfl

theorem Levelled.hasLevel {inner outer : List Scope} (h : Levelled (inner ++ s :: outer)) :
    s.HasLevel outer.length := by
  induction inner with
  | nil => exact h.1
  | cons _ inner ih => exact ih h.2

end Entries

/-! ### The members of a class -/

/-- The members that a class declares itself, fields first.  Of two members of one name the
first one counts. -/
def ClassDecl.ownMembers (c : ClassDecl) : List (String × Ty) :=
  c.fields.map (fun b ↦ (b.name, b.ty)) ++ c.methods.map fun f ↦ (f.name, .method f.signature)

/-- Some members have been laid out over those of another class.  Of two declarations of one name
the first one counts. -/
structure ClassLayout.Overlays (l : ClassLayout) (own : List (String × Ty)) (base : MemberTable) :
    Prop where
  /-- Their names are taken. -/
  declared : ∀ x, x ∈ l.declared ↔ x ∈ own.map Prod.fst
  /-- They are in the table. -/
  own : ∀ x ty, Table.lookupIn x own = some ty → ∃ o, l.members.find? x = some ⟨1, ty, o⟩
  /-- All others are inherited. -/
  keeps : l.Keeps base

namespace ClassLayout.Overlays

variable {l l' : ClassLayout} {own : List (String × Ty)} {base : MemberTable}

/-- One more member is laid out, unless its name is taken. -/
theorem add (h : l.Overlays own base) {x : String} {ty : Ty} (hold : x ∈ l.declared → l' = l)
    (hnew : x ∉ l.declared → ∃ o shape, l' = l.place x ⟨1, ty, o⟩ shape) :
    l'.Overlays (own ++ [(x, ty)]) base := by
  have hlookup : ∀ y, Table.lookupIn y (own ++ [(x, ty)])
      = (Table.lookupIn y own).or (if x = y then some ty else none) :=
    fun y ↦ Table.lookupIn_append y _ _
  by_cases hx : x ∈ l.declared
  · obtain rfl := hold hx
    have hmem := (h.declared x).1 hx
    refine ⟨fun y ↦ ?_, fun y ty' hy ↦ ?_, h.keeps⟩
    · rw [h.declared, List.map_append, List.mem_append]
      exact ⟨.inl, fun hy ↦ hy.elim id fun hy ↦ List.mem_singleton.1 hy ▸ hmem⟩
    · rw [hlookup, Option.or_eq_some_iff] at hy
      rcases hy with hy | ⟨hnone, hy⟩
      · exact h.own y ty' hy
      · split at hy
        · rename_i hxy
          rw [← Table.lookupIn_isSome_iff, hxy, hnone] at hmem
          cases hmem
        · cases hy
  · obtain ⟨o, shape, rfl⟩ := hnew hx
    refine ⟨fun y ↦ ?_, fun y ty' hy ↦ ?_, h.keeps.place x _ _⟩
    · simp only [place, List.mem_cons, h.declared, List.map_append, List.mem_append, List.map_cons,
        List.map_nil, List.not_mem_nil, or_false]
      exact or_comm
    · have hnone : Table.lookupIn x own = none :=
        Table.lookupIn_eq_none fun hmem ↦ hx ((h.declared x).2 hmem)
      rw [hlookup] at hy
      simp only [place, Table.find?_insert]
      split
      · rename_i hxy
        subst hxy
        rw [hnone, Option.none_or, if_pos rfl] at hy
        exact ⟨o, by rw [Option.some.inj hy]⟩
      · rename_i hxy
        rw [if_neg hxy, Option.or_none] at hy
        exact h.own y ty' hy

theorem addFields (h : l.Overlays own base) (bs : List Binder) :
    (l.addFields bs).1.Overlays (own ++ bs.map fun b ↦ (b.name, b.ty)) base := by
  induction bs generalizing l own with
  | nil => rwa [List.map_nil, List.append_nil]
  | cons b bs ih =>
    have hadd : (l.addField b).1.Overlays (own ++ [(b.name, b.ty)]) base := by
      refine h.add (fun hold ↦ ?_) fun hnew ↦ ⟨_, _, congrArg Prod.fst (addField_eq hnew)⟩
      rw [addField, if_pos (by simpa using hold)]
    rw [List.map_cons, List.append_cons]
    exact ih hadd

theorem addMethods (h : l.Overlays own base) (fs : List FunDecl) :
    (l.addMethods fs).1.Overlays (own ++ fs.map fun f ↦ (f.name, .method f.signature)) base := by
  induction fs generalizing l own with
  | nil => rwa [List.map_nil, List.append_nil]
  | cons f fs ih =>
    have hadd : (l.addMethod f).1.Overlays (own ++ [(f.name, .method f.signature)]) base := by
      refine h.add (fun hold ↦ ?_) fun hnew ↦ ⟨_, _, congrArg Prod.fst (addMethod_eq hnew)⟩
      rw [addMethod, if_pos (by simpa using hold)]
    rw [List.map_cons, List.append_cons]
    exact ih hadd

/-- **The own members of a class replace those that it inherits.** All others are found as in the
class that it extends. -/
theorem ofDecl (base : ClassInfo) (c : ClassDecl) :
    (ClassLayout.ofDecl base c).1.Overlays c.ownMembers base.members := by
  have hnil : (inherit base).Overlays [] base.members :=
    ⟨fun _ ↦ Iff.rfl, nofun, keeps_inherit base⟩
  exact (hnil.addFields c.fields).addMethods c.methods

end ClassLayout.Overlays

/-- All members of all registered classes are at level 1.  Classes are registered in the global
scope only, and so their members form the next scope. -/
def ClassTable.Levelled (t : ClassTable) : Prop :=
  ∀ x i, t.info? x = some i → Frame.All (fun e ↦ e.level = 1) i.members

namespace ClassTable

variable {t : ClassTable}

theorem levelled_empty : Levelled .empty := nofun

theorem levelled_ofDecl {base : ClassInfo} (h : Frame.All (fun e ↦ e.level = 1) base.members)
    (c : ClassDecl) : Frame.All (fun e ↦ e.level = 1) (ClassLayout.ofDecl base c).1.members :=
  ClassLayout.all_ofDecl h (fun _ _ _ ↦ rfl) fun _ _ _ ↦ rfl

theorem Levelled.declareAll (h : t.Levelled) (cs : List ClassDecl) : (t.declareAll cs).Levelled :=
  fun _ _ hx ↦ forall_info_declareAll (P := fun i ↦ Frame.All (fun e ↦ e.level = 1) i.members)
    (Frame.all_empty _) (fun c _ _ hbase ↦ levelled_ofDecl hbase c) h hx

theorem Levelled.layout (h : t.Levelled) (c : ClassDecl) :
    Scope.HasLevel (t.layout c).members.entries 1 :=
  levelled_ofDecl (forall_base (P := fun i ↦ Frame.All (fun e ↦ e.level = 1) i.members)
    (Frame.all_empty _) h c) c

end ClassTable

/-! ## What name analysis has in scope -/

/-- A frame has the entries of a scope. -/
def Frame.Shows (frame : Frame) (s : Scope) : Prop := ∀ x, frame.find? x = Scope.entry? s x

namespace Frame.Shows

variable {frame : Frame} {s : Scope} {x : String}

/-- A new name is entered, and all others are found as before. -/
theorem insert (h : frame.Shows s) (hnew : frame.find? x = none) (e : Entry) :
    Frame.Shows (frame.insert x e) (s ++ [(x, e)]) := by
  intro y
  rw [Table.find?_insert, Scope.entry?_append, ← h y]
  split
  · rename_i hxy
    rw [← hxy, hnew, Option.none_or]
    exact (if_pos rfl).symm
  · rename_i hxy
    exact (Option.or_none.symm.trans (by rw [Scope.entry?, Table.lookupIn, if_neg hxy]; rfl))

/-- A name that is there already stays as it is. -/
theorem skip (h : frame.Shows s) {d : Entry} (hold : frame.find? x = some d) (e : Entry) :
    frame.Shows (s ++ [(x, e)]) := by
  intro y
  rw [Scope.entry?_append, ← h y]
  cases hy : frame.find? y with
  | some d' => rfl
  | none =>
    have hxy : x ≠ y := fun hxy ↦ Option.some_ne_none d (hold.symm.trans (hxy ▸ hy))
    rw [Scope.entry?, Table.lookupIn, if_neg hxy]
    rfl

end Frame.Shows

/-- An environment has the given scopes, registered classes, and number of declarations in its
innermost scope. -/
structure Env.Sees (env : Env) (t : ClassTable) (i : Nat) (scopes : List Scope) : Prop where
  /-- The frames have the entries of the scopes. -/
  frames : List.Forall₂ Frame.Shows env.scopes.frames scopes
  /-- These are the classes. -/
  classes : env.classes = t
  /-- The next declaration goes to this place. -/
  nextOffset : env.nextOffset = -(i : Int) - 2

namespace Env.Sees

variable {env : Env} {t : ClassTable} {i : Nat} {s : Scope} {scopes outer : List Scope}

theorem start : Sees ⟨.push .empty ∅, .empty, firstDeclOffset⟩ .empty 0 [[]] :=
  ⟨.cons (fun _ ↦ rfl) .nil, rfl, rfl⟩

theorem level_eq (h : env.Sees t i (s :: outer)) : env.level = outer.length := by
  rw [Env.level, Scopes.nestingLevel, h.frames.length_eq]
  rfl

theorem declare (h : env.Sees t i (s :: outer)) (site : Site) (x : String) (e : Entry) :
    (env.declare site x e).1.Sees t i ((s ++ [(x, e)]) :: outer) := by
  obtain ⟨⟨frames⟩, classes, offset⟩ := env
  obtain ⟨hframes, hclasses, hoffset⟩ := h
  cases hframes with
  | @cons frame _ rest _ hframe hrest =>
    simp only [Env.declare, Scopes.declare?]
    by_cases hx : frame.contains x = true
    · obtain ⟨d, hd⟩ := Option.isSome_iff_exists.1 hx
      rw [if_pos hx]
      exact ⟨.cons (hframe.skip hd e) hrest, hclasses, hoffset⟩
    · rw [if_neg hx]
      have hnew := Option.not_isSome_iff_eq_none.1 hx
      exact ⟨.cons (hframe.insert hnew e) hrest, hclasses, hoffset⟩

theorem declareNext (h : env.Sees t i (s :: outer)) (site : Site) (x : String) (ty : Ty) :
    (env.declareNext site x ty).1.Sees t (i + 1)
      ((s ++ [(x, ⟨outer.length, ty, -(i : Int) - 2⟩)]) :: outer) := by
  have hnext : Sees { env with nextOffset := env.nextOffset - 1 } t (i + 1) (s :: outer) :=
    ⟨h.frames, h.classes, by simp only [h.nextOffset]; omega⟩
  rw [Env.declareNext, h.level_eq, ← h.nextOffset]
  exact hnext.declare site x _

theorem declareParams (h : env.Sees t i (s :: outer)) (k : Nat) (bs : List Binder) :
    (env.declareParams ((k : Int) + 1) bs).1.Sees t i
      ((s ++ (bs.zipIdx k).map fun b ↦ (b.1.name, ⟨outer.length, b.1.ty, (b.2 : Int) + 1⟩))
        :: outer) := by
  induction bs generalizing env s k with
  | nil =>
    rw [List.zipIdx_nil, List.map_nil, List.append_nil]
    exact h
  | cons b bs ih =>
    have hdeclare := ih (h.declare b.site b.name ⟨env.level, b.ty, (k : Int) + 1⟩) (k + 1)
    rw [h.level_eq, List.append_assoc] at hdeclare
    rw [Env.declareParams, h.level_eq]
    exact_mod_cast hdeclare

theorem enter (h : env.Sees t i scopes) : env.enter.Sees t 0 ([] :: scopes) :=
  ⟨.cons (fun _ ↦ rfl) h.frames, h.classes, rfl⟩

/-- The scope of a function starts with its parameters. -/
theorem enterFunction (h : env.Sees t i scopes) (f : FunDecl) :
    (env.enter.declareParams firstParamOffset f.params).1.Sees t 0
      (Binder.scope scopes.length f.params :: scopes) :=
  h.enter.declareParams 0 f.params

/-- A global class is declared like anything else, and registered. -/
theorem classHead (h : env.Sees t i [s]) (c : ClassDecl) :
    (env.classHead c).1.Sees (t.declare c) (i + 1)
      [s ++ [(c.name, ⟨0, .cls (t.layout c).shape, -(i : Int) - 2⟩)]] := by
  have hlevel : env.level = 0 := h.level_eq
  have hregistered : (env.register c.name (c.superclass.filter env.classes.contains)
      (env.classes.layout c)).Sees (t.declare c) i [s] := by
    rw [Env.register_eq, ← h.classes]
    exact ⟨h.frames, rfl, h.nextOffset⟩
  rw [Env.classHead_fst, Env.declareClass, if_pos hlevel, ← h.classes]
  exact h.classes ▸ hregistered.declareNext c.site c.name _

/-- The members of a class are a scope around its methods. -/
theorem classInside (h : env.Sees t i [s]) (c : ClassDecl) :
    (env.classHead c).2.1.Sees (t.declare c) (i + 1) [(t.layout c).members.entries,
      s ++ [(c.name, ⟨0, .cls (t.layout c).shape, -(i : Int) - 2⟩)]] := by
  have hhead := h.classHead c
  rw [Env.classHead_inside, ← h.classes] at *
  exact ⟨.cons (fun _ ↦ rfl) hhead.frames, hhead.classes, hhead.nextOffset⟩

/-- **A declaration adds its name to the scope**, with the next offset, and nothing
else changes there. -/
theorem resolve (h : env.Sees t i (s :: outer)) {d : Decl} (hd : outer ≠ [] → d.ClassFree) :
    (d.resolve env).1.Sees (t.declareAll d.classes) (i + 1)
      ((s ++ [(d.name, ⟨outer.length, d.declaredTy t, -(i : Int) - 2⟩)]) :: outer) := by
  cases d with
  | var site x ty e => exact h.declareNext site x ty
  | func f => exact h.declareNext f.site f.name _
  | cls c =>
    cases outer with
    | nil =>
      rw [Decl.resolve, ClassDecl.resolve_eq]
      exact h.classHead c
    | cons s' outer => cases hd (List.cons_ne_nil _ _)

theorem resolveAll (h : env.Sees t i (s :: outer)) {ds : List Decl}
    (hds : outer ≠ [] → ∀ d ∈ ds, d.ClassFree) :
    (Decl.resolveAll env ds).1.Sees (t.declareAll (ds.flatMap Decl.classes)) (i + ds.length)
      ((s ++ Decl.scope outer.length t i ds) :: outer) := by
  induction ds generalizing env t i s with
  | nil =>
    rw [Decl.scope, List.append_nil]
    exact h
  | cons d ds ih =>
    have hrest := ih (h.resolve fun hne ↦ hds hne d List.mem_cons_self)
      fun hne d hd ↦ hds hne d (List.mem_cons_of_mem _ hd)
    rw [List.append_assoc, Nat.add_right_comm] at hrest
    rw [List.flatMap_cons, ClassTable.declareAll_append]
    exact hrest

end Env.Sees

/-! ## The scopes around a visit -/

section Around

variable {t : ClassTable} {outer scopes : List Scope} {head : Scope} {ds : List Decl}
  {body e : Expr} {f : FunDecl}

theorem Decl.ClassFree.inside {d : Decl} (h : d.ClassFree) : d.ClassFreeInside := by
  cases h with
  | var => trivial
  | func f h => exact h

/-- Classes are where a block may have them: none inside of functions, and none at all unless the
block is the global one. -/
structure ClassesPlaced (outer : List Scope) (ds : List Decl) : Prop where
  /-- There are none inside of functions. -/
  inside : ∀ d ∈ ds, d.ClassFreeInside
  /-- There are none among the declarations of a function. -/
  here : outer ≠ [] → ∀ d ∈ ds, d.ClassFree

namespace ClassesPlaced

theorem of_classFree (h : ∀ d ∈ ds, d.ClassFree) : ClassesPlaced outer ds :=
  ⟨fun d hd ↦ (h d hd).inside, fun _ ↦ h⟩

theorem mono (h : ClassesPlaced outer ds) {es : List Decl} (hsub : es ⊆ ds) :
    ClassesPlaced outer es :=
  ⟨fun d hd ↦ h.inside d (hsub hd), fun hne d hd ↦ h.here hne d (hsub hd)⟩

end ClassesPlaced

/-- **Name analysis goes through every expression in the scopes that enclose it.** These are built
from the tree alone, and the environment shows the same. -/
theorem Encloses.visits (h : Encloses t outer head ds body scopes e) {env : Env}
    (hsees : env.Sees t 0 (head :: outer)) (hplaced : ClassesPlaced outer ds) :
    ∃ env', (env', e) ∈ Decl.visitsAll env ds ++ [((Decl.resolveAll env ds).1, body)] ∧
      List.Forall₂ Frame.Shows env'.scopes.frames scopes := by
  -- what comes before a declaration is gone through first
  have before : ∀ {outer head before d after}, ClassesPlaced outer (before ++ d :: after) →
      ∀ {env t}, env.Sees t 0 (head :: outer) → (Decl.resolveAll env before).1.Sees
        (t.declareAll (before.flatMap Decl.classes)) (0 + before.length)
        ((head ++ Decl.scope outer.length t 0 before) :: outer) :=
    fun hplaced _ _ hsees ↦ hsees.resolveAll (hplaced.mono (List.subset_append_left _ _)).here
  induction h generalizing env with
  | body =>
    exact ⟨_, List.mem_append_right _ (List.mem_singleton_self _),
      (hsees.resolveAll hplaced.here).frames⟩
  | init =>
    exact ⟨_, List.mem_append_left _ (Decl.mem_visitsAll (List.mem_singleton_self _)),
      (before hplaced hsees).frames⟩
  | @func t outer head ds after f body e scopes h ih =>
    have hf := hplaced.inside (.func f) (by simp)
    have hhere := (before hplaced hsees).declareNext f.site f.name (.arrow f.signature)
    rw [Decl.scope_concat, ← List.append_assoc] at ih
    obtain ⟨env', hmem, hframes⟩ := ih (hhere.enterFunction f) (.of_classFree hf)
    refine ⟨env', List.mem_append_left _ (Decl.mem_visitsAll ?_), hframes⟩
    rw [Decl.visits, FunDecl.visits_eq]
    exact hmem
  | @method t head ds after c f body e scopes hf h ih =>
    have hc := hplaced.inside (.cls c) (by simp)
    have hinside := (before hplaced hsees).classInside c
    rw [Decl.scope_concat, ← List.append_assoc] at ih
    obtain ⟨env', hmem, hframes⟩ := ih (hinside.enterFunction f) (.of_classFree (hc f hf))
    refine ⟨env', List.mem_append_left _ (Decl.mem_visitsAll ?_), hframes⟩
    rw [Decl.visits, ClassDecl.visits_eq, List.mem_flatMap]
    exact ⟨f, hf, by rw [FunDecl.visits_eq]; exact hmem⟩

/-- The entries of the scopes around an expression are at the levels of these scopes. -/
theorem Encloses.levelled (h : Encloses t outer head ds body scopes e) (ht : t.Levelled)
    (hscopes : Levelled (head :: outer)) : Levelled scopes := by
  -- a block stays as it is when declarations are added
  have add : ∀ {t outer head} (ds : List Decl), Levelled (head :: outer) →
      Levelled ((head ++ Decl.scope outer.length t 0 ds) :: outer) :=
    fun ds h ↦ ⟨h.1.append (Decl.hasLevel_scope _ _ ds), h.2⟩
  induction h with
  | body => exact add _ hscopes
  | init => exact add _ hscopes
  | @func t outer head before after f body e scopes h ih =>
    exact ih (ht.declareAll _) ⟨Binder.hasLevel_scope _, add _ hscopes⟩
  | @method t head before after c f body e scopes hf h ih =>
    have hbefore := ht.declareAll (before.flatMap Decl.classes)
    exact ih (hbefore.declareAll [c]) ⟨Binder.hasLevel_scope _, hbefore.layout c, add _ hscopes⟩

/-! ### Every expression is enclosed -/

/-- Wherever a declaration may stand, there are scopes around all that is in it. -/
def Decl.Enclosed (d : Decl) : Prop :=
  ∀ t outer head before after body, ClassesPlaced outer [d] → ∀ e ∈ d.roots,
    ∃ scopes, Encloses t outer head (before ++ d :: after) body scopes e

theorem Decl.enclosed_all (ih : ∀ d ∈ ds, d.Enclosed) (hplaced : ClassesPlaced outer ds)
    (t : ClassTable) (head : Scope) (body : Expr) :
    ∀ e ∈ ds.flatMap Decl.roots ++ [body], ∃ scopes, Encloses t outer head ds body scopes e := by
  intro e he
  rw [List.mem_append, List.mem_flatMap, List.mem_singleton] at he
  rcases he with ⟨d, hd, he⟩ | rfl
  · obtain ⟨before, after, hds⟩ := List.append_of_mem hd
    have hd' : ClassesPlaced outer [d] := hplaced.mono (by simpa using hd)
    exact hds ▸ ih d hd t outer head before after body hd' e he
  · exact ⟨_, .body⟩

theorem Decl.enclosed (d : Decl) : d.Enclosed := by
  induction d using Decl.induction with
  | var site x ty e =>
    intro t outer head before after body _ e' he
    rw [Decl.roots, List.mem_singleton] at he
    exact he ▸ ⟨_, .init⟩
  | func f ih =>
    intro t outer head before after body hplaced e he
    have hf : ∀ d ∈ f.locals, d.ClassFree := hplaced.inside _ (List.mem_singleton_self _)
    rw [Decl.roots, FunDecl.roots_eq] at he
    obtain ⟨scopes, h⟩ := Decl.enclosed_all ih (.of_classFree hf) _ _ _ e he
    exact ⟨scopes, .func h⟩
  | cls c ih =>
    intro t outer head before after body hplaced e he
    cases outer with
    | nil =>
      rw [Decl.roots, ClassDecl.roots_eq, List.mem_flatMap] at he
      obtain ⟨f, hf, he⟩ := he
      have hfree : ∀ d ∈ f.locals, d.ClassFree :=
        hplaced.inside _ (List.mem_singleton_self _) f hf
      rw [FunDecl.roots_eq] at he
      obtain ⟨scopes, h⟩ := Decl.enclosed_all (ih f hf) (.of_classFree hfree) _ _ _ e he
      exact ⟨scopes, .method hf h⟩
    | cons s outer => cases hplaced.here (List.cons_ne_nil _ _) _ (List.mem_singleton_self _)

end Around

/-! ## Names -/

/-- The name that an expression refers to, which for the access to a member is that of the
object. -/
def Expr.subject? : Expr → Option String
  | .ident _ x | .call _ x _ | .field _ x _ | .invoke _ x _ _ => some x
  | _ => none

/-- What is recorded for a name used at a node is what the scopes say that enclose it. -/
structure Context.ResolvesIn (ctx : Context) (n : NodeId) (x : String) (scopes : List Scope) :
    Prop where
  /-- The name is resolved if one of the scopes has it. -/
  bound : (∃ r, ctx.resolutions.find? n = some r) ↔ ∃ s ∈ scopes, ∃ e, Scope.entry? s x = some e
  /-- It is resolved to its first declaration in the innermost of the scopes that have it.  The
  levels count the scopes around this scope and around that of the use, and there are as many hops
  as scopes between them. -/
  innermost : ∀ inner s outer e, scopes = inner ++ s :: outer →
    (∀ s' ∈ inner, Scope.entry? s' x = none) → Scope.entry? s x = some e →
    ∃ r, ctx.resolutions.find? n = some r ∧ r.entry = e ∧ r.entry.level = outer.length ∧
      r.useLevel = inner.length + outer.length ∧ r.entry.level ≤ r.useLevel ∧
      r.hops = inner.length

section Names

variable {env : Env} {scopes : List Scope} {x : String} {u : Expr}

theorem Scopes.lookup?_eq {s : Scopes} (h : List.Forall₂ Frame.Shows s.frames scopes)
    (x : String) : s.lookup? x = scopes.findSome? (Scope.entry? · x) := by
  obtain ⟨frames⟩ := s
  simp only [Scopes.lookup?] at h ⊢
  induction h with
  | nil => rfl
  | cons hframe _ ih => rw [List.findSome?_cons, List.findSome?_cons, hframe x, ih]

/-- What is found for a name at a node is its entry, and the level of the node. -/
theorem Expr.use_mem_own (hx : u.subject? = some x) {r : Resolution} :
    .use u.site.id r ∈ u.own env ↔ ∃ e, env.scopes.lookup? x = some e ∧ r = ⟨e, env.level⟩ := by
  have huse : ∀ site : Site, .use site.id r ∈ env.useName site x ↔
      ∃ e, env.scopes.lookup? x = some e ∧ r = ⟨e, env.level⟩ := by
    intro site
    rw [Env.useName]
    cases env.scopes.lookup? x <;> simp [errorAt]
  have hmember : ∀ (site : Site) (m : String), .use site.id r ∈ env.useMember site x m ↔
      .use site.id r ∈ env.useName site x := by
    intro site m
    rw [Env.useMember, List.mem_append, or_iff_left]
    split
    · split <;> simp [errorAt]
    · exact List.not_mem_nil
  cases u with
  | ident site y | call site y args => cases hx; exact huse site
  | field site y m | invoke site y m args => cases hx; exact (hmember site m).trans (huse site)
  | _ => cases hx

/-- In a fresh context exactly that is noted which is found. -/
theorem Program.noted_iff {p : Program} (hids : p.ids.Nodup) {f : Finding} {k : Slot × NodeId}
    (hk : f.slot? = some k) : f.Noted p.resolved ↔ f ∈ (p.resolve .empty).2 := by
  refine ⟨fun h ↦ h.of_addFindings.resolve_left fun hfresh ↦ ?_,
    fun h ↦ noted_addFindings (nodup_slots_resolve _ hids) h hk⟩
  cases f <;> cases hfresh

/-- In a fresh context exactly those resolutions are recorded that are found. -/
theorem Program.resolution_iff {p : Program} (hids : p.ids.Nodup) {n : NodeId} {r : Resolution} :
    p.resolved.resolutions.find? n = some r ↔ .use n r ∈ (p.resolve .empty).2 :=
  Program.noted_iff (f := .use n r) hids rfl

/-- **A name is resolved to what the scopes say in which name analysis goes through it**, or
reported if they do not have it. -/
theorem Program.resolvesIn {p : Program} (hids : p.ids.Nodup) {e : Expr}
    (hv : (env, e) ∈ p.visits .empty) (hframes : List.Forall₂ Frame.Shows env.scopes.frames scopes)
    (hlevels : Levelled scopes) (hu : u ∈ e.nodes) (hx : u.subject? = some x) :
    p.resolved.ResolvesIn u.site.id x scopes := by
  have hfind : ∀ r, p.resolved.resolutions.find? u.site.id = some r ↔
      ∃ e, scopes.findSome? (Scope.entry? · x) = some e ∧ r = ⟨e, scopes.length - 1⟩ := by
    intro r
    rw [Program.resolution_iff hids, Program.mem_resolve_iff hids hv hu rfl rfl,
      Expr.use_mem_own hx, Scopes.lookup?_eq hframes, Env.level, Scopes.nestingLevel,
      hframes.length_eq]
  refine ⟨⟨fun hr ↦ ?_, fun hs ↦ ?_⟩, ?_⟩
  · obtain ⟨r, hr⟩ := hr
    obtain ⟨e, he, -⟩ := (hfind r).1 hr
    obtain ⟨s, hs, he⟩ := List.exists_of_findSome?_eq_some he
    exact ⟨s, hs, e, he⟩
  · obtain ⟨s, hs, e, he⟩ := hs
    cases hsome : scopes.findSome? (Scope.entry? · x) with
    | none => cases he.symm.trans (List.findSome?_eq_none_iff.1 hsome s hs)
    | some e => exact ⟨_, (hfind _).2 ⟨e, hsome, rfl⟩⟩
  · rintro inner s outer e rfl hinner he
    have hlevel := hlevels.hasLevel x e he
    have hsome : (inner ++ s :: outer).findSome? (Scope.entry? · x) = some e := by
      rw [List.findSome?_append, List.findSome?_eq_none_iff.2 hinner, List.findSome?_cons, he]
      rfl
    have huse : (inner ++ s :: outer).length - 1 = inner.length + outer.length := by
      simp only [List.length_append, List.length_cons]
      omega
    refine ⟨_, (hfind _).2 ⟨e, hsome, rfl⟩, rfl, hlevel, huse, ?_, ?_⟩
    · simp only [hlevel, huse]
      omega
    · simp only [Resolution.hops, hlevel, huse]
      omega

end Names

/-- **Names are resolved statically.**  In a program that declares its classes globally there are
scopes around every expression.  The name that an expression refers to is resolved if one of them
has it, and then to its first declaration in the innermost scope that has it, at the level of this
scope.  Among the members of a class those that it declares itself replace inherited ones. -/
theorem Toolchain.resolves_statically {t : Toolchain} {line : Nat} {ds : List Decl} {body : Expr}
    (hids : (Program.letIn line ds body).ids.Nodup)
    (hclasses : (Program.letIn line ds body).ClassesGlobal) :
    (∀ u ∈ (Program.letIn line ds body).nodes,
      ∃ scopes, (Program.letIn line ds body).Encloses scopes u) ∧
    (∀ u scopes x, (Program.letIn line ds body).Encloses scopes u → u.subject? = some x →
      (t.analyze (.letIn line ds body)).context.ResolvesIn u.site.id x scopes) ∧
    ∀ (classes : ClassTable) (c : ClassDecl) (x : String),
      (∀ ty, Table.lookupIn x c.ownMembers = some ty →
        ∃ o, (classes.layout c).members.find? x = some ⟨1, ty, o⟩) ∧
      (Table.lookupIn x c.ownMembers = none →
        (classes.layout c).members.find? x = (classes.base c).members.find? x) := by
  have hplaced : ClassesPlaced [] ds := ⟨hclasses, fun hne ↦ absurd rfl hne⟩
  refine ⟨fun u hu ↦ ?_, fun u scopes x hu hx ↦ ?_, fun classes c x ↦ ?_⟩
  · obtain ⟨e, he, hu⟩ := List.mem_flatMap.1 hu
    obtain ⟨scopes, h⟩ := Decl.enclosed_all (fun d _ ↦ d.enclosed) hplaced .empty [] body e he
    exact ⟨scopes, e, h, hu⟩
  · obtain ⟨e, he, hu⟩ := hu
    obtain ⟨env, hv, hframes⟩ := he.visits .start hplaced
    have hlevels := he.levelled ClassTable.levelled_empty ⟨nofun, trivial⟩
    have hresolves := Program.resolvesIn hids hv hframes hlevels hu hx
    have hknows : (t.analyze (.letIn line ds body)).context.resolutions
        = (Program.letIn line ds body).resolved.resolutions :=
      (t.knows (.letIn line ds body)).resolutions
    exact ⟨hknows ▸ hresolves.bound, hknows ▸ hresolves.innermost⟩
  · have hown := ClassLayout.Overlays.ofDecl (classes.base c) c
    refine ⟨hown.own x, fun hnone ↦ hown.keeps x fun hmem ↦ ?_⟩
    rw [hown.declared, ← Table.lookupIn_isSome_iff, hnone] at hmem
    cases hmem

namespace Hiding

/-- A class with a field `x`. -/
def a : ClassDecl := ⟨⟨3, 2⟩, "A", none, [⟨⟨2, 2⟩, "x", .int⟩], []⟩

/-- A function that adds its parameter `y` and whatever `x` is. -/
def g : FunDecl := ⟨⟨8, 3⟩, "g", .int, [⟨⟨4, 3⟩, "y", .int⟩], [],
  .arith ⟨7, 3⟩ .add (.ident ⟨5, 3⟩ "x") (.ident ⟨6, 3⟩ "y")⟩

/-- A method with that function inside. -/
def n : FunDecl := ⟨⟨11, 3⟩, "n", .int, [], [.func g], .call ⟨10, 3⟩ "g" [.int ⟨9, 3⟩ 1]⟩

/-- A class that inherits the field `x` and has that method. -/
def b : ClassDecl := ⟨⟨12, 3⟩, "B", some "A", [], [n]⟩

/-- A program with these classes and a global variable `x`. -/
def program : Program :=
  .letIn 1 [.var ⟨1, 1⟩ "x" .bool (.bool ⟨0, 1⟩ true), .cls a, .cls b] (.ident ⟨13, 4⟩ "x")

/-- In the function, which is enclosed by four scopes, `x` is the field: it is two scopes away, and
hides the global variable. -/
theorem program_resolves : program.ids.Nodup ∧ program.ClassesGlobal ∧
    (∃ scopes, program.Encloses scopes (.ident ⟨5, 3⟩ "x") ∧ scopes.length = 4) ∧
    ∃ r, (({} : Toolchain).analyze program).context.resolutions.find? 5 = some r ∧
      r.entry = ⟨1, .int, -1⟩ ∧ r.useLevel = 3 ∧ r.hops = 2 := by
  have hids : program.ids.Nodup := by decide
  have hclasses : program.ClassesGlobal := by
    intro d hd
    simp only [program, Program.decls, List.mem_cons, List.not_mem_nil, or_false] at hd
    rcases hd with rfl | rfl | rfl
    · trivial
    · exact fun f hf ↦ absurd hf List.not_mem_nil
    · intro f hf d hd
      obtain rfl := List.mem_singleton.1 hf
      obtain rfl := List.mem_singleton.1 hd
      exact .func g fun d hd ↦ absurd hd List.not_mem_nil
  have henclosed : program.Encloses _ (.ident ⟨5, 3⟩ "x") :=
    ⟨g.body, @Encloses.method .empty [] [.var ⟨1, 1⟩ "x" .bool (.bool ⟨0, 1⟩ true), .cls a] []
      b n program.body g.body _ (List.mem_singleton_self _)
      (@Encloses.func _ _ _ [] [] g n.body g.body _ .body), by simp [Expr.nodes, g, Expr.inner]⟩
  obtain ⟨r, hr, hentry, -, huse, -, hhops⟩ :=
    (Toolchain.resolves_statically (t := {}) hids hclasses).2.1 _ _ "x" henclosed rfl |>.innermost
      [_, _] _ [_] ⟨1, .int, -1⟩ rfl (by decide) (by decide)
  exact ⟨hids, hclasses, ⟨_, henclosed, rfl⟩, r, hr, hentry, huse, hhops⟩

end Hiding

end ObjectLet
