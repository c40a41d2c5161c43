import ObjectLet.Proofs.Evaluation
import ObjectLet.Proofs.Findings
import ObjectLet.Typing

/-!
# The layout of classes

The members that a class has in the end can be computed from the declarations alone, without tables:
`membersOf` starts with what the superclass has and binds the class's own members over it, one after
the other.  The same recursion serves for the types of fields, the signatures of methods and the
entries of dispatch tables.

* `Laid info fields methods` says that the offsets in the table of a class are the positions in two
  such lists.
* `Laid.addField` and `Laid.addMethod` show that laying out one more member keeps this up, under the
  two conditions that matter: a field replaces a field only, and a method replaces a member only
  that has a place in the dispatch table.
* `Classes ctx table cs` relates the registered classes to their declarations, newest first.
* `Classes.laid`: **every registered class is laid out as its declaration says**.
* `Classes.inherits`: **a class has every member of its superclass at the same offset, and of a type
  that fits**.

The second condition of `Laid.addMethod` is not one that the analyses check.  A field whose type is
that of a method looks like a method to the layout of a class that overrides it, which then puts the
method at the offset of the field.  `ClassDecl.Dispatched` rules this out.
-/

set_option autoImplicit false

namespace ObjectLet

open Table (insertIn insertAll lookupIn)

/-! ## Members from declarations -/

section MembersOf

variable {α : Type}

/-- The members of a class with what is attached to them, given what each class attaches to its own
members and the classes declared so far, newest first. -/
def membersOf (own : ClassDecl → List (String × α)) : List ClassDecl → String → List (String × α)
  | [], _ => []
  | c :: older, name =>
    if c.name = name then
      insertAll (own c) (match c.superclass with
        | some s => membersOf own older s
        | none => [])
    else membersOf own older name

/-- What a class inherits, with what is attached to it.  There is nothing if its superclass is not
among the classes before it. -/
def inheritedOf (own : ClassDecl → List (String × α)) (older : List ClassDecl) (c : ClassDecl) :
    List (String × α) :=
  match c.superclass with
  | some s => membersOf own older s
  | none => []

theorem membersOf_cons (own : ClassDecl → List (String × α)) (c : ClassDecl)
    (older : List ClassDecl) (name : String) :
    membersOf own (c :: older) name =
      if c.name = name then insertAll (own c) (inheritedOf own older c)
      else membersOf own older name := rfl

/-- The names that `membersOf` finds are the names of the members. -/
theorem map_fst_membersOf {own : ClassDecl → List (String × α)} {cs : List ClassDecl}
    (h : ∀ c ∈ cs, ((own c).map Prod.fst).Nodup) (name : String) :
    (membersOf own cs name).map Prod.fst
      = memberNames (fun c ↦ (own c).map Prod.fst) cs name := by
  induction cs generalizing name with
  | nil => rfl
  | cons c older ih =>
    have hc := h c List.mem_cons_self
    have hold : ∀ c ∈ older, ((own c).map Prod.fst).Nodup :=
      fun d hd ↦ h d (List.mem_cons_of_mem _ hd)
    rw [membersOf_cons, memberNames]
    split
    · rw [Table.map_fst_insertAll hc, inheritedOf]
      cases c.superclass with
      | none => rfl
      | some s => simp only [ih hold s]
    · exact ih hold name

end MembersOf

/-- The fields that a class declares itself, with their types. -/
def ClassDecl.ownFields (c : ClassDecl) : List (String × Ty) := c.fields.map fun b ↦ (b.name, b.ty)

/-- The methods that a class declares itself, with their signatures. -/
def ClassDecl.ownMethods (c : ClassDecl) : List (String × Signature) :=
  c.methods.map fun f ↦ (f.name, f.signature)

theorem ClassDecl.map_fst_ownFields (c : ClassDecl) : c.ownFields.map Prod.fst = c.fieldNames := by
  simp [ownFields, fieldNames, Function.comp_def]

theorem ClassDecl.map_fst_ownMethods (c : ClassDecl) :
    c.ownMethods.map Prod.fst = c.methodNames := by
  simp [ownMethods, methodNames, Function.comp_def]

/-! ## Offsets are positions -/

/-- The position of a key in a list of bindings; the length of the list if it is not there. -/
def position {α : Type} (x : String) (l : List (String × α)) : Nat := (l.map Prod.fst).idxOf x

/-- How a field is entered in the table of its class: below the object, in the order in which the
fields are listed. -/
def fieldEntry (fields : List (String × Ty)) (x : String) : Option Entry :=
  (lookupIn x fields).map fun ty ↦ ⟨1, ty, -(position x fields : Int) - 1⟩

/-- How a method is entered in the table of its class: by its place in the list of methods, which is
its place in the dispatch table. -/
def methodEntry (methods : List (String × Signature)) (x : String) : Option Entry :=
  (lookupIn x methods).map fun s ↦ ⟨1, .method s, position x methods⟩

/-- What is known about a class is what two lists of members amount to.  Offsets and shapes need not
be looked at any more where this is known. -/
structure Laid (info : ClassInfo) (fields : List (String × Ty))
    (methods : List (String × Signature)) : Prop where
  /-- The shape lists the types of the fields. -/
  shape_fields : info.shape.fields = fields.map Prod.snd
  /-- The shape lists the signatures of the methods. -/
  shape_methods : info.shape.methods = methods.map Prod.snd
  /-- The table has an entry for each field and each method, and no other. -/
  find : ∀ x, info.members.find? x = (fieldEntry fields x).or (methodEntry methods x)
  /-- No name is that of a field and of a method. -/
  disjoint : ∀ x ∈ fields.map Prod.fst, x ∉ methods.map Prod.fst

theorem laid_empty : Laid ⟨∅, .empty⟩ [] [] :=
  ⟨rfl, rfl, fun _ ↦ rfl, nofun⟩

namespace Laid

variable {info : ClassInfo} {fields : List (String × Ty)} {methods : List (String × Signature)}
  {x : String} {e : Entry}

/-- What is entered below the object is a field. -/
theorem of_offset_neg (h : Laid info fields methods) (he : info.members.find? x = some e)
    (hneg : e.offset < 0) :
    lookupIn x fields = some e.ty ∧ e = ⟨1, e.ty, -(position x fields : Int) - 1⟩ := by
  rw [h.find] at he
  cases hf : lookupIn x fields with
  | some ty =>
    simp only [fieldEntry, hf, Option.map_some, Option.some_or, Option.some.injEq] at he
    rw [← he]
    exact ⟨rfl, rfl⟩
  | none =>
    simp only [fieldEntry, hf, Option.map_none, Option.none_or, methodEntry,
      Option.map_eq_some_iff] at he
    obtain ⟨s, -, rfl⟩ := he
    exact absurd hneg (by simp)

/-- What is entered in the dispatch table is a method. -/
theorem of_offset_nonneg (h : Laid info fields methods) (he : info.members.find? x = some e)
    (hnonneg : 0 ≤ e.offset) :
    ∃ s, lookupIn x methods = some s ∧ e = ⟨1, .method s, position x methods⟩ := by
  rw [h.find] at he
  cases hf : lookupIn x fields with
  | some ty =>
    simp only [fieldEntry, hf, Option.map_some, Option.some_or, Option.some.injEq] at he
    rw [← he] at hnonneg
    exact absurd hnonneg (by simp only; omega)
  | none =>
    simp only [fieldEntry, hf, Option.map_none, Option.none_or, methodEntry,
      Option.map_eq_some_iff] at he
    obtain ⟨s, hs, rfl⟩ := he
    exact ⟨s, hs, rfl⟩

theorem find_field (h : Laid info fields methods) {ty : Ty} (hx : lookupIn x fields = some ty) :
    info.members.find? x = some ⟨1, ty, -(position x fields : Int) - 1⟩ := by
  rw [h.find, fieldEntry, hx]
  rfl

theorem find_method (h : Laid info fields methods) {s : Signature}
    (hx : lookupIn x methods = some s) :
    info.members.find? x = some ⟨1, .method s, position x methods⟩ := by
  have hf : lookupIn x fields = none := Table.lookupIn_eq_none fun hmem ↦
    h.disjoint x hmem (Table.mem_keys_of_lookupIn hx)
  rw [h.find, fieldEntry, methodEntry, hf, hx]
  rfl

/-- A name that is not in the table is that of no member. -/
theorem find_eq_none (h : Laid info fields methods) (hx : info.members.find? x = none) :
    x ∉ fields.map Prod.fst ∧ x ∉ methods.map Prod.fst := by
  constructor
  · intro hmem
    obtain ⟨ty, hty⟩ := Option.isSome_iff_exists.1 (Table.lookupIn_isSome_iff.2 hmem)
    rw [h.find_field hty] at hx
    cases hx
  · intro hmem
    obtain ⟨s, hs⟩ := Option.isSome_iff_exists.1 (Table.lookupIn_isSome_iff.2 hmem)
    rw [h.find_method hs] at hx
    cases hx

end Laid

/-! ### Writing a binding moves no other -/

section Position

variable {α : Type} {x y : String} {v : α} {l : List (String × α)}

theorem position_eq_length (h : x ∉ l.map Prod.fst) : position x l = l.length := by
  rw [position, List.idxOf_eq_length h, List.length_map]

theorem position_lt_length (h : x ∈ l.map Prod.fst) : position x l < l.length := by
  simpa [position] using List.idxOf_lt_length_iff.2 h

theorem position_insertIn_of_mem (h : y ∈ l.map Prod.fst) :
    position y (insertIn x v l) = position y l := by
  rw [position, position]
  by_cases hx : x ∈ l.map Prod.fst
  · rw [Table.map_fst_insertIn_of_mem hx]
  · rw [Table.insertIn_of_not_mem hx, List.map_append, List.idxOf_append_of_mem h]

theorem position_insertIn_self : position x (insertIn x v l) = position x l := by
  by_cases hx : x ∈ l.map Prod.fst
  · exact position_insertIn_of_mem hx
  · rw [position, position, Table.insertIn_of_not_mem hx, List.map_append,
      List.idxOf_append_of_notMem hx, List.idxOf_eq_length hx]
    simp

theorem position_insertAll_of_mem {ps : List (String × α)} (h : y ∈ l.map Prod.fst) :
    position y (insertAll ps l) = position y l := by
  induction ps generalizing l with
  | nil => rfl
  | cons p ps ih =>
    rw [Table.insertAll_cons, ih, position_insertIn_of_mem h]
    exact Table.mem_keys_insertIn.2 (.inr h)

end Position

theorem fieldEntry_insertIn {fields : List (String × Ty)} {x y : String} {ty : Ty} :
    fieldEntry (insertIn x ty fields) y =
      if x = y then some ⟨1, ty, -(position x fields : Int) - 1⟩ else fieldEntry fields y := by
  rw [fieldEntry, Table.lookupIn_insertIn]
  by_cases hxy : x = y
  · subst hxy
    rw [if_pos rfl, if_pos rfl, Option.map_some, position_insertIn_self]
  · rw [if_neg hxy, if_neg hxy, fieldEntry]
    cases hl : lookupIn y fields with
    | none => rfl
    | some t => rw [Option.map_some, position_insertIn_of_mem (Table.mem_keys_of_lookupIn hl)]; rfl

theorem methodEntry_insertIn {methods : List (String × Signature)} {x y : String} {s : Signature} :
    methodEntry (insertIn x s methods) y =
      if x = y then some ⟨1, .method s, position x methods⟩ else methodEntry methods y := by
  rw [methodEntry, Table.lookupIn_insertIn]
  by_cases hxy : x = y
  · subst hxy
    rw [if_pos rfl, if_pos rfl, Option.map_some, position_insertIn_self]
  · rw [if_neg hxy, if_neg hxy, methodEntry]
    cases hl : lookupIn y methods with
    | none => rfl
    | some t => rw [Option.map_some, position_insertIn_of_mem (Table.mem_keys_of_lookupIn hl)]; rfl

/-! ## What all entries have -/

/-- All entries of a table have a property. -/
def Frame.All (P : Entry → Prop) (frame : Frame) : Prop := ∀ x e, frame.find? x = some e → P e

section All

variable {P : Entry → Prop} {frame : Frame} {e : Entry}

theorem Frame.all_empty (P : Entry → Prop) : Frame.All P ∅ := nofun

theorem Frame.All.insert (h : Frame.All P frame) (he : P e) (x : String) :
    Frame.All P (frame.insert x e) := by
  intro y e' hy
  rw [Table.find?_insert] at hy
  split at hy
  · rwa [← Option.some.inj hy]
  · exact h y e' hy

end All

/-! ## Laying out one more member -/

namespace ClassLayout

variable {ctx : Context} {l : ClassLayout} {fields : List (String × Ty)}
  {methods : List (String × Signature)} {b : Binder} {f : FunDecl}

theorem addField_eq (h : b.name ∉ l.declared) :
    l.addField b =
      (l.place b.name ⟨1, b.ty, (l.fieldPlace b.name b.ty).1⟩
          { l.shape with fields := (l.fieldPlace b.name b.ty).2 },
        [.layout b.site.id ⟨1, b.ty, (l.fieldPlace b.name b.ty).1⟩]) := by
  rw [addField, if_neg (by simpa using h)]

theorem addMethod_eq (h : f.name ∉ l.declared) :
    l.addMethod f =
      (l.place f.name ⟨1, .method f.signature, (l.methodPlace f.name f.signature).1⟩
          { l.shape with methods := (l.methodPlace f.name f.signature).2 },
        [.layout f.site.id
          ⟨1, .method f.signature, (l.methodPlace f.name f.signature).1⟩]) := by
  rw [addMethod, if_neg (by simpa using h)]

/-- A second member of the same name is left out. -/
theorem addField_of_mem (h : b.name ∈ l.declared) : (l.addField b).1 = l := by
  rw [addField, if_pos (by simpa using h)]

theorem addMethod_of_mem (h : f.name ∈ l.declared) : (l.addMethod f).1 = l := by
  rw [addMethod, if_pos (by simpa using h)]

theorem addField_new (h : Recorded ctx (l.addField b).2) : b.name ∉ l.declared := by
  intro hmem
  rw [addField, if_pos (by simpa using hmem)] at h
  simp [Finding.Noted] at h

theorem addMethod_new (h : Recorded ctx (l.addMethod f).2) : f.name ∉ l.declared := by
  intro hmem
  rw [addMethod, if_pos (by simpa using hmem)] at h
  simp [Finding.Noted] at h

/-- Fields that are laid out without an error have names of their own. -/
theorem addFields_new {bs : List Binder} (h : Recorded ctx (l.addFields bs).2) :
    (bs.map Binder.name).Nodup ∧ ∀ b ∈ bs, b.name ∉ l.declared := by
  induction bs generalizing l with
  | nil => exact ⟨List.nodup_nil, fun b hb ↦ absurd hb List.not_mem_nil⟩
  | cons b bs ih =>
    simp only [addFields, recorded_append] at h
    have hnew := addField_new h.1
    obtain ⟨hnodup, hlater⟩ := ih h.2
    rw [addField_eq hnew] at hlater
    refine ⟨List.nodup_cons.2 ⟨fun hmem ↦ ?_, hnodup⟩, List.forall_mem_cons.2
      ⟨hnew, fun c hc hmem ↦ hlater c hc (List.mem_cons_of_mem _ hmem)⟩⟩
    obtain ⟨c, hc, hcb⟩ := List.mem_map.1 hmem
    exact hlater c hc (hcb ▸ List.mem_cons_self)

/-- Methods that are laid out without an error have names of their own, which are not those of
fields of the class either. -/
theorem addMethods_new {fs : List FunDecl} (h : Recorded ctx (l.addMethods fs).2) :
    (fs.map FunDecl.name).Nodup ∧ ∀ f ∈ fs, f.name ∉ l.declared := by
  induction fs generalizing l with
  | nil => exact ⟨List.nodup_nil, fun f hf ↦ absurd hf List.not_mem_nil⟩
  | cons f fs ih =>
    simp only [addMethods, recorded_append] at h
    have hnew := addMethod_new h.1
    obtain ⟨hnodup, hlater⟩ := ih h.2
    rw [addMethod_eq hnew] at hlater
    refine ⟨List.nodup_cons.2 ⟨fun hmem ↦ ?_, hnodup⟩, List.forall_mem_cons.2
      ⟨hnew, fun g hg hmem ↦ hlater g hg (List.mem_cons_of_mem _ hmem)⟩⟩
    obtain ⟨g, hg, hgf⟩ := List.mem_map.1 hmem
    exact hlater g hg (hgf ▸ List.mem_cons_self)

theorem all_addField {P : Entry → Prop} (h : Frame.All P l.members) (hb : ∀ o, P ⟨1, b.ty, o⟩) :
    Frame.All P (l.addField b).1.members := by
  rw [addField]
  split
  · exact h
  · exact h.insert (hb _) _

theorem all_addMethod {P : Entry → Prop} (h : Frame.All P l.members)
    (hf : ∀ o, P ⟨1, .method f.signature, o⟩) : Frame.All P (l.addMethod f).1.members := by
  rw [addMethod]
  split
  · exact h
  · exact h.insert (hf _) _

theorem all_addFields {P : Entry → Prop} {bs : List Binder} (h : Frame.All P l.members)
    (hbs : ∀ b ∈ bs, ∀ o, P ⟨1, b.ty, o⟩) : Frame.All P (l.addFields bs).1.members := by
  induction bs generalizing l with
  | nil => exact h
  | cons b bs ih =>
    rw [List.forall_mem_cons] at hbs
    exact ih (all_addField h hbs.1) hbs.2

theorem all_addMethods {P : Entry → Prop} {fs : List FunDecl} (h : Frame.All P l.members)
    (hfs : ∀ f ∈ fs, ∀ o, P ⟨1, .method f.signature, o⟩) :
    Frame.All P (l.addMethods fs).1.members := by
  induction fs generalizing l with
  | nil => exact h
  | cons f fs ih =>
    rw [List.forall_mem_cons] at hfs
    exact ih (all_addMethod h hfs.1) hfs.2

/-- What holds of all that a class inherits and declares, wherever it is placed, holds of all of its
members. -/
theorem all_ofDecl {P : Entry → Prop} {base : ClassInfo} {c : ClassDecl}
    (h : Frame.All P base.members) (hfields : ∀ b ∈ c.fields, ∀ o, P ⟨1, b.ty, o⟩)
    (hmethods : ∀ f ∈ c.methods, ∀ o, P ⟨1, .method f.signature, o⟩) :
    Frame.All P (ofDecl base c).1.members :=
  all_addMethods (all_addFields (l := inherit base) h hfields) hmethods

/-- What a class does not declare itself is as it was inherited.  This holds all the way while
members are added. -/
def Keeps (l : ClassLayout) (base : MemberTable) : Prop :=
  ∀ x, x ∉ l.declared → l.members.find? x = base.find? x

theorem keeps_inherit (base : ClassInfo) : (inherit base).Keeps base.members := fun _ _ ↦ rfl

theorem Keeps.place {base : MemberTable} (h : l.Keeps base) (x : String) (e : Entry)
    (shape : Shape) : (l.place x e shape).Keeps base := by
  intro y hy
  rw [ClassLayout.place, List.mem_cons, not_or] at hy
  rw [ClassLayout.place, Table.find?_insert_of_ne _ _ (Ne.symm hy.1), h y hy.2]

/-- **A field is laid out where its name stands among the fields**, if it replaces no method. -/
theorem laid_addField (hl : Laid l.info fields methods) (hnew : b.name ∉ l.declared)
    (hover : ∀ e, l.members.find? b.name = some e → e.ty.isMethod = false) :
    Laid (l.addField b).1.info (insertIn b.name b.ty fields) methods := by
  have hfree : b.name ∉ methods.map Prod.fst := by
    intro hmem
    obtain ⟨s, hs⟩ := Option.isSome_iff_exists.1 (Table.lookupIn_isSome_iff.2 hmem)
    cases hover _ (hl.find_method hs)
  have hplace : l.fieldPlace b.name b.ty =
      (-(position b.name fields : Int) - 1, (insertIn b.name b.ty fields).map Prod.snd) := by
    have hshape : l.shape.fields = fields.map Prod.snd := hl.shape_fields
    cases hfind : l.members.find? b.name with
    | none =>
      have hno := (hl.find_eq_none hfind).1
      simp [fieldPlace, hfind, hshape, Table.insertIn_of_not_mem hno, position_eq_length hno]
    | some e =>
      have he : e.offset < 0 := by
        by_contra hge
        obtain ⟨s, -, rfl⟩ := hl.of_offset_nonneg hfind (by omega)
        cases hover _ hfind
      obtain ⟨hlook, hentry⟩ := hl.of_offset_neg hfind he
      have hmem := Table.mem_keys_of_lookupIn hlook
      have hoff : e.offset = -(position b.name fields : Int) - 1 := congrArg Entry.offset hentry
      have hindex : fieldIndex (-(position b.name fields : Int) - 1)
          = (fields.map Prod.fst).idxOf b.name := by
        rw [fieldIndex, position]
        omega
      rw [fieldPlace, hfind, Option.filter_some, hover e hfind]
      simp only [Bool.not_false, if_true, hshape, hoff, hindex,
        Table.map_snd_insertIn_of_mem hmem]
  rw [addField_eq hnew, hplace]
  refine ⟨rfl, hl.shape_methods, fun x ↦ ?_, fun x hx hxm ↦ ?_⟩
  · have hx := hl.find x
    simp only [info, place, fieldEntry_insertIn, Table.find?_insert] at hx ⊢
    split
    · rfl
    · exact hx
  · rcases Table.mem_keys_insertIn.1 hx with rfl | hx
    · exact hfree hxm
    · exact hl.disjoint x hx hxm

/-- **A method is laid out where its name stands among the methods**, if it replaces only members
that have a place in the dispatch table. -/
theorem laid_addMethod (hl : Laid l.info fields methods) (hnew : f.name ∉ l.declared)
    (hover : ∀ e, l.members.find? f.name = some e → 0 ≤ e.offset) :
    Laid (l.addMethod f).1.info fields (insertIn f.name f.signature methods) ∧
      (l.addMethod f).2 = [.layout f.site.id
        ⟨1, .method f.signature, (position f.name methods : Nat)⟩] := by
  have hfree : f.name ∉ fields.map Prod.fst := by
    intro hmem
    obtain ⟨ty, hty⟩ := Option.isSome_iff_exists.1 (Table.lookupIn_isSome_iff.2 hmem)
    have := hover _ (hl.find_field hty)
    simp only at this
    omega
  have hplace : l.methodPlace f.name f.signature =
      ((position f.name methods : Int),
        (insertIn f.name f.signature methods).map Prod.snd) := by
    have hshape : l.shape.methods = methods.map Prod.snd := hl.shape_methods
    cases hfind : l.members.find? f.name with
    | none =>
      have hno := (hl.find_eq_none hfind).2
      simp [methodPlace, hfind, hshape, Table.insertIn_of_not_mem hno, position_eq_length hno]
    | some e =>
      obtain ⟨s, hlook, rfl⟩ := hl.of_offset_nonneg hfind (hover e hfind)
      have hmem := Table.mem_keys_of_lookupIn hlook
      rw [methodPlace, hfind, Option.filter_some]
      simp only [Ty.isMethod, if_true, Int.natCast_nonneg, Int.toNat_natCast, hshape,
        Table.map_snd_insertIn_of_mem hmem]
      rfl
  rw [addMethod_eq hnew, hplace]
  refine ⟨⟨hl.shape_fields, rfl, fun x ↦ ?_, fun x hx hxm ↦ ?_⟩, rfl⟩
  · have hx := hl.find x
    have hfx : fieldEntry fields f.name = none := by
      rw [fieldEntry, Table.lookupIn_eq_none hfree]
      rfl
    simp only [info, place, methodEntry_insertIn, Table.find?_insert] at hx ⊢
    split
    · rename_i heq
      subst heq
      rw [hfx]
      rfl
    · exact hx
  · rcases Table.mem_keys_insertIn.1 hxm with rfl | hxm
    · exact hfree hx
    · exact hl.disjoint x hx hxm

/-- A method that is laid out without an error is noted where its name stands among the methods, if
it replaces only what is inherited with a place in the dispatch table. -/
theorem laid_recorded {base : MemberTable} (hl : Laid l.info fields methods)
    (hkeeps : l.Keeps base) (hrec : Recorded ctx (l.addMethod f).2)
    (hover : ∀ e, base.find? f.name = some e → 0 ≤ e.offset) :
    Laid (l.addMethod f).1.info fields (insertIn f.name f.signature methods) ∧
      (l.addMethod f).1.Keeps base ∧ ctx.layouts.find? f.site.id
        = some ⟨1, .method f.signature, (position f.name methods : Nat)⟩ := by
  have hnew := addMethod_new hrec
  obtain ⟨hlaid, hlayout⟩ := laid_addMethod hl hnew fun e he ↦ hover e (hkeeps f.name hnew ▸ he)
  rw [hlayout, recorded_cons] at hrec
  refine ⟨hlaid, ?_, hrec.1⟩
  rw [addMethod_eq hnew]
  exact hkeeps.place _ _ _

/-- All fields of a class are laid out if none of them replaces a method. -/
theorem laid_addFields {base : MemberTable} {bs : List Binder}
    (hl : Laid l.info fields methods) (hkeeps : l.Keeps base)
    (hrec : Recorded ctx (l.addFields bs).2)
    (hover : ∀ b ∈ bs, ∀ e, base.find? b.name = some e → e.ty.isMethod = false) :
    Laid (l.addFields bs).1.info (insertAll (bs.map fun b ↦ (b.name, b.ty)) fields) methods ∧
      (l.addFields bs).1.Keeps base := by
  induction bs generalizing l fields with
  | nil => exact ⟨hl, hkeeps⟩
  | cons b bs ih =>
    simp only [addFields, recorded_append] at hrec ⊢
    have hnew := addField_new hrec.1
    have hlaid := laid_addField hl hnew fun e he ↦
      hover b List.mem_cons_self e (hkeeps b.name hnew ▸ he)
    have hk : (l.addField b).1.Keeps base := by
      rw [addField_eq hnew]
      exact hkeeps.place _ _ _
    exact ih hlaid hk hrec.2 fun c hc ↦ hover c (List.mem_cons_of_mem _ hc)

/-- All methods of a class are laid out if each of them replaces a method only. -/
theorem laid_addMethods {base : MemberTable} {fs : List FunDecl}
    (hl : Laid l.info fields methods) (hkeeps : l.Keeps base)
    (hrec : Recorded ctx (l.addMethods fs).2)
    (hover : ∀ f ∈ fs, ∀ e, base.find? f.name = some e → 0 ≤ e.offset) :
    Laid (l.addMethods fs).1.info fields
      (insertAll (fs.map fun f ↦ (f.name, f.signature)) methods) := by
  induction fs generalizing l methods with
  | nil => exact hl
  | cons f fs ih =>
    simp only [addMethods, recorded_append] at hrec ⊢
    obtain ⟨hlaid, hk, -⟩ := laid_recorded hl hkeeps hrec.1 (hover f List.mem_cons_self)
    exact ih hlaid hk hrec.2 fun g hg ↦ hover g (List.mem_cons_of_mem _ hg)

end ClassLayout

/-! ## The classes of a program -/

/-- What a class inherits, given the classes registered before it.  It is nothing if there is no
superclass among them. -/
def ClassTable.base (t : ClassTable) (c : ClassDecl) : ClassInfo :=
  (c.superclass.bind t.info?).getD ⟨∅, .empty⟩

/-- What all registered classes have, and an empty one, is had by what a class inherits. -/
theorem ClassTable.forall_base {P : ClassInfo → Prop} {t : ClassTable} (hempty : P ⟨∅, .empty⟩)
    (h : ∀ x i, t.info? x = some i → P i) (c : ClassDecl) : P (t.base c) := by
  rw [base]
  cases hb : c.superclass.bind t.info? with
  | none => exact hempty
  | some i =>
    obtain ⟨s, -, hs⟩ := Option.bind_eq_some_iff.1 hb
    exact h s i hs

/-- What is known about a class once it is laid out, given the classes registered before it. -/
def ClassTable.layout (t : ClassTable) (c : ClassDecl) : ClassInfo :=
  (ClassLayout.ofDecl (t.base c) c).1.info

/-- What a class declares itself fits the inherited members that it replaces.  This is what the
check of its overriding comes to if it finds no error. -/
structure ClassDecl.Sound (ctx : Context) (c : ClassDecl) (base : MemberTable) : Prop where
  /-- Each field fits. -/
  fields : ∀ b ∈ c.fields, ∀ e, base.find? b.name = some e → ctx.fieldOverrides e.ty b.ty = true
  /-- Each method fits. -/
  methods : ∀ f ∈ c.methods, ∀ e, base.find? f.name = some e →
    ctx.methodOverrides e.ty f.signature = true

theorem Context.isMethod_of_fieldOverrides {ctx : Context} {inherited ty : Ty}
    (h : ctx.fieldOverrides inherited ty = true) : inherited.isMethod = false := by
  simp only [fieldOverrides, Bool.and_eq_true, Bool.not_eq_true'] at h
  exact h.1

theorem Context.isMethod_of_methodOverrides {ctx : Context} {inherited : Ty} {s : Signature}
    (h : ctx.methodOverrides inherited s = true) : inherited.isMethod = true := by
  cases inherited with
  | method t => rfl
  | _ => cases h

/-- What the methods of a class replace has a place in the dispatch table.  It has none if it is a
field declared with the type of a method. -/
def ClassDecl.Dispatched (c : ClassDecl) (base : MemberTable) : Prop :=
  ∀ f ∈ c.methods, ∀ e, base.find? f.name = some e → 0 ≤ e.offset

/-- The registered classes are those declared, newest first, and each of them has been laid out
without an error. -/
inductive Classes (ctx : Context) : ClassTable → List ClassDecl → Prop
  /-- There are no classes. -/
  | nil : Classes ctx .empty []
  /-- One more class is registered. -/
  | cons {t u : ClassTable} {cs : List ClassDecl} {c : ClassDecl} (older : Classes ctx t cs)
      (new : t.info? c.name = none)
      (known : ∀ s, c.superclass = some s → ∃ i, t.info? s = some i)
      (laid : Recorded ctx (ClassLayout.ofDecl (t.base c) c).2)
      (sound : c.Sound ctx (t.base c).members)
      (dispatched : c.Dispatched (t.base c).members)
      (info : ∀ x, u.info? x = if c.name = x then some (t.layout c) else t.info? x)
      (above : ∀ x, u.superclass? x = if c.name = x then c.superclass else t.superclass? x) :
      Classes ctx u (c :: cs)

section Classes

variable {ctx : Context} {t : ClassTable} {cs : List ClassDecl}

theorem laid_base {c : ClassDecl} (hknown : ∀ s, c.superclass = some s → ∃ i, t.info? s = some i)
    (hlaid : ∀ s i, t.info? s = some i →
      Laid i (membersOf ClassDecl.ownFields cs s) (membersOf ClassDecl.ownMethods cs s)) :
    Laid (t.base c) (inheritedOf ClassDecl.ownFields cs c)
      (inheritedOf ClassDecl.ownMethods cs c) := by
  rw [ClassTable.base, inheritedOf, inheritedOf]
  cases hs : c.superclass with
  | none => exact laid_empty
  | some s =>
    obtain ⟨i, hi⟩ := hknown s hs
    simp only [Option.bind_some, hi, Option.getD_some]
    exact hlaid s i hi

/-- A class is laid out over what it inherits. -/
theorem laid_layout {c : ClassDecl} {fields : List (String × Ty)}
    {methods : List (String × Signature)} (hbase : Laid (t.base c) fields methods)
    (hrec : Recorded ctx (ClassLayout.ofDecl (t.base c) c).2)
    (hsound : c.Sound ctx (t.base c).members) (hdisp : c.Dispatched (t.base c).members) :
    Laid (t.layout c) (insertAll c.ownFields fields) (insertAll c.ownMethods methods) ∧
      c.fieldNames.Nodup ∧ c.methodNames.Nodup := by
  have hrec' := recorded_append.1 hrec
  obtain ⟨hf, hkeeps⟩ := ClassLayout.laid_addFields (l := .inherit (t.base c)) hbase
    (ClassLayout.keeps_inherit _) hrec'.1 fun b hb e he ↦
      Context.isMethod_of_fieldOverrides (hsound.fields b hb e he)
  exact ⟨ClassLayout.laid_addMethods hf hkeeps hrec'.2 hdisp,
    (ClassLayout.addFields_new hrec'.1).1, (ClassLayout.addMethods_new hrec'.2).1⟩

namespace Classes

/-- **Every registered class is laid out as its declaration says**, over what the
classes before it have. -/
theorem laid (h : Classes ctx t cs) {name : String} {i : ClassInfo} (hi : t.info? name = some i) :
    Laid i (membersOf ClassDecl.ownFields cs name) (membersOf ClassDecl.ownMethods cs name) := by
  induction h generalizing name i with
  | nil => cases hi
  | cons older new known hrec sound dispatched info above ih =>
    rw [info] at hi
    rw [membersOf_cons, membersOf_cons]
    split at hi
    · rename_i hname
      obtain rfl := Option.some.inj hi
      rw [if_pos hname, if_pos hname]
      exact (laid_layout (laid_base known fun s i ↦ ih) hrec sound dispatched).1
    · rename_i hname
      rw [if_neg hname, if_neg hname]
      exact ih hi

theorem nodup_names (h : Classes ctx t cs) :
    ∀ c ∈ cs, c.fieldNames.Nodup ∧ c.methodNames.Nodup := by
  induction h with
  | nil => nofun
  | cons older new known hrec sound dispatched info above ih =>
    intro d hd
    rcases List.mem_cons.1 hd with rfl | hd
    · exact (laid_layout (laid_base known fun s i ↦ older.laid) hrec sound dispatched).2
    · exact ih d hd

end Classes

/-- A member may stand in the place of an inherited one. -/
def Context.Fits (ctx : Context) (ty inherited : Ty) : Prop :=
  ty = inherited ∨ ctx.fieldOverrides inherited ty = true ∨
    ∃ s, ty = .method s ∧ ctx.methodOverrides inherited s = true

/-- What is laid out over something else has its members at the same offsets. -/
theorem Laid.inherits {base info : ClassInfo} {c : ClassDecl} {fields : List (String × Ty)}
    {methods : List (String × Signature)} (hbase : Laid base fields methods)
    (hinfo : Laid info (insertAll c.ownFields fields) (insertAll c.ownMethods methods))
    (hnd : c.fieldNames.Nodup ∧ c.methodNames.Nodup) (hsound : c.Sound ctx base.members)
    {x : String} {e : Entry} (he : base.members.find? x = some e) :
    ∃ e', info.members.find? x = some e' ∧ e'.offset = e.offset ∧ ctx.Fits e'.ty e.ty := by
  by_cases hneg : e.offset < 0
  · obtain ⟨hlook, hentry⟩ := hbase.of_offset_neg he hneg
    have hpos : position x (insertAll c.ownFields fields) = position x fields :=
      position_insertAll_of_mem (Table.mem_keys_of_lookupIn hlook)
    have hall := Table.lookupIn_insertAll (l := fields) (c.map_fst_ownFields ▸ hnd.1) x
    rw [hlook] at hall
    cases hown : lookupIn x c.ownFields with
    | none =>
      rw [hown] at hall
      refine ⟨_, hinfo.find_field hall, ?_, .inl rfl⟩
      rw [hentry, hpos]
    | some ty =>
      rw [hown] at hall
      refine ⟨_, hinfo.find_field hall, by rw [hentry, hpos], .inr (.inl ?_)⟩
      obtain ⟨b, hb, hbx⟩ := List.mem_map.1 (Table.mem_of_lookupIn hown)
      cases hbx
      exact hsound.fields b hb e he
  · obtain ⟨s, hlook, rfl⟩ := hbase.of_offset_nonneg he (by omega)
    have hpos : position x (insertAll c.ownMethods methods) = position x methods :=
      position_insertAll_of_mem (Table.mem_keys_of_lookupIn hlook)
    have hall := Table.lookupIn_insertAll (l := methods) (c.map_fst_ownMethods ▸ hnd.2) x
    rw [hlook] at hall
    cases hown : lookupIn x c.ownMethods with
    | none =>
      rw [hown] at hall
      exact ⟨_, hinfo.find_method hall, by rw [hpos], .inl rfl⟩
    | some s' =>
      rw [hown] at hall
      refine ⟨_, hinfo.find_method hall, by rw [hpos], .inr (.inr ⟨s', rfl, ?_⟩)⟩
      obtain ⟨f, hf, hfx⟩ := List.mem_map.1 (Table.mem_of_lookupIn hown)
      cases hfx
      exact hsound.methods f hf _ he

/-- **A class has every member of its superclass at the same offset, and of a type that fits.** -/
theorem Classes.inherits (h : Classes ctx t cs) {name s : String} {i : ClassInfo}
    (hi : t.info? name = some i) (hs : t.superclass? name = some s) :
    ∃ j, t.info? s = some j ∧ ∀ x e, j.members.find? x = some e →
      ∃ e', i.members.find? x = some e' ∧ e'.offset = e.offset ∧ ctx.Fits e'.ty e.ty := by
  induction h generalizing name s i with
  | nil => cases hi
  | @cons t u cs c older new known hrec sound dispatched info above ih =>
    have hfresh : ∀ {x j}, t.info? x = some j → u.info? x = some j := by
      intro x j hj
      rw [info, if_neg (by rintro rfl; rw [new] at hj; cases hj), hj]
    rw [info] at hi
    rw [above] at hs
    split at hi
    · rename_i hname
      obtain rfl := Option.some.inj hi
      rw [if_pos hname] at hs
      obtain ⟨j, hj⟩ := known s hs
      have hbase : t.base c = j := by rw [ClassTable.base, hs, Option.bind_some, hj]; rfl
      have hlb := laid_base (c := c) known fun s i ↦ older.laid
      have hlc := laid_layout hlb hrec sound dispatched
      exact ⟨j, hfresh hj, fun x e he ↦ hlb.inherits hlc.1 hlc.2 sound (hbase ▸ he)⟩
    · rename_i hname
      rw [if_neg hname] at hs
      obtain ⟨j, hj, hall⟩ := ih hi hs
      exact ⟨j, hfresh hj, hall⟩

end Classes

end ObjectLet
