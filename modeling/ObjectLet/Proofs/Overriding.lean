import ObjectLet.Proofs.Compiling
import ObjectLet.Proofs.Registry
import ObjectLet.Proofs.Subtypes
import ObjectLet.Proofs.Values

/-!
# Overriding

Type checking compares a class with its immediate superclass only.  This is enough: in a program
without errors a class can stand in for every class above it, however far (`ClassInfo.Refines`).

* `ClassInfo.Placed` relates the offsets in the table of a class to its shape.  It holds of every
  class of every program, whatever errors there are, and is what makes it safe to overwrite a slot
  of the shape when a member is replaced.
* `ClassLayout.refines_addField`, `ClassLayout.refines_addMethod`: what one more member does.
* `ClassTable.Stands.refines`: a class refines its superclass.
* `Toolchain.overrides_sound`: **a class refines every class above it.**
-/

set_option autoImplicit false

namespace ObjectLet

/-! ## Places -/

/-- The members of a class are where its shape says they are.  A member that has the type of a
method but is placed among the fields has been declared as a field, or replaces one that has. -/
structure ClassInfo.Placed (i : ClassInfo) : Prop where
  /-- No member is placed outside of the shape. -/
  bounds : ∀ x e, i.members.find? x = some e →
    -(i.shape.fields.length : Int) ≤ e.offset ∧ e.offset < i.shape.methods.length
  /-- A field has its type in its slot. -/
  field : ∀ x e, i.members.find? x = some e → e.ty.isMethod = false →
    e.offset < 0 ∧ i.shape.fields[fieldIndex e.offset]? = some e.ty
  /-- A method has its signature in its slot. -/
  method : ∀ x e s, i.members.find? x = some e → e.ty = .method s → 0 ≤ e.offset →
    i.shape.methods[e.offset.toNat]? = some s
  /-- No two members share a place. -/
  apart : ∀ x y d e, i.members.find? x = some d → i.members.find? y = some e →
    d.offset = e.offset → x = y

theorem ClassInfo.placed_empty : Placed ⟨∅, .empty⟩ := ⟨nofun, nofun, nofun, nofun⟩

theorem Ty.isMethod_iff {ty : Ty} : ty.isMethod = true ↔ ∃ s, ty = .method s := by
  cases ty <;> simp [Ty.isMethod]

namespace ClassLayout

variable {l : ClassLayout} {b : Binder} {f : FunDecl} {x : String} {e : Entry} {shape : Shape}

/-- The slots of a shape after a member has been placed.  That of the member may have changed, and
there may be one slot more. -/
structure Makes (l : ClassLayout) (x : String) (e : Entry) (shape : Shape) : Prop where
  /-- There are as many fields as before, or more. -/
  fields_le : l.shape.fields.length ≤ shape.fields.length
  /-- There are as many methods as before, or more. -/
  methods_le : l.shape.methods.length ≤ shape.methods.length
  /-- The place is inside of the shape. -/
  bounds : -(shape.fields.length : Int) ≤ e.offset ∧ e.offset < shape.methods.length
  /-- The slots of the other fields stay. -/
  fields : ∀ o : Int, -(l.shape.fields.length : Int) ≤ o → o < 0 → o ≠ e.offset →
    shape.fields[fieldIndex o]? = l.shape.fields[fieldIndex o]?
  /-- The slots of the other methods stay. -/
  methods : ∀ o : Int, 0 ≤ o → o < l.shape.methods.length → o ≠ e.offset →
    shape.methods[o.toNat]? = l.shape.methods[o.toNat]?
  /-- A field has its type in its slot. -/
  field : e.ty.isMethod = false → e.offset < 0 ∧ shape.fields[fieldIndex e.offset]? = some e.ty
  /-- A method has its signature in its slot. -/
  method : ∀ s, e.ty = .method s → 0 ≤ e.offset → shape.methods[e.offset.toNat]? = some s
  /-- The place is free, or that of the member which is replaced. -/
  free : ∀ y d, l.members.find? y = some d → d.offset = e.offset → y = x

/-- Placing one more member leaves the others where they are. -/
theorem Makes.placed (hp : l.info.Placed) (hm : l.Makes x e shape) :
    (l.place x e shape).info.Placed := by
  have hfind : ∀ {y d}, (l.place x e shape).info.members.find? y = some d →
      (x = y ∧ e = d) ∨ (x ≠ y ∧ l.members.find? y = some d) := by
    intro y d hd
    simp only [info, place, Table.find?_insert] at hd
    split at hd
    · exact .inl ⟨‹_›, Option.some.inj hd⟩
    · exact .inr ⟨‹_›, hd⟩
  refine ⟨fun y d hd ↦ ?_, fun y d hd hty ↦ ?_, fun y d s hd hty hpos ↦ ?_,
    fun y z d d' hd hd' heq ↦ ?_⟩
  · rcases hfind hd with ⟨rfl, rfl⟩ | ⟨-, hd⟩
    · exact hm.bounds
    · have hb : -(l.shape.fields.length : Int) ≤ d.offset ∧ d.offset < l.shape.methods.length :=
        hp.bounds y d hd
      have h₁ := hm.fields_le
      have h₂ := hm.methods_le
      simp only [info, place]
      omega
  · rcases hfind hd with ⟨rfl, rfl⟩ | ⟨hne, hd⟩
    · exact hm.field hty
    · obtain ⟨hneg, hslot⟩ := hp.field y d hd hty
      refine ⟨hneg, .trans ?_ hslot⟩
      exact hm.fields d.offset (hp.bounds y d hd).1 hneg fun ho ↦ hne (hm.free y d hd ho).symm
  · rcases hfind hd with ⟨rfl, rfl⟩ | ⟨hne, hd⟩
    · exact hm.method s hty hpos
    · refine .trans ?_ (hp.method y d s hd hty hpos)
      exact hm.methods d.offset hpos (hp.bounds y d hd).2 fun ho ↦ hne (hm.free y d hd ho).symm
  · rcases hfind hd with ⟨rfl, rfl⟩ | ⟨-, hd⟩ <;> rcases hfind hd' with ⟨rfl, rfl⟩ | ⟨-, hd'⟩
    · rfl
    · exact (hm.free z d' hd' heq.symm).symm
    · exact hm.free y d hd heq
    · exact hp.apart y z d d' hd hd' heq

/-- A field goes to the slot below the others, or to that of the field which it replaces. -/
theorem makes_addField (hp : l.info.Placed) (b : Binder) :
    l.Makes b.name ⟨1, b.ty, (l.fieldPlace b.name b.ty).1⟩
      { l.shape with fields := (l.fieldPlace b.name b.ty).2 } := by
  rw [fieldPlace]
  cases hover : (l.members.find? b.name).filter fun e ↦ !e.ty.isMethod with
  | none =>
    refine ⟨by simp, le_rfl, ?_, fun o ho hneg _ ↦ ?_, fun _ _ _ _ ↦ rfl, fun _ ↦ ?_,
      fun s _ hpos ↦ ?_, fun y d hd heq ↦ ?_⟩
    · simp only [List.length_append, List.length_singleton]
      omega
    · exact List.getElem?_append_left (by rw [fieldIndex]; omega)
    · simp only [fieldIndex]
      refine ⟨by omega, ?_⟩
      rw [show (-(-(l.shape.fields.length : Int) - 1) - 1).toNat = l.shape.fields.length by omega]
      exact List.getElem?_concat_length
    · simp only at hpos
      omega
    · have := (hp.bounds y d hd).1
      simp only [info] at this heq
      omega
  | some e =>
    obtain ⟨hfind, hty⟩ := Option.filter_eq_some_iff.1 hover
    obtain ⟨hneg, hslot⟩ := hp.field b.name e hfind (by simpa using hty)
    obtain ⟨hb₁, hb₂⟩ := hp.bounds b.name e hfind
    refine ⟨by simp, le_rfl, by simpa [info] using ⟨hb₁, hb₂⟩, fun o ho hlt hne ↦ ?_,
      fun _ _ _ _ ↦ rfl, fun _ ↦ ⟨hneg, ?_⟩, fun s _ hpos ↦ ?_, fun y d hd heq ↦ ?_⟩
    · refine List.getElem?_set_ne ?_
      simp only [fieldIndex] at hne ⊢
      omega
    · exact List.getElem?_set_self ((List.getElem?_eq_some_iff.1 hslot).1)
    · exact absurd hneg (by simpa using hpos)
    · exact hp.apart y b.name d e hd hfind heq

/-- A method goes to the slot behind the others, or to the place of the member which it replaces. -/
theorem makes_addMethod (hp : l.info.Placed) (f : FunDecl) :
    l.Makes f.name ⟨1, .method f.signature, (l.methodPlace f.name f.signature).1⟩
      { l.shape with methods := (l.methodPlace f.name f.signature).2 } := by
  rw [methodPlace]
  cases hover : (l.members.find? f.name).filter fun e ↦ e.ty.isMethod with
  | none =>
    refine ⟨le_rfl, by simp, ?_, fun _ _ _ _ ↦ rfl, fun o ho hlt _ ↦ ?_, (fun h ↦ by cases h),
      fun s hs _ ↦ ?_, fun y d hd heq ↦ ?_⟩
    · simp only [List.length_append, List.length_singleton]
      omega
    · exact List.getElem?_append_left (by omega)
    · rw [← Ty.method.inj hs]
      exact List.getElem?_concat_length
    · have := (hp.bounds y d hd).2
      simp only [info] at this heq
      omega
  | some e =>
    obtain ⟨hfind, hty⟩ := Option.filter_eq_some_iff.1 hover
    obtain ⟨s, hs⟩ := Ty.isMethod_iff.1 hty
    obtain ⟨hb₁, hb₂⟩ := hp.bounds f.name e hfind
    let methods := if 0 ≤ e.offset then l.shape.methods.set e.offset.toNat f.signature
      else l.shape.methods
    have hlen : methods.length = l.shape.methods.length := by
      simp only [methods]
      split <;> simp
    change l.Makes f.name ⟨1, .method f.signature, e.offset⟩ ⟨l.shape.fields, methods⟩
    refine ⟨le_rfl, hlen.ge, ⟨hb₁, hlen.symm ▸ hb₂⟩, fun _ _ _ _ ↦ rfl, fun o ho hlt hne ↦ ?_,
      (fun h ↦ by cases h), fun s' hs' hpos ↦ ?_,
      fun y d hd heq ↦ hp.apart y f.name d e hd hfind heq⟩
    · simp only [methods]
      split
      · exact List.getElem?_set_ne (by simp only at hne; omega)
      · rfl
    · have hpos : 0 ≤ e.offset := hpos
      simp only [methods, if_pos hpos, ← Ty.method.inj hs']
      exact List.getElem?_set_self
        (List.getElem?_eq_some_iff.1 (hp.method f.name e s hfind hs hpos)).1

theorem placed_addField (hp : l.info.Placed) (b : Binder) : (l.addField b).1.info.Placed := by
  by_cases hnew : b.name ∈ l.declared
  · rwa [addField_of_mem hnew]
  · rw [addField_eq hnew]
    exact (makes_addField hp b).placed hp

theorem placed_addMethod (hp : l.info.Placed) (f : FunDecl) : (l.addMethod f).1.info.Placed := by
  by_cases hnew : f.name ∈ l.declared
  · rwa [addMethod_of_mem hnew]
  · rw [addMethod_eq hnew]
    exact (makes_addMethod hp f).placed hp

theorem placed_addFields (hp : l.info.Placed) (bs : List Binder) :
    (l.addFields bs).1.info.Placed := by
  induction bs generalizing l with
  | nil => exact hp
  | cons b bs ih => exact ih (placed_addField hp b)

theorem placed_addMethods (hp : l.info.Placed) (fs : List FunDecl) :
    (l.addMethods fs).1.info.Placed := by
  induction fs generalizing l with
  | nil => exact hp
  | cons f fs ih => exact ih (placed_addMethod hp f)

/-- **The members of a class are where its shape says they are**, if those that it inherits are. -/
theorem placed_ofDecl {base : ClassInfo} (hp : base.Placed) (c : ClassDecl) :
    (ofDecl base c).1.info.Placed :=
  placed_addMethods (placed_addFields (l := inherit base) hp c.fields) c.methods

end ClassLayout

/-! ## Refinement -/

/-- The type of a member can replace another one: that of a method the type of a method, any other
one the type of something that is no method. -/
def Ty.Replaces (h : Hierarchy) (new : Ty) : Ty → Prop
  | .method s => ∃ s', new = .method s' ∧ s'.subtype h s = true
  | old => new.isMethod = false ∧ new.subtype h old = true

/-- Being a subtype is all that it takes. -/
theorem Ty.replaces_iff {h : Hierarchy} {new old : Ty} :
    new.Replaces h old ↔ new.subtype h old = true := by
  cases old with
  | method s =>
    have hmethod : ∀ s', (Ty.method s').subtype h (.method s) = s'.subtype h s := fun s' ↦ by
      simp [Ty.subtype, Ty.related, Signature.subtype]
    refine ⟨fun hr ↦ ?_, fun hsub ↦ ?_⟩
    · obtain ⟨s', rfl, hs'⟩ := hr
      rwa [hmethod]
    · obtain ⟨s', rfl⟩ := Ty.isMethod_iff.1 (Ty.isMethod_of_subtype hsub)
      exact ⟨s', rfl, hmethod s' ▸ hsub⟩
  | _ => exact ⟨fun hr ↦ hr.2, fun hsub ↦ ⟨Ty.isMethod_of_subtype hsub, hsub⟩⟩

/-- One list goes on at least as long as another one, and has something related to it at each
position. -/
def Covers {α : Type} (r : α → α → Prop) (new old : List α) : Prop :=
  ∀ (k : Nat) (a : α), old[k]? = some a → ∃ b, new[k]? = some b ∧ r b a

namespace Covers

variable {α : Type} {r : α → α → Prop} {l m n : List α} {a b : α} {k : Nat}

theorem refl (hr : ∀ a, r a a) (l : List α) : Covers r l l := fun _ a ha ↦ ⟨a, ha, hr a⟩

theorem trans (hr : ∀ {a b c}, r a b → r b c → r a c) (hlm : Covers r l m) (hmn : Covers r m n) :
    Covers r l n := by
  intro k a ha
  obtain ⟨b, hb, hba⟩ := hmn k a ha
  obtain ⟨c, hc, hcb⟩ := hlm k b hb
  exact ⟨c, hc, hr hcb hba⟩

theorem append (hr : ∀ a, r a a) (l m : List α) : Covers r (l ++ m) l := fun _ a ha ↦
  ⟨a, (List.getElem?_append_left (List.getElem?_eq_some_iff.1 ha).1).trans ha, hr a⟩

theorem set (hr : ∀ a, r a a) (ha : l[k]? = some a) (hba : r b a) : Covers r (l.set k b) l := by
  intro j d hd
  by_cases hkj : k = j
  · subst hkj
    obtain rfl := Option.some.inj (ha.symm.trans hd)
    exact ⟨b, List.getElem?_set_self (List.getElem?_eq_some_iff.1 ha).1, hba⟩
  · exact ⟨d, (List.getElem?_set_ne hkj).trans hd, hr d⟩

end Covers

/-- What is known about one class is a refinement of what is known about another one: its objects
and its dispatch table can be used in their place. -/
structure ClassInfo.Refines (h : Hierarchy) (i j : ClassInfo) : Prop where
  /-- Every member is there, at the same offset, and of a type that fits. -/
  members : ∀ x e, j.members.find? x = some e →
    ∃ e', i.members.find? x = some e' ∧ e'.offset = e.offset ∧ e'.ty.Replaces h e.ty
  /-- The types of the fields fit. -/
  fields : Covers (fun t u : Ty ↦ t.subtype h u = true) i.shape.fields j.shape.fields
  /-- The signatures of the methods fit. -/
  methods : Covers (fun s t : Signature ↦ s.subtype h t = true) i.shape.methods j.shape.methods

namespace ClassInfo.Refines

variable {h : Hierarchy} {i j k : ClassInfo}

theorem refl (h : Hierarchy) (i : ClassInfo) : i.Refines h i :=
  ⟨fun _ e he ↦ ⟨e, he, rfl, Ty.replaces_iff.2 (e.ty.subtype_refl h)⟩,
    .refl (Ty.subtype_refl h) _, .refl (Signature.subtype_refl h) _⟩

theorem trans (hij : i.Refines h j) (hjk : j.Refines h k) : i.Refines h k := by
  refine ⟨fun x e he ↦ ?_, hij.fields.trans Ty.subtype_trans hjk.fields,
    hij.methods.trans Signature.subtype_trans hjk.methods⟩
  obtain ⟨e', he', ho', hr'⟩ := hjk.members x e he
  obtain ⟨e'', he'', ho'', hr''⟩ := hij.members x e' he'
  rw [Ty.replaces_iff] at hr' hr''
  exact ⟨e'', he'', ho''.trans ho', Ty.replaces_iff.2 (Ty.subtype_trans hr'' hr')⟩

end ClassInfo.Refines

namespace ClassLayout

variable {ctx : Context} {l : ClassLayout} {b : Binder} {f : FunDecl} {x : String} {e : Entry}
  {shape : Shape}

/-- Placing a member is a refinement if its own entry and the slots are. -/
theorem refines_place {h : Hierarchy}
    (hover : ∀ d, l.members.find? x = some d → e.offset = d.offset ∧ e.ty.subtype h d.ty = true)
    (hfields : Covers (fun t u : Ty ↦ t.subtype h u = true) shape.fields l.shape.fields)
    (hmethods : Covers (fun s t : Signature ↦ s.subtype h t = true) shape.methods l.shape.methods) :
    (l.place x e shape).info.Refines h l.info := by
  refine ⟨fun y d hd ↦ ?_, hfields, hmethods⟩
  simp only [info, place, Table.find?_insert] at hd ⊢
  split
  · rename_i hxy
    subst hxy
    exact ⟨e, rfl, (hover d hd).1, Ty.replaces_iff.2 (hover d hd).2⟩
  · exact ⟨d, hd, rfl, Ty.replaces_iff.2 (d.ty.subtype_refl h)⟩

/-- **One more field refines what is laid out before**, if it fits the member that it replaces. -/
theorem refines_addField (hp : l.info.Placed) (hnew : b.name ∉ l.declared)
    (hfits : ∀ e, l.members.find? b.name = some e → ctx.fieldOverrides e.ty b.ty = true) :
    (l.addField b).1.info.Refines ctx.classes.hierarchy l.info := by
  rw [addField_eq hnew, fieldPlace]
  cases hfind : l.members.find? b.name with
  | none =>
    refine refines_place ?_ (.append (Ty.subtype_refl _) _ _) (.refl (Signature.subtype_refl _) _)
    rw [hfind]
    exact fun d hd ↦ by cases hd
  | some e =>
    have hfit := hfits e hfind
    have hty := Context.isMethod_of_fieldOverrides hfit
    have hsub : b.ty.subtype ctx.classes.hierarchy e.ty = true := by
      simp only [Context.fieldOverrides, Bool.and_eq_true] at hfit
      exact hfit.2
    simp only [Option.filter_some, hty, Bool.not_false, if_true]
    refine refines_place ?_ (.set (Ty.subtype_refl _) (hp.field _ e hfind hty).2 hsub)
      (.refl (Signature.subtype_refl _) _)
    rw [hfind]
    rintro _ ⟨⟩
    exact ⟨rfl, hsub⟩

/-- **One more method refines what is laid out before**, if it fits the member that it replaces. -/
theorem refines_addMethod (hp : l.info.Placed) (hnew : f.name ∉ l.declared)
    (hfits : ∀ e, l.members.find? f.name = some e →
      ctx.methodOverrides e.ty f.signature = true) :
    (l.addMethod f).1.info.Refines ctx.classes.hierarchy l.info := by
  rw [addMethod_eq hnew, methodPlace]
  cases hfind : l.members.find? f.name with
  | none =>
    refine refines_place ?_ (.refl (Ty.subtype_refl _) _) (.append (Signature.subtype_refl _) _ _)
    rw [hfind]
    exact fun d hd ↦ by cases hd
  | some e =>
    have hfit := hfits e hfind
    obtain ⟨s, hs⟩ := Ty.isMethod_iff.1 (Context.isMethod_of_methodOverrides hfit)
    rw [hs] at hfit
    simp only [Option.filter_some, hs, Ty.isMethod, if_true]
    refine refines_place ?_ (.refl (Ty.subtype_refl _) _) ?_
    · rw [hfind]
      rintro _ ⟨⟩
      exact ⟨rfl, by rw [hs]; exact hfit⟩
    · split
      · exact .set (Signature.subtype_refl _) (hp.method _ e s hfind hs ‹_›) hfit
      · exact .refl (Signature.subtype_refl _) _

theorem keeps_addField {base : MemberTable} (hk : l.Keeps base) (b : Binder) :
    (l.addField b).1.Keeps base := by
  by_cases hnew : b.name ∈ l.declared
  · rwa [addField_of_mem hnew]
  · rw [addField_eq hnew]
    exact hk.place _ _ _

theorem keeps_addMethod {base : MemberTable} (hk : l.Keeps base) (f : FunDecl) :
    (l.addMethod f).1.Keeps base := by
  by_cases hnew : f.name ∈ l.declared
  · rwa [addMethod_of_mem hnew]
  · rw [addMethod_eq hnew]
    exact hk.place _ _ _

theorem refines_addFields {base : MemberTable} {bs : List Binder} (hp : l.info.Placed)
    (hk : l.Keeps base) (hfits : ∀ b ∈ bs, ∀ e, base.find? b.name = some e →
      ctx.fieldOverrides e.ty b.ty = true) :
    (l.addFields bs).1.info.Refines ctx.classes.hierarchy l.info ∧
      (l.addFields bs).1.Keeps base := by
  induction bs generalizing l with
  | nil => exact ⟨.refl _ _, hk⟩
  | cons b bs ih =>
    obtain ⟨hrest, hk'⟩ := ih (placed_addField hp b) (keeps_addField hk b)
      fun d hd ↦ hfits d (List.mem_cons_of_mem _ hd)
    refine ⟨hrest.trans ?_, hk'⟩
    by_cases hnew : b.name ∈ l.declared
    · rw [addField_of_mem hnew]
      exact .refl _ _
    · exact refines_addField hp hnew fun e he ↦
        hfits b List.mem_cons_self e (hk b.name hnew ▸ he)

theorem refines_addMethods {base : MemberTable} {fs : List FunDecl} (hp : l.info.Placed)
    (hk : l.Keeps base) (hfits : ∀ f ∈ fs, ∀ e, base.find? f.name = some e →
      ctx.methodOverrides e.ty f.signature = true) :
    (l.addMethods fs).1.info.Refines ctx.classes.hierarchy l.info := by
  induction fs generalizing l with
  | nil => exact .refl _ _
  | cons f fs ih =>
    refine (ih (placed_addMethod hp f) (keeps_addMethod hk f)
      fun d hd ↦ hfits d (List.mem_cons_of_mem _ hd)).trans ?_
    by_cases hnew : f.name ∈ l.declared
    · rw [addMethod_of_mem hnew]
      exact .refl _ _
    · exact refines_addMethod hp hnew fun e he ↦
        hfits f List.mem_cons_self e (hk f.name hnew ▸ he)

/-- **A class refines what it is laid out over**, if what it declares itself fits.  A member that is
replaced keeps its offset, and its type gets more special. -/
theorem refines_ofDecl {base : ClassInfo} {c : ClassDecl} (hp : base.Placed)
    (hsound : c.Sound ctx base.members) :
    (ofDecl base c).1.info.Refines ctx.classes.hierarchy base := by
  obtain ⟨hfields, hkeeps⟩ := refines_addFields (l := inherit base) hp (keeps_inherit base)
    hsound.fields
  exact (refines_addMethods (placed_addFields (l := inherit base) hp c.fields) hkeeps
    hsound.methods).trans hfields

end ClassLayout

/-! ## The classes of a program -/

namespace ClassTable

variable {ctx : Context} {cs : List ClassDecl} {x y : String} {i j : ClassInfo}

/-- **The members of a registered class are where its shape says they are**,
inherited ones included. -/
theorem placed_declareAll (h : (empty.declareAll cs).info? x = some i) : i.Placed :=
  forall_info_declareAll ClassInfo.placed_empty (fun c _ _ hp ↦ ClassLayout.placed_ofDecl hp c)
    (fun _ _ hi ↦ by cases hi) h

/-- A registered class refines its superclass, if what it declares itself fits. -/
theorem Stands.refines {c : ClassDecl} {base : ClassInfo} {s : String}
    (h : ctx.classes.Stands c base i) (hs : ctx.classes.superclass? c.name = some s)
    (hp : base.Placed) (hsound : c.Sound ctx (ctx.inheritedMembers c)) :
    i.Refines ctx.classes.hierarchy base := by
  obtain ⟨hsuper, hbase⟩ := h.base_of_superclass? hs
  have hmembers : base.members = ctx.inheritedMembers c := by
    rw [Context.inheritedMembers, hsuper, Option.bind_some, members?, hbase]
    rfl
  rw [h.laid]
  exact ClassLayout.refines_ofDecl hp (hmembers ▸ hsound)

/-- **A registered class refines every class above it**, if what each class declares itself fits.
One step up is enough, since refining is transitive. -/
theorem Below.refines (hclasses : ctx.classes = empty.declareAll cs)
    (hsound : ∀ c ∈ cs, c.Sound ctx (ctx.inheritedMembers c)) (h : ctx.classes.Below x y)
    (hi : ctx.classes.info? x = some i) (hj : ctx.classes.info? y = some j) :
    i.Refines ctx.classes.hierarchy j := by
  induction h generalizing i with
  | refl x =>
    obtain rfl := Option.some.inj (hi.symm.trans hj)
    exact .refl _ _
  | up hs hbelow ih =>
    obtain ⟨c, hc, rfl, base, hstands⟩ := exists_stands (hclasses ▸ hi)
    rw [← hclasses] at hstands
    have hbase := (hstands.base_of_superclass? hs).2
    have hplaced : base.Placed := placed_declareAll (hclasses ▸ hbase)
    exact (hstands.refines hs hplaced (hsound c hc)).trans (ih hbase hj)

end ClassTable

/-- What the classes of a program without type errors declare themselves fits what they inherit. -/
theorem Decl.sound_of_checkAll {ctx : Context} {ds : List Decl}
    (h : typeErrors (Decl.checkAll ctx ds) = []) :
    ∀ c ∈ ds.flatMap Decl.classes, c.Sound ctx (ctx.inheritedMembers c) := by
  induction ds with
  | nil => nofun
  | cons d ds ih =>
    rw [Decl.checkAll, typeErrors_append, List.append_eq_nil_iff] at h
    intro c hc
    rw [List.flatMap_cons, List.mem_append] at hc
    rcases hc with hc | hc
    · cases d with
      | cls c' =>
        obtain rfl := List.mem_singleton.1 hc
        rw [Decl.check] at h
        exact ClassDecl.sound_of_checkOverrides (ClassDecl.typeErrors_check h.1).2
      | _ => cases hc
    · exact ih h.2 c hc

section Analysis

variable {t : Toolchain} {p : Program}

theorem Program.classes_resolved (p : Program) :
    p.resolved.classes = ClassTable.empty.declareAll (p.decls.flatMap Decl.classes) := by
  rw [← p.classes_resolve]
  exact classes_addFindings _ _

/-- **In a program without errors, every class refines every class above it.**  All members of a
class are at the same offsets in the classes below it, where fields have subtypes of the types that
they have in the class, and methods have signatures that can take the place of those that they have
there; and slot by slot the same is true of the shapes. -/
theorem Toolchain.overrides_sound (hclean : (t.analyze p).counts.isClean = true) {d c : String}
    (hbelow : (t.analyze p).context.classes.Below d c) {i j : ClassInfo}
    (hd : (t.analyze p).context.classes.info? d = some i)
    (hc : (t.analyze p).context.classes.info? c = some j) :
    i.Refines (t.analyze p).context.classes.hierarchy j := by
  obtain ⟨-, -, -, htypes⟩ := Toolchain.isClean_iff.1 hclean
  rw [Program.check, typeErrors_append, List.append_eq_nil_iff] at htypes
  have hclasses : (t.analyze p).context.classes = p.resolved.classes := (t.knows p).classes
  rw [hclasses] at hbelow hd hc ⊢
  exact hbelow.refines p.classes_resolved (Decl.sound_of_checkAll htypes.1) hd hc

end Analysis

/-- The field `x` of a class `A` and the result of its method `m` become narrower in `B`, and the
parameter of `m` becomes wider; `C` inherits all this from `B`. -/
def narrowing : Program :=
  let p : ClassDecl := ⟨⟨0, 1⟩, "P", none, [], []⟩
  let q : ClassDecl := ⟨⟨1, 1⟩, "Q", some "P", [], []⟩
  let a : ClassDecl := ⟨⟨6, 1⟩, "A", none, [⟨⟨2, 1⟩, "x", .ref "P"⟩],
    [⟨⟨5, 1⟩, "m", .ref "P", [⟨⟨3, 1⟩, "y", .ref "Q"⟩], [], .ident ⟨4, 1⟩ "y"⟩]⟩
  let b : ClassDecl := ⟨⟨11, 1⟩, "B", some "A", [⟨⟨7, 1⟩, "x", .ref "Q"⟩],
    [⟨⟨10, 1⟩, "m", .ref "Q", [⟨⟨8, 1⟩, "y", .ref "P"⟩], [], .ident ⟨9, 1⟩ "x"⟩]⟩
  let c : ClassDecl := ⟨⟨14, 1⟩, "C", some "B", [],
    [⟨⟨13, 1⟩, "n", .int, [], [], .int ⟨12, 1⟩ 0⟩]⟩
  .letIn 1 [.cls p, .cls q, .cls a, .cls b, .cls c] (.int ⟨15, 1⟩ 0)

/-- The class `C` refines `A`, which is two links above it. -/
theorem narrowing_refines : ∃ i j,
    (({} : Toolchain).analyze narrowing).context.classes.info? "C" = some i ∧
    (({} : Toolchain).analyze narrowing).context.classes.info? "A" = some j ∧
    i.shape.fields = [.ref "Q"] ∧ j.shape.fields = [.ref "P"] ∧
    i.Refines (({} : Toolchain).analyze narrowing).context.classes.hierarchy j := by
  have hc : ((({} : Toolchain).analyze narrowing).context.classes.info? "C").map
      (fun i ↦ i.shape.fields) = some [.ref "Q"] := by decide +kernel
  have ha : ((({} : Toolchain).analyze narrowing).context.classes.info? "A").map
      (fun i ↦ i.shape.fields) = some [.ref "P"] := by decide +kernel
  obtain ⟨i, hi, hfields⟩ := Option.map_eq_some_iff.1 hc
  obtain ⟨j, hj, hfields'⟩ := Option.map_eq_some_iff.1 ha
  exact ⟨i, j, hi, hj, hfields, hfields', Toolchain.overrides_sound (by decide +kernel)
    (.up (s := "B") (by decide +kernel) (.up (by decide +kernel) (.refl _))) hi hj⟩

end ObjectLet
