import ObjectLet.Proofs.Layouts

/-!
# The types of values

At run time a value is a word, and what it means that it has a type depends on the objects that
there are (`HasType`): a reference to a class is `null` or the address of an object of that class or
of one below it.  No value has the type of a function, a method or a class, although fields and
parameters can be declared with such types; nothing can ever be passed for them.

* `HasType.subtype`: **a value of a type has every type above it**.
* `Signature.Serves` is what subtyping of signatures means for the values that are passed, and
  `Classes.members_below` transfers all that is known about a class to the classes below it.
-/

set_option autoImplicit false

namespace ObjectLet

/-! ## Chains of superclasses -/

/-- A class is another one or comes below it.  There may be any number of links between them. -/
inductive ClassTable.Below (t : ClassTable) : String → String → Prop
  | refl (c : String) : t.Below c c
  | up {c s d : String} (h : t.superclass? c = some s) (h' : t.Below s d) : t.Below c d

namespace ClassTable.Below

variable {t : ClassTable} {c d e : String}

theorem trans (h : t.Below c d) (h' : t.Below d e) : t.Below c e := by
  induction h with
  | refl c => exact h'
  | up hs _ ih => exact .up hs (ih h')

theorem of_mem_ancestors {n : Nat} (h : d ∈ t.hierarchy.ancestors n c) : t.Below c d := by
  induction n generalizing c with
  | zero => cases h
  | succ n ih =>
    rw [Hierarchy.ancestors] at h
    rcases List.mem_cons.1 h with rfl | h
    · exact .refl _
    · cases hs : t.hierarchy.superclass? c with
      | none =>
        rw [hs] at h
        cases h
      | some s =>
        rw [hs] at h
        exact .up hs (ih h)

theorem of_inherits (h : t.hierarchy.inherits c d = true) : t.Below c d :=
  of_mem_ancestors (List.contains_iff_mem.1 h)

end ClassTable.Below

/-! ## Values of a type -/

/-- A value has a type, given the classes and the objects.  For a reference it is the class that the
object was made as which counts. -/
def HasType (t : ClassTable) (objects : Int32 → Option Object) (v : Int32) : Ty → Prop
  | .int => True
  | .bool => v = 0 ∨ v = 1
  | .null => v = -1
  | .ref c => v = -1 ∨ ∃ o, objects v = some o ∧ t.Below o.cls c
  | .arrow _ | .method _ | .cls _ => False

namespace HasType

variable {ctx : Context} {t : ClassTable} {objects objects' : Int32 → Option Object} {v : Int32}
  {ty u w : Ty}

/-- New objects change nothing for the values that were there before. -/
theorem mono (h : HasType t objects v ty) (ho : ∀ v o, objects v = some o → objects' v = some o) :
    HasType t objects' v ty := by
  cases ty with
  | ref c =>
    rcases h with h | ⟨o, hobj, hb⟩
    · exact .inl h
    · exact .inr ⟨o, ho v o hobj, hb⟩
  | _ => exact h

theorem truth (b : Bool) : HasType t objects (truth b) .bool := by
  cases b
  · exact .inl rfl
  · exact .inr rfl

/-- **A value of a type has every type above it.** A reference to a class is one to every class
above, and a boolean is an integer. -/
theorem subtype (h : HasType ctx.classes objects v ty) (hs : ctx.subtype ty u = true) :
    HasType ctx.classes objects v u := by
  cases ty <;> cases u <;>
    simp only [Context.subtype, Ty.subtype, Ty.related, Variance.orient, Ty.flatSubtype,
      Bool.false_eq_true] at hs
  case ref.ref c d =>
    rcases h with h | ⟨o, ho, hb⟩
    · exact .inl h
    · exact .inr ⟨o, ho, hb.trans (.of_inherits hs)⟩
  case null.ref => exact .inl h
  case bool.int => trivial
  all_goals exact h

theorem commonAncestor (h : Ty.commonAncestor? ctx.classes.hierarchy ty u = some w) :
    (HasType ctx.classes objects v ty → HasType ctx.classes objects v w) ∧
      (HasType ctx.classes objects v u → HasType ctx.classes objects v w) := by
  cases ty <;> cases u <;> simp only [Ty.commonAncestor?, Option.some.injEq, reduceCtorEq] at h
  case ref.ref c d =>
    have hd := List.find?_some h
    obtain ⟨e, he, rfl⟩ := List.mem_map.1 (List.mem_of_find?_eq_some h)
    refine ⟨fun hv ↦ ?_, fun hv ↦ @HasType.subtype ctx objects v (.ref d) _ hv hd⟩
    rcases hv with hv | ⟨o, ho, hb⟩
    · exact .inl hv
    · exact .inr ⟨o, ho, hb.trans (.of_mem_ancestors he)⟩
  all_goals
    subst h
    simp +contextual [HasType]

/-- The values of both branches have the type of a choice. -/
theorem condType (h : ctx.condType ty u = .ok w) :
    (HasType ctx.classes objects v ty → HasType ctx.classes objects v w) ∧
      (HasType ctx.classes objects v u → HasType ctx.classes objects v w) := by
  rw [Context.condType] at h
  split at h
  · rename_i hs
    obtain rfl := Except.ok.inj h
    exact ⟨fun hv ↦ hv.subtype hs, id⟩
  · split at h
    · rename_i hs
      obtain rfl := Except.ok.inj h
      exact ⟨id, fun hv ↦ hv.subtype hs⟩
    · split at h
      · rename_i hs
        obtain rfl := Except.ok.inj h
        exact commonAncestor hs
      · cases h

end HasType

/-! ## Signatures -/

/-- Something called by one signature can be passed what goes by another one, and gives back what
that promises. -/
structure Signature.Serves (ctx : Context) (s t : Signature) : Prop where
  /-- It takes the arguments. -/
  params : List.Forall₂ (fun p q ↦ ∀ objects v, HasType ctx.classes objects v q →
    HasType ctx.classes objects v p) s.params t.params
  /-- It gives back the result. -/
  ret : ∀ objects v, HasType ctx.classes objects v s.ret → HasType ctx.classes objects v t.ret

namespace Signature.Serves

variable {ctx : Context} {s t u : Signature}

theorem refl (ctx : Context) (s : Signature) : s.Serves ctx s :=
  ⟨List.forall₂_same.2 fun _ _ _ _ h ↦ h, fun _ _ h ↦ h⟩

theorem trans (h : s.Serves ctx t) (h' : t.Serves ctx u) : s.Serves ctx u := by
  refine ⟨?_, fun objects v hv ↦ h'.ret objects v (h.ret objects v hv)⟩
  have hall := h.params
  have hall' := h'.params
  generalize s.params = ps at hall
  generalize t.params = qs at hall hall'
  generalize u.params = rs at hall'
  induction hall generalizing rs with
  | nil =>
    cases hall'
    exact .nil
  | cons hp _ ih =>
    cases hall' with
    | cons hq hrest => exact .cons (fun o v hv ↦ hp o v (hq o v hv)) (ih _ hrest)

theorem of_subtype (h : Signature.subtype ctx.classes.hierarchy s t = true) : s.Serves ctx t := by
  obtain ⟨ps, r⟩ := s
  obtain ⟨qs, q⟩ := t
  simp only [Signature.subtype_mk, Bool.and_eq_true, beq_iff_eq] at h
  obtain ⟨⟨hlen, hr⟩, hall⟩ := h
  refine ⟨?_, fun objects v hv ↦ hv.subtype hr⟩
  simp only
  clear hr
  induction ps generalizing qs with
  | nil =>
    obtain rfl := List.length_eq_zero_iff.1 hlen.symm
    exact .nil
  | cons p ps ih =>
    cases qs with
    | nil => cases hlen
    | cons q qs =>
      simp only [List.zip_cons_cons, List.all_cons, Bool.and_eq_true] at hall
      exact .cons (fun objects v hv ↦ hv.subtype hall.1) (ih qs hall.2 (Nat.succ.inj hlen))

end Signature.Serves

/-! ## Members of classes below others -/

/-- A member may be used in the place of another one, whichever of the two ways of
using it there is. -/
structure Ty.Stands (ctx : Context) (ty u : Ty) : Prop where
  /-- Its values have the other type. -/
  value : ∀ objects v, HasType ctx.classes objects v ty → HasType ctx.classes objects v u
  /-- It can be called like the other one. -/
  method : ∀ s, u = .method s → ∃ s', ty = .method s' ∧ s'.Serves ctx s

namespace Ty.Stands

variable {ctx : Context} {ty u w : Ty}

theorem refl (ctx : Context) (ty : Ty) : ty.Stands ctx ty :=
  ⟨fun _ _ h ↦ h, fun s h ↦ ⟨s, h, .refl ctx s⟩⟩

theorem trans (h : ty.Stands ctx u) (h' : u.Stands ctx w) : ty.Stands ctx w := by
  refine ⟨fun objects v hv ↦ h'.value objects v (h.value objects v hv), fun s hs ↦ ?_⟩
  obtain ⟨s', hs', hserves⟩ := h'.method s hs
  obtain ⟨s'', hs'', hserves'⟩ := h.method s' hs'
  exact ⟨s'', hs'', hserves'.trans hserves⟩

theorem of_fits (h : ctx.Fits ty u) : ty.Stands ctx u := by
  rcases h with rfl | h | ⟨s, rfl, h⟩
  · exact .refl ctx ty
  · simp only [Context.fieldOverrides, Bool.and_eq_true, Bool.not_eq_true'] at h
    refine ⟨fun objects v hv ↦ hv.subtype h.2, fun s hs ↦ ?_⟩
    rw [hs] at h
    cases h.1
  · refine ⟨fun _ _ hv ↦ hv.elim, fun t ht ↦ ⟨s, rfl, ?_⟩⟩
    rw [ht] at h
    exact .of_subtype h

end Ty.Stands

/-- **A class has every member of a class above it at the same offset**, and it may be used in the
place of that one. -/
theorem Classes.members_below {ctx : Context} {t : ClassTable} {cs : List ClassDecl}
    (h : Classes ctx t cs) {c d : String} (hb : t.Below c d) {i : ClassInfo}
    (hi : t.info? c = some i) :
    ∃ j, t.info? d = some j ∧ ∀ x e, j.members.find? x = some e →
      ∃ e', i.members.find? x = some e' ∧ e'.offset = e.offset ∧ e'.ty.Stands ctx e.ty := by
  induction hb generalizing i with
  | refl c => exact ⟨i, hi, fun x e he ↦ ⟨e, he, rfl, .refl ctx e.ty⟩⟩
  | up hs _ ih =>
    obtain ⟨j, hj, hmembers⟩ := h.inherits hi hs
    obtain ⟨k, hk, hmembers'⟩ := ih hj
    refine ⟨k, hk, fun x e he ↦ ?_⟩
    obtain ⟨e', he', hoffset, hstands⟩ := hmembers' x e he
    obtain ⟨e'', he'', hoffset', hfits⟩ := hmembers x e' he'
    exact ⟨e'', he'', hoffset'.trans hoffset, (Ty.Stands.of_fits hfits).trans hstands⟩

end ObjectLet
