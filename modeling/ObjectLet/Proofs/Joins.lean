import ObjectLet.Proofs.Order
import ObjectLet.Proofs.Checking
import ObjectLet.Proofs.Typings

/-!
# Least common supertypes

The nearest common ancestor of two classes is searched for above the first of them, and each
class on the way is compared with the second one.  All the same it does not matter which of the
two is the first: what is found is below every type that is above both, and without cycles there
is only one such type.

* `Ty.IsJoin`: a type is the least one above two given ones.
* `Ty.commonAncestor?_eq_some_iff`: **the nearest common ancestor is the least common supertype.**
* `Ty.commonAncestor?_comm`, `Ty.commonAncestor?_assoc`: so order and grouping do not matter.
* `Context.condType_eq`: **a choice has the least common supertype of its branches as its type.**
* `Hierarchy.branches_join`: all of this together.
-/

set_option autoImplicit false

namespace ObjectLet

/-! ## Types above two given ones -/

/-- The types of integers, booleans, objects and `null`.  Values of other types cannot be had. -/
def Ty.Plain : Ty → Prop
  | .int | .bool | .null | .ref _ => True
  | .arrow _ | .method _ | .cls _ => False

/-- A type is above two others. -/
structure Ty.Bounds (h : Hierarchy) (t u w : Ty) : Prop where
  /-- It is above the first one. -/
  left : t.subtype h w = true
  /-- It is above the second one. -/
  right : u.subtype h w = true

/-- A type is the least one above two others.  There is at most one such type if the
hierarchy has no cycles. -/
structure Ty.IsJoin (h : Hierarchy) (t u w : Ty) : Prop extends Ty.Bounds h t u w where
  /-- It is below every type above both. -/
  least : ∀ v, Ty.Bounds h t u v → w.subtype h v = true

section Bounds

variable {h : Hierarchy} {t u v w w' x : Ty} {c d : String}

theorem Ty.Bounds.symm (hw : Ty.Bounds h t u w) : Ty.Bounds h u t w := ⟨hw.right, hw.left⟩

theorem Ty.IsJoin.symm (hw : Ty.IsJoin h t u w) : Ty.IsJoin h u t w :=
  ⟨hw.toBounds.symm, fun v hv ↦ hw.least v hv.symm⟩

theorem Ty.IsJoin.unique (hacyclic : h.Acyclic) (hw : Ty.IsJoin h t u w)
    (hw' : Ty.IsJoin h t u w') : w = w' :=
  Ty.subtype_antisymm hacyclic (hw.least w' hw'.toBounds) (hw'.least w hw.toBounds)

/-- The greater one of two types is the least one above both. -/
theorem Ty.isJoin_of_subtype (htu : t.subtype h u = true) : Ty.IsJoin h t u u :=
  ⟨⟨htu, Ty.subtype_refl h u⟩, fun _ hv ↦ hv.right⟩

/-- Joins of three types are the same, however they are grouped. -/
theorem Ty.IsJoin.assoc (hx : Ty.IsJoin h t u x) (hw : Ty.IsJoin h x v w)
    (hx' : Ty.IsJoin h u v w') : Ty.IsJoin h t w' w := by
  have hle : w'.subtype h w = true :=
    hx'.least w ⟨Ty.subtype_trans hx.right hw.left, hw.right⟩
  refine ⟨⟨Ty.subtype_trans hx.left hw.left, hle⟩, fun y hy ↦ hw.least y ⟨?_, ?_⟩⟩
  · exact hx.least y ⟨hy.left, Ty.subtype_trans hx'.left hy.right⟩
  · exact Ty.subtype_trans hx'.right hy.right

/-! ## Plain types -/

/-- What is above a class is a class that it inherits from. -/
theorem Ty.eq_ref_of_subtype (hc : (Ty.ref c).subtype h u = true) :
    ∃ d, u = .ref d ∧ h.inherits c d = true := by
  cases u with
  | ref d => exact ⟨d, rfl, hc⟩
  | _ => cases hc

/-- Whether this is the type of objects or of `null`. -/
def Ty.isReference : Ty → Bool
  | .null | .ref _ => true
  | _ => false

/-- References are never mixed with numbers, on either side of the relation. -/
theorem Ty.isReference_of_subtype (htu : t.subtype h u = true) : t.isReference = u.isReference := by
  cases t <;> cases u <;> first | rfl | cases htu

theorem Ty.Plain.of_subtype (ht : t.Plain) (htu : t.subtype h u = true) : u.Plain := by
  cases t <;> cases u <;> trivial

end Bounds

/-! ## Nearest common ancestors -/

/-- What is found on the way up from a class is the first that there is to be found. -/
theorem Hierarchy.find?_ancestors {h : Hierarchy} {p : String → Bool} {n : Nat} {c e : String}
    (he : (h.ancestors n c).find? p = some e) :
    ∃ k, h.above k c = some e ∧ ∀ j < k, ∀ d, h.above j c = some d → p d = false := by
  induction n generalizing c with
  | zero => cases he
  | succ n ih =>
    rw [ancestors, List.find?_cons] at he
    cases hc : p c with
    | true =>
      rw [hc] at he
      exact ⟨0, he, fun j hj ↦ absurd hj (Nat.not_lt_zero j)⟩
    | false =>
      rw [hc] at he
      cases hs : h.superclass? c with
      | none => simp [hs] at he
      | some s =>
        rw [hs] at he
        obtain ⟨k, hk, hbefore⟩ := ih he
        refine ⟨k + 1, by rw [above, hs, Option.bind_some, hk], fun j hj d hd ↦ ?_⟩
        cases j with
        | zero => rw [← Option.some.inj hd, hc]
        | succ j =>
          rw [above, hs, Option.bind_some] at hd
          exact hbefore j (Nat.lt_of_succ_lt_succ hj) d hd

namespace Ty

variable {h : Hierarchy} {t u v w : Ty} {c d : String}

theorem commonAncestor?_ref (h : Hierarchy) (c d : String) :
    commonAncestor? h (.ref c) (.ref d) = ((h.lineage c).find? (h.inherits d)).map .ref := by
  rw [commonAncestor?, List.find?_map]
  rfl

/-- The class that is found first is below every other one that could be found. -/
theorem isJoin_ref {e : String} (he : (h.lineage c).find? (h.inherits d) = some e) :
    IsJoin h (.ref c) (.ref d) (.ref e) := by
  obtain ⟨k, hk, hbefore⟩ := Hierarchy.find?_ancestors he
  have hde : h.inherits d e = true := List.find?_some he
  refine ⟨⟨Hierarchy.inherits_iff.2 ⟨k, hk⟩, hde⟩, fun v hv ↦ ?_⟩
  obtain ⟨x, rfl, hx⟩ := eq_ref_of_subtype hv.left
  obtain ⟨j, hj⟩ := Hierarchy.inherits_iff.1 hx
  -- a class that is met before does not pass the test
  have hkj : k ≤ j := by
    by_contra hlt
    have hfalse := hbefore j (Nat.lt_of_not_le hlt) x hj
    have htrue : h.inherits d x = true := hv.right
    rw [hfalse] at htrue
    cases htrue
  obtain ⟨i, rfl⟩ := Nat.exists_eq_add_of_le hkj
  rw [Hierarchy.above_add, hk, Option.bind_some] at hj
  exact Hierarchy.inherits_iff.2 ⟨i, hj⟩

/-- What is above both of two classes is above the one that is found. -/
theorem exists_commonAncestor?_ref (hv : Bounds h (.ref c) (.ref d) v) :
    ∃ e, (h.lineage c).find? (h.inherits d) = some e := by
  obtain ⟨x, rfl, hx⟩ := eq_ref_of_subtype hv.left
  refine Option.isSome_iff_exists.1 (List.find?_isSome.2 ⟨x, ?_, hv.right⟩)
  exact List.contains_iff_mem.1 hx

/-- **The nearest common ancestor is below all common supertypes.** For two classes it is the first
one above the first of them that is also above the second one. -/
theorem isJoin_of_commonAncestor? (hw : commonAncestor? h t u = some w) : IsJoin h t u w := by
  rw [commonAncestor?.eq_def] at hw
  split at hw
  · exact Option.some.inj hw ▸ isJoin_of_subtype rfl
  · exact Option.some.inj hw ▸ isJoin_of_subtype rfl
  · exact Option.some.inj hw ▸ (isJoin_of_subtype rfl).symm
  · rename_i c d
    rw [← commonAncestor?, commonAncestor?_ref] at hw
    obtain ⟨e, he, rfl⟩ := Option.map_eq_some_iff.1 hw
    exact isJoin_ref he
  · exact Option.some.inj hw ▸ isJoin_of_subtype rfl
  · exact Option.some.inj hw ▸ isJoin_of_subtype rfl
  · exact Option.some.inj hw ▸ (isJoin_of_subtype rfl).symm
  · exact Option.some.inj hw ▸ isJoin_of_subtype rfl
  · cases hw

/-- **Plain types with a common supertype have a nearest common ancestor.** The search goes all the
way up, so it does not miss one. -/
theorem exists_commonAncestor? (ht : t.Plain) (hu : u.Plain) (hv : Bounds h t u v) :
    ∃ w, commonAncestor? h t u = some w := by
  have hsort : t.isReference = u.isReference :=
    (isReference_of_subtype hv.left).trans (isReference_of_subtype hv.right).symm
  cases t with
  | arrow s | method s | cls s => exact ht.elim
  | int =>
    cases u with
    | int | bool => exact ⟨.int, rfl⟩
    | null | ref d => cases hsort
    | arrow s | method s | cls s => exact hu.elim
  | bool =>
    cases u with
    | int => exact ⟨.int, rfl⟩
    | bool => exact ⟨.bool, rfl⟩
    | null | ref d => cases hsort
    | arrow s | method s | cls s => exact hu.elim
  | null =>
    cases u with
    | null => exact ⟨.null, rfl⟩
    | ref d => exact ⟨.ref d, rfl⟩
    | int | bool => cases hsort
    | arrow s | method s | cls s => exact hu.elim
  | ref c =>
    cases u with
    | null => exact ⟨.ref c, rfl⟩
    | ref d =>
      obtain ⟨e, he⟩ := exists_commonAncestor?_ref hv
      exact ⟨.ref e, by rw [commonAncestor?_ref, he]; rfl⟩
    | int | bool => cases hsort
    | arrow s | method s | cls s => exact hu.elim

/-- **The nearest common ancestor is the least common supertype**, and the other way round, since
without cycles there is only one. -/
theorem commonAncestor?_eq_some_iff (hacyclic : h.Acyclic) (ht : t.Plain) (hu : u.Plain) :
    commonAncestor? h t u = some w ↔ IsJoin h t u w := by
  refine ⟨isJoin_of_commonAncestor?, fun hw ↦ ?_⟩
  obtain ⟨w', hw'⟩ := exists_commonAncestor? ht hu hw.toBounds
  rw [hw', (isJoin_of_commonAncestor? hw').unique hacyclic hw]

theorem commonAncestor?_isSome_iff (ht : t.Plain) (hu : u.Plain) :
    (commonAncestor? h t u).isSome = true ↔ ∃ v, Bounds h t u v := by
  rw [Option.isSome_iff_exists]
  exact ⟨fun ⟨w, hw⟩ ↦ ⟨w, (isJoin_of_commonAncestor? hw).toBounds⟩,
    fun ⟨_, hv⟩ ↦ exists_commonAncestor? ht hu hv⟩

/-- It does not matter which type comes first. -/
theorem commonAncestor?_comm (hacyclic : h.Acyclic) (ht : t.Plain) (hu : u.Plain) :
    commonAncestor? h t u = commonAncestor? h u t := by
  refine Option.ext fun w ↦ ?_
  rw [commonAncestor?_eq_some_iff hacyclic ht hu, commonAncestor?_eq_some_iff hacyclic hu ht]
  exact ⟨IsJoin.symm, IsJoin.symm⟩

/-- It does not matter how three types are grouped: either way of grouping them has the same answer,
or both have none. -/
theorem commonAncestor?_assoc (hacyclic : h.Acyclic) (ht : t.Plain) (hu : u.Plain) (hv : v.Plain) :
    ((commonAncestor? h t u).bind fun x ↦ commonAncestor? h x v) =
      (commonAncestor? h u v).bind fun x ↦ commonAncestor? h t x := by
  refine Option.ext fun w ↦ ?_
  simp only [Option.bind_eq_some_iff]
  constructor
  · rintro ⟨x, hx, hw⟩
    have hx := isJoin_of_commonAncestor? hx
    have hw := isJoin_of_commonAncestor? hw
    obtain ⟨y, hy⟩ := exists_commonAncestor? hu hv ⟨subtype_trans hx.right hw.left, hw.right⟩
    have hy' := isJoin_of_commonAncestor? hy
    exact ⟨y, hy, (commonAncestor?_eq_some_iff hacyclic ht (hu.of_subtype hy'.left)).2
      (hx.assoc hw hy')⟩
  · rintro ⟨y, hy, hw⟩
    have hy := isJoin_of_commonAncestor? hy
    have hw := isJoin_of_commonAncestor? hw
    obtain ⟨x, hx⟩ := exists_commonAncestor? ht hu ⟨hw.left, subtype_trans hy.left hw.right⟩
    have hx' := isJoin_of_commonAncestor? hx
    exact ⟨x, hx, (commonAncestor?_eq_some_iff hacyclic (ht.of_subtype hx'.left) hv).2
      (hy.symm.assoc hw.symm hx'.symm).symm⟩

end Ty

/-! ## Choices -/

namespace Checked

variable {α β : Type} {x : Checked α} {f g : α → Checked β} {a : α}

theorem result_bind_of_ok (ha : x.result = .ok a) : (x >>= f).result = (f a).result := by
  simp only [bind, ha]

theorem result_bind_congr (h : ∀ a, (f a).result = (g a).result) :
    (x >>= f).result = (x >>= g).result := by
  simp only [bind]
  cases x.result with
  | ok a => exact h a
  | error e => rfl

end Checked

namespace Context

variable {ctx : Context} {t u w : Ty}

/-- Whether one branch is below the other need not be asked. -/
theorem condType_eq (hacyclic : ctx.classes.hierarchy.Acyclic) (ht : t.Plain) (hu : u.Plain) :
    ctx.condType t u =
      match Ty.commonAncestor? ctx.classes.hierarchy t u with
      | some w => .ok w
      | none => .error .incompatibleBranches := by
  rw [condType]
  split
  · rename_i htu
    rw [(Ty.commonAncestor?_eq_some_iff hacyclic ht hu).2 (Ty.isJoin_of_subtype htu)]
  · split
    · rename_i hut
      rw [(Ty.commonAncestor?_eq_some_iff hacyclic ht hu).2 (Ty.isJoin_of_subtype hut).symm]
    · rfl

/-- **A choice has the least common supertype of its branches as its type**, also where one of the
branches has that type already. -/
theorem condType_eq_ok_iff (hacyclic : ctx.classes.hierarchy.Acyclic) (ht : t.Plain)
    (hu : u.Plain) :
    ctx.condType t u = .ok w ↔ Ty.IsJoin ctx.classes.hierarchy t u w := by
  rw [condType_eq hacyclic ht hu, ← Ty.commonAncestor?_eq_some_iff hacyclic ht hu]
  cases Ty.commonAncestor? ctx.classes.hierarchy t u <;> simp

/-- A choice is refused if its branches have no common supertype. -/
theorem condType_eq_error_iff (hacyclic : ctx.classes.hierarchy.Acyclic) (ht : t.Plain)
    (hu : u.Plain) :
    ctx.condType t u = .error .incompatibleBranches ↔
      ¬∃ v, Ty.Bounds ctx.classes.hierarchy t u v := by
  rw [condType_eq hacyclic ht hu, ← Ty.commonAncestor?_isSome_iff ht hu]
  cases Ty.commonAncestor? ctx.classes.hierarchy t u <;> simp

theorem condType_comm (hacyclic : ctx.classes.hierarchy.Acyclic) (ht : t.Plain) (hu : u.Plain) :
    ctx.condType t u = ctx.condType u t := by
  rw [condType_eq hacyclic ht hu, condType_eq hacyclic hu ht,
    Ty.commonAncestor?_comm hacyclic ht hu]

end Context

section Choices

variable {ctx : Context} {site : Site} {c a b : Expr} {t u v : Ty}

/-- The type of a choice depends on the types of its branches only. -/
theorem Expr.result_cond (ha : (a.check ctx).result = .ok t) (hb : (b.check ctx).result = .ok u) :
    ((Expr.cond site c a b).check ctx).result =
      (do
        let v ← c.check ctx
        .require site (ctx.subtype v .bool) .nonBooleanCondition
        .judge site (ctx.condType t u) : Checked Ty).result := by
  rw [Expr.check]
  refine Checked.result_bind_congr fun v ↦ Checked.result_bind_congr fun _ ↦ ?_
  rw [Checked.result_bind_of_ok ha, Checked.result_bind_of_ok hb]

theorem Expr.result_cond_of_bool (hc : (c.check ctx).result = .ok v)
    (hv : ctx.subtype v .bool = true) (ha : (a.check ctx).result = .ok t)
    (hb : (b.check ctx).result = .ok u) :
    ((Expr.cond site c a b).check ctx).result
      = (Checked.judge site (ctx.condType t u)).result := by
  have hbool : (Checked.require site (ctx.subtype v .bool) .nonBooleanCondition).result = .ok () :=
    Checked.result_require.2 hv
  rw [Expr.result_cond ha hb, Checked.result_bind_of_ok hc, Checked.result_bind_of_ok hbool]

/-- With plain types it does not matter which branch comes first. -/
theorem Expr.result_cond_comm (site : Site) (c : Expr) (hacyclic : ctx.classes.hierarchy.Acyclic)
    (ht : t.Plain) (hu : u.Plain) (ha : (a.check ctx).result = .ok t)
    (hb : (b.check ctx).result = .ok u) :
    ((Expr.cond site c b a).check ctx).result = ((Expr.cond site c a b).check ctx).result := by
  rw [Expr.result_cond ha hb, Expr.result_cond hb ha, Context.condType_comm hacyclic ht hu]

/-- A choice that can be checked is refused if its branches have no common supertype, and this is
the error that is reported. -/
theorem Expr.typeErrors_cond_iff (hacyclic : ctx.classes.hierarchy.Acyclic) (ht : t.Plain)
    (hu : u.Plain) (hc : (c.check ctx).result = .ok v) (hv : ctx.subtype v .bool = true)
    (ha : (a.check ctx).result = .ok t) (hb : (b.check ctx).result = .ok u) :
    typeErrors ((Expr.cond site c a b).check ctx).remarks = [⟨.incompatibleBranches, site.line⟩] ↔
      ¬∃ v, Ty.Bounds ctx.classes.hierarchy t u v := by
  rw [Expr.check_accounts, Expr.result_cond_of_bool hc hv ha hb,
    ← Context.condType_eq_error_iff hacyclic ht hu]
  cases ctx.condType t u <;> simp [Checked.judge, Checked.typed, Checked.fail, Checked.reported]

end Choices

/-! ## Branches and their type -/

/-- **The type of a choice is the least common supertype of its branches**, if these have plain
types and there are no cycles.  The search for a common ancestor finds it, whenever there is a
common supertype at all, and its answers do not depend on order and grouping.  So the branches of a
choice can be exchanged, and if it gets as far as them, the choice is refused exactly when they have
no common supertype. -/
theorem Hierarchy.branches_join {h : Hierarchy} (hacyclic : h.Acyclic) {t u : Ty} (ht : t.Plain)
    (hu : u.Plain) :
    (((Ty.commonAncestor? h t u).isSome = true ↔ ∃ v, Ty.Bounds h t u v) ∧
      (∀ w, Ty.commonAncestor? h t u = some w ↔ Ty.IsJoin h t u w) ∧
      Ty.commonAncestor? h t u = Ty.commonAncestor? h u t ∧
      ∀ v, v.Plain → ((Ty.commonAncestor? h t u).bind fun x ↦ Ty.commonAncestor? h x v) =
        (Ty.commonAncestor? h u v).bind fun x ↦ Ty.commonAncestor? h t x) ∧
      ∀ (ctx : Context) (site : Site) (c a b : Expr), ctx.classes.hierarchy = h →
        (a.check ctx).result = .ok t → (b.check ctx).result = .ok u →
          (((Expr.cond site c b a).check ctx).result = ((Expr.cond site c a b).check ctx).result ∧
            typeErrors ((Expr.cond site c b a).check ctx).remarks
              = typeErrors ((Expr.cond site c a b).check ctx).remarks) ∧
            ∀ v, (c.check ctx).result = .ok v → ctx.subtype v .bool = true →
              (∀ w, ((Expr.cond site c a b).check ctx).result = .ok w ↔ Ty.IsJoin h t u w) ∧
                (∀ w, ((Expr.cond site c a b).check ctx).result = .ok w →
                  .typed site.id w ∈ ((Expr.cond site c a b).check ctx).remarks) ∧
                (typeErrors ((Expr.cond site c a b).check ctx).remarks
                    = [⟨.incompatibleBranches, site.line⟩] ↔
                  ¬∃ v, Ty.Bounds h t u v) := by
  refine ⟨⟨Ty.commonAncestor?_isSome_iff ht hu,
    fun w ↦ Ty.commonAncestor?_eq_some_iff hacyclic ht hu, Ty.commonAncestor?_comm hacyclic ht hu,
    fun v hv ↦ Ty.commonAncestor?_assoc hacyclic ht hu hv⟩, ?_⟩
  rintro ctx site c a b rfl ha hb
  have hcomm := Expr.result_cond_comm site c hacyclic ht hu ha hb
  refine ⟨⟨hcomm, ?_⟩, fun v hc hv ↦ ⟨fun w ↦ ?_, fun w hw ↦ (Expr.notes_check hw).own,
    Expr.typeErrors_cond_iff hacyclic ht hu hc hv ha hb⟩⟩
  · rw [Expr.check_accounts, Expr.check_accounts, hcomm]
  · rw [Expr.result_cond_of_bool hc hv ha hb, Checked.result_judge,
      Context.condType_eq_ok_iff hacyclic ht hu]

namespace Kennel

/-- A puppy, a cat and a stone are known. -/
def context : Context where
  classes := ⟨∅, hierarchy⟩
  resolutions := .ofList [(1, ⟨⟨0, .ref "Puppy", -2⟩, 0⟩), (2, ⟨⟨0, .ref "Cat", -3⟩, 0⟩),
    (3, ⟨⟨0, .ref "Stone", -4⟩, 0⟩)]

/-- Either the puppy or the cat. -/
def pet : Expr := .cond ⟨5, 1⟩ (.bool ⟨4, 1⟩ true) (.ident ⟨1, 1⟩ "puppy") (.ident ⟨2, 1⟩ "cat")

/-- Either the puppy or the stone. -/
def thing : Expr := .cond ⟨5, 1⟩ (.bool ⟨4, 1⟩ true) (.ident ⟨1, 1⟩ "puppy") (.ident ⟨3, 1⟩ "stone")

/-- Puppies and cats are animals, and of puppies and stones no more can be said. -/
theorem pets_join :
    hierarchy.Acyclic ∧ (Ty.ref "Puppy").Plain ∧ (Ty.ref "Cat").Plain ∧ (Ty.ref "Stone").Plain ∧
      (Ty.ref "Dog").Plain ∧
      ((Expr.ident ⟨1, 1⟩ "puppy").check context).result = .ok (.ref "Puppy") ∧
      ((Expr.ident ⟨2, 1⟩ "cat").check context).result = .ok (.ref "Cat") ∧
      ((Expr.bool ⟨4, 1⟩ true).check context).result = .ok .bool ∧
      context.subtype .bool .bool = true ∧
      Ty.IsJoin hierarchy (.ref "Puppy") (.ref "Cat") (.ref "Animal") ∧
      ((Ty.commonAncestor? hierarchy (.ref "Cat") (.ref "Dog")).bind fun x ↦
        Ty.commonAncestor? hierarchy (.ref "Puppy") x) = some (.ref "Animal") ∧
      (pet.check context).result = .ok (.ref "Animal") ∧
      typeErrors (thing.check context).remarks = [⟨.incompatibleBranches, 1⟩] ∧
      ¬∃ v, Ty.Bounds hierarchy (.ref "Puppy") (.ref "Stone") v := by
  have hpuppy : ((Expr.ident ⟨1, 1⟩ "puppy").check context).result = .ok (.ref "Puppy") := rfl
  have hcat : ((Expr.ident ⟨2, 1⟩ "cat").check context).result = .ok (.ref "Cat") := rfl
  have hstone : ((Expr.ident ⟨3, 1⟩ "stone").check context).result = .ok (.ref "Stone") := rfl
  obtain ⟨⟨-, hjoin, -, hassoc⟩, hpet⟩ :=
    Hierarchy.branches_join acyclic_hierarchy (t := .ref "Puppy") (u := .ref "Cat") trivial trivial
  obtain ⟨-, hthing⟩ :=
    Hierarchy.branches_join acyclic_hierarchy (t := .ref "Puppy") (u := .ref "Stone") trivial
      trivial
  have hanimal := (hjoin (.ref "Animal")).1 (by decide +kernel)
  have hrefused : typeErrors (thing.check context).remarks = [⟨.incompatibleBranches, 1⟩] := by
    decide +kernel
  refine ⟨acyclic_hierarchy, trivial, trivial, trivial, trivial, hpuppy, hcat, rfl, rfl, hanimal,
    ?_, ?_, hrefused, ?_⟩
  · rw [← hassoc (.ref "Dog") trivial]
    decide +kernel
  · exact (((hpet context _ (.bool ⟨4, 1⟩ true) _ _ rfl hpuppy hcat).2 .bool rfl rfl).1 _).2 hanimal
  · exact ((hthing context ⟨5, 1⟩ (.bool ⟨4, 1⟩ true) _ _ rfl hpuppy hstone).2 .bool rfl rfl).2.2.1
      hrefused

end Kennel

end ObjectLet
