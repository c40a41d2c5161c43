import Mathlib.Logic.Relation
import Mathlib.Order.Defs.Unbundled
import ObjectLet.Proofs.Ancestry

/-!
# Subtyping as a partial order

Without cycles two classes that inherit from each other are the same, since the ways up from one to
the other would lead back otherwise.  So different types are never subtypes of each other.
Parameters are compared the other way round, but there both directions are asked for, so they
exchange their places (`Ty.related_antisymm`).

With cycles there are different classes that inherit from each other, and a search for a class that
is not there goes round for ever.  A class is still the first one to be met on the way up from
itself, so no search goes on when a type is compared with itself, whatever the hierarchy looks like.

* `Hierarchy.inherits_iff_reflTransGen`: **a class inherits from those that it extends, directly or
  not.**
* `Ty.subtype_antisymm`: **different types are not subtypes of each other.**
* `Ty.relatedWithin_refl`: **a type is compared with itself without going up.**
* `Hierarchy.subtype_order`: all of this together.
-/

set_option autoImplicit false

namespace ObjectLet

/-! ## Classes -/

namespace Hierarchy

variable {h : Hierarchy} {c d e : String} {n : Nat}

/-- One class is declared to extend another one. -/
def Extends (h : Hierarchy) (c d : String) : Prop := h.superclass? c = some d

theorem reflTransGen_of_above (hd : h.above n c = some d) :
    Relation.ReflTransGen h.Extends c d := by
  induction n generalizing c with
  | zero => rw [Option.some.inj hd]
  | succ n ih =>
    obtain ⟨s, hs, hd⟩ := Option.bind_eq_some_iff.1 hd
    exact (ih hd).head hs

theorem exists_above_of_reflTransGen (hcd : Relation.ReflTransGen h.Extends c d) :
    ∃ n, h.above n c = some d := by
  induction hcd using Relation.ReflTransGen.head_induction_on with
  | refl => exact ⟨0, rfl⟩
  | head hs _ ih =>
    obtain ⟨n, hn⟩ := ih
    exact ⟨n + 1, by rw [above, hs, Option.bind_some, hn]⟩

/-- **A class inherits from those that it extends, directly or not.** This holds in hierarchies
with cycles, too. -/
theorem inherits_iff_reflTransGen :
    h.inherits c d = true ↔ Relation.ReflTransGen h.Extends c d := by
  rw [inherits_iff]
  exact ⟨fun ⟨_, hn⟩ ↦ reflTransGen_of_above hn, exists_above_of_reflTransGen⟩

/-- Classes that inherit from each other are the same. -/
theorem Acyclic.inherits_antisymm (hacyclic : h.Acyclic) (hcd : h.inherits c d = true)
    (hdc : h.inherits d c = true) : c = d := by
  obtain ⟨m, hm⟩ := inherits_iff.1 hcd
  obtain ⟨n, hn⟩ := inherits_iff.1 hdc
  cases m with
  | zero => exact Option.some.inj hm
  | succ m =>
    -- the way there and back is a cycle
    have hround : h.above (m + n + 1) c = some c := by
      rw [Nat.add_right_comm, above_add, hm, Option.bind_some, hn]
    exact absurd hround (hacyclic c (m + n))

/-- A class is the first one on the way up from itself. -/
theorem inheritsWithin_refl (h : Hierarchy) (n : Nat) (c : String) :
    h.inheritsWithin (n + 1) c c = some true := by
  rw [inheritsWithin, climb?, beq_self_eq_true]
  rfl

end Hierarchy

/-! ## Types -/

section Antisymmetry

variable {h : Hierarchy}

theorem Ty.flatSubtype_antisymm (hacyclic : h.Acyclic) {t u : Ty}
    (htu : Ty.flatSubtype h t u = true) (hut : Ty.flatSubtype h u t = true) : t = u := by
  cases t <;> cases u <;> simp_all [Ty.flatSubtype]
  exact hacyclic.inherits_antisymm htu hut

/-- Types that are neither functions nor methods are the same if they are related in both
directions. -/
theorem Variance.orient_antisymm (hacyclic : h.Acyclic) {v : Variance} {t u : Ty}
    (htu : v.orient (Ty.flatSubtype h) t u = true) (hut : v.orient (Ty.flatSubtype h) u t = true) :
    t = u := by
  cases v with
  | co => exact Ty.flatSubtype_antisymm hacyclic htu hut
  | contra => exact Ty.flatSubtype_antisymm hacyclic hut htu

mutual

/-- Types that are related both ways round are the same, for both directions at once. -/
theorem Ty.related_antisymm (hacyclic : h.Acyclic) (v : Variance) : ∀ t u : Ty,
    t.related h v u = true → u.related h v t = true → t = u
  | .arrow s, u, htu, hut => by
    cases u with
    | arrow s' => rw [Signature.related_antisymm hacyclic v s s' htu hut]
    | _ => cases v <;> cases htu
  | .method s, u, htu, hut => by
    cases u with
    | method s' => rw [Signature.related_antisymm hacyclic v s s' htu hut]
    | _ => cases v <;> cases htu
  | .int, u, htu, hut | .bool, u, htu, hut | .null, u, htu, hut | .ref _, u, htu, hut
  | .cls _, u, htu, hut => by
    cases u with
    | arrow s' => cases v <;> cases htu
    | method s' => cases v <;> cases htu
    | _ => exact Variance.orient_antisymm hacyclic htu hut
termination_by structural t => t

theorem Signature.related_antisymm (hacyclic : h.Acyclic) (v : Variance) : ∀ s t : Signature,
    s.related h v t = true → t.related h v s = true → s = t
  | ⟨ps, r⟩, ⟨qs, q⟩, hst, hts => by
    simp only [Signature.related, Bool.and_eq_true, beq_iff_eq] at hst hts
    rw [Ty.related_antisymm hacyclic v r q hst.1.2 hts.1.2,
      Ty.relatedAll_antisymm hacyclic v.flip ps qs hst.1.1 hst.2 hts.2]
termination_by structural s => s

theorem Ty.relatedAll_antisymm (hacyclic : h.Acyclic) (v : Variance) : ∀ ts us : List Ty,
    ts.length = us.length → Ty.relatedAll h v ts us = true → Ty.relatedAll h v us ts = true →
      ts = us
  | [], us, hlen, _, _ => (List.length_eq_zero_iff.1 hlen.symm).symm
  | t :: ts, us, hlen, htu, hut => by
    cases us with
    | nil => cases hlen
    | cons u us =>
      simp only [Ty.relatedAll, Bool.and_eq_true] at htu hut
      rw [Ty.related_antisymm hacyclic v t u htu.1 hut.1,
        Ty.relatedAll_antisymm hacyclic v ts us (Nat.succ.inj hlen) htu.2 hut.2]
termination_by structural ts => ts

end

/-- **Different types are not subtypes of each other**, unless there is a cycle of classes. -/
theorem Ty.subtype_antisymm (hacyclic : h.Acyclic) {t u : Ty} (htu : t.subtype h u = true)
    (hut : u.subtype h t = true) : t = u := Ty.related_antisymm hacyclic .co t u htu hut

theorem Signature.subtype_antisymm (hacyclic : h.Acyclic) {s t : Signature}
    (hst : s.subtype h t = true) (hts : t.subtype h s = true) : s = t :=
  Signature.related_antisymm hacyclic .co s t hst hts

end Antisymmetry

/-! ## A type and itself -/

mutual

/-- **A type is compared with itself without going up**, in both directions.  So it does not matter
whether there are cycles. -/
theorem Ty.relatedWithin_refl (h : Hierarchy) (n : Nat) (v : Variance) :
    ∀ t : Ty, t.relatedWithin h (n + 1) v t = some true
  | .arrow s | .method s => Signature.relatedWithin_refl h n v s
  | .int | .bool | .null => by cases v <;> rfl
  | .ref c => by cases v <;> exact h.inheritsWithin_refl n c
  | .cls s => by cases v <;> exact congrArg some (decide_eq_true rfl)
termination_by structural t => t

theorem Signature.relatedWithin_refl (h : Hierarchy) (n : Nat) (v : Variance) :
    ∀ s : Signature, s.relatedWithin h (n + 1) v s = some true
  | ⟨ps, r⟩ => by
    rw [Signature.relatedWithin, Ty.relatedWithin_refl h n v r,
      Ty.relatedAllWithin_refl h n v.flip ps, beq_self_eq_true]
    rfl
termination_by structural s => s

theorem Ty.relatedAllWithin_refl (h : Hierarchy) (n : Nat) (v : Variance) :
    ∀ ts : List Ty, Ty.relatedAllWithin h (n + 1) v ts ts = some true
  | [] => rfl
  | t :: ts => by
    rw [Ty.relatedAllWithin, Ty.relatedWithin_refl h n v t, Ty.relatedAllWithin_refl h n v ts]
    rfl
termination_by structural ts => ts

end

/-! ## The order -/

/-- **Subtyping is a partial order**, on types and on signatures, in every hierarchy without cycles,
and one class inherits from another one if it extends it, directly or not.  These are the answers of
searches that are not cut off.  In a hierarchy with cycles, too, every type, signature and class is
below itself, and one look at each class is enough to find that out. -/
theorem Hierarchy.subtype_order (h : Hierarchy) :
    (h.Acyclic →
      IsPartialOrder Ty (fun t u ↦ t.subtype h u = true) ∧
        IsPartialOrder Signature (fun s t ↦ s.subtype h t = true) ∧
        (∀ c d, h.inherits c d = true ↔ Relation.ReflTransGen h.Extends c d) ∧
        h.Decides (h.links.size + 1)) ∧
      ∀ n, 0 < n →
        (∀ t : Ty, t.subtypeWithin h n t = some true) ∧
          (∀ s : Signature, s.subtypeWithin h n s = some true) ∧
          ∀ c, h.inheritsWithin n c c = some true := by
  constructor
  · intro hacyclic
    refine ⟨{ refl := Ty.subtype_refl h, trans := ?_, antisymm := ?_ },
      { refl := Signature.subtype_refl h, trans := ?_, antisymm := ?_ },
      fun _ _ ↦ inherits_iff_reflTransGen, hacyclic.decides (Nat.le_refl _)⟩
    · exact fun _ _ _ ↦ Ty.subtype_trans
    · exact fun _ _ ↦ Ty.subtype_antisymm hacyclic
    · exact fun _ _ _ ↦ Signature.subtype_trans
    · exact fun _ _ ↦ Signature.subtype_antisymm hacyclic
  · intro n hn
    obtain ⟨n, rfl⟩ := Nat.exists_eq_add_one_of_ne_zero hn.ne'
    exact ⟨Ty.relatedWithin_refl h n .co, Signature.relatedWithin_refl h n .co,
      h.inheritsWithin_refl n⟩

namespace Kennel

/-- Puppies are dogs, and dogs and cats are animals. -/
def hierarchy : Hierarchy := ⟨.ofList [("Dog", "Animal"), ("Puppy", "Dog"), ("Cat", "Animal")]⟩

/-- The egg comes from the hen, and the hen from the egg. -/
def circle : Hierarchy := ⟨.ofList [("Egg", "Hen"), ("Hen", "Egg")]⟩

/-- What takes a function from puppies to animals, and gives a dog. -/
def narrow : Ty := .arrow ⟨[.arrow ⟨[.ref "Puppy"], .ref "Animal"⟩], .ref "Dog"⟩

/-- What takes a function from dogs to animals, and gives an animal. -/
def wide : Ty := .arrow ⟨[.arrow ⟨[.ref "Dog"], .ref "Animal"⟩], .ref "Animal"⟩

theorem acyclic_hierarchy : hierarchy.Acyclic := by
  refine Hierarchy.acyclic_of_rank (fun c ↦ ["Animal", "Dog", "Cat", "Puppy"].idxOf c)
    fun c s hs ↦ ?_
  have hkey := Table.contains_iff_mem_keys.1 (Option.isSome_of_eq_some hs)
  have hkeys : hierarchy.links.keys = ["Dog", "Puppy", "Cat"] := by decide +kernel
  rw [hkeys] at hkey
  simp only [List.mem_cons, List.not_mem_nil, or_false] at hkey
  rcases hkey with rfl | rfl | rfl <;> rw [← Option.some.inj hs] <;> decide +kernel

/-- What is wide is no subtype of what is narrow, and what comes from itself is a
subtype of itself. -/
theorem hierarchy_ordered :
    hierarchy.Acyclic ∧ narrow.subtype hierarchy wide = true ∧
      wide.subtype hierarchy narrow ≠ true ∧
      Relation.ReflTransGen hierarchy.Extends "Puppy" "Animal" ∧ 0 < 1 ∧
      circle.superclass? "Egg" = some "Hen" ∧ circle.superclass? "Hen" = some "Egg" ∧
      (Ty.arrow ⟨[.ref "Egg"], .ref "Hen"⟩).subtypeWithin circle 1
        (.arrow ⟨[.ref "Egg"], .ref "Hen"⟩) = some true := by
  obtain ⟨horder, -, hinherits, -⟩ := (Hierarchy.subtype_order hierarchy).1 acyclic_hierarchy
  have hbelow : narrow.subtype hierarchy wide = true := by decide +kernel
  refine ⟨acyclic_hierarchy, hbelow, fun habove ↦ ?_, (hinherits _ _).1 (by decide +kernel),
    Nat.one_pos, by decide +kernel, by decide +kernel,
    ((Hierarchy.subtype_order circle).2 1 Nat.one_pos).1 _⟩
  exact absurd (horder.antisymm _ _ hbelow habove) (by decide +kernel)

end Kennel

end ObjectLet
