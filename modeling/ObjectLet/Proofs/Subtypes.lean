import Mathlib.Data.Finset.Card
import ObjectLet.Ty.Subtyping

/-!
# The order of types

`Ty.subtype` is reflexive and transitive, whatever the class hierarchy looks like.  Two things make
this less than obvious.  The lineage of a class is cut off after as many links as there are, which
is enough to meet every class that can be reached: on a longer way some class is met twice, and the
way between its two occurrences can be left out (`Hierarchy.exists_above_le`).  And parameters are
compared the other way round, so both directions are proved at once (`Ty.related_trans`).

* `Hierarchy.inherits_iff`: **a class inherits from those that are reached by following links.**
* `Ty.subtype_refl`, `Ty.subtype_trans`: **subtyping is a preorder.**
-/

set_option autoImplicit false

namespace ObjectLet

/-! ## Following links -/

namespace Hierarchy

variable {h : Hierarchy} {c d e : String} {k m n : Nat}

/-- The class that is reached by following the given number of links, if the way up is that long. -/
def above (h : Hierarchy) : Nat → String → Option String
  | 0, c => some c
  | n + 1, c => (h.superclass? c).bind (h.above n)

theorem above_add (h : Hierarchy) (m n : Nat) (c : String) :
    h.above (m + n) c = (h.above m c).bind (h.above n) := by
  induction m generalizing c with
  | zero => rw [Nat.zero_add, above, Option.bind_some]
  | succ m ih =>
    rw [Nat.succ_add, above, above]
    cases h.superclass? c with
    | none => rfl
    | some s => exact ih s

/-- A chain of ancestors lists the classes that are reached by following fewer links than it is
long. -/
theorem mem_ancestors_iff : d ∈ h.ancestors n c ↔ ∃ k < n, h.above k c = some d := by
  induction n generalizing c with
  | zero => simp [ancestors]
  | succ n ih =>
    rw [ancestors, List.mem_cons]
    constructor
    · rintro (rfl | hd)
      · exact ⟨0, Nat.zero_lt_succ n, rfl⟩
      · cases hs : h.superclass? c with
        | none => simp [hs] at hd
        | some s =>
          rw [hs, Option.map_some, Option.getD_some, ih] at hd
          obtain ⟨k, hk, hd⟩ := hd
          exact ⟨k + 1, Nat.succ_lt_succ hk, by rw [above, hs, Option.bind_some, hd]⟩
    · rintro ⟨k, hk, hd⟩
      cases k with
      | zero => exact .inl (Option.some.inj hd).symm
      | succ k =>
        rw [above] at hd
        cases hs : h.superclass? c with
        | none => simp [hs] at hd
        | some s =>
          rw [hs, Option.bind_some] at hd
          exact .inr (ih.2 ⟨k, Nat.lt_of_succ_lt_succ hk, hd⟩)

/-- The classes on the way to another one have superclasses. -/
theorem mem_keys_of_above (hd : h.above n c = some d) (hk : k < n) (he : h.above k c = some e) :
    e ∈ h.links.keys := by
  obtain ⟨j, rfl⟩ : ∃ j, n = k + (j + 1) := ⟨n - k - 1, by omega⟩
  rw [above_add, he, Option.bind_some, above] at hd
  rw [← Table.contains_iff_mem_keys, Table.contains]
  cases hs : h.superclass? e with
  | none => simp [hs] at hd
  | some s => exact Option.isSome_of_eq_some hs

/-- **No more links need be followed than there are.** A way that is longer goes round somewhere,
and can be cut short. -/
theorem exists_above_le (hd : h.above n c = some d) : ∃ m ≤ h.links.size, h.above m c = some d := by
  induction n using Nat.strongRecOn with
  | ind n ih =>
    by_cases hn : n ≤ h.links.size
    · exact ⟨n, hn, hd⟩
    · -- more classes are met on the way than have links, so one of them is met twice
      have hcard : h.links.keys.toFinset.card < (Finset.range n).card := by
        rw [Finset.card_range]
        refine Nat.lt_of_le_of_lt (List.toFinset_card_le _) ?_
        rw [Table.keys, List.length_map]
        exact Nat.lt_of_not_le hn
      have hmem : ∀ i ∈ Finset.range n, ((h.above i c).getD c) ∈ h.links.keys.toFinset := by
        intro i hi
        obtain ⟨j, rfl⟩ : ∃ j, n = i + j := ⟨n - i, by have := Finset.mem_range.1 hi; omega⟩
        rw [above_add] at hd
        cases he : h.above i c with
        | none => simp [he] at hd
        | some e =>
          rw [← above_add] at hd
          exact List.mem_toFinset.2 (mem_keys_of_above hd (Finset.mem_range.1 hi) he)
      obtain ⟨i, hi, j, hj, hij, heq⟩ := Finset.exists_ne_map_eq_of_card_lt_of_maps_to hcard hmem
      have shorten : ∀ i j, i < j → j < n → (h.above i c).getD c = (h.above j c).getD c →
          ∃ m ≤ h.links.size, h.above m c = some d := by
        intro i j hij hj heq
        obtain ⟨k, rfl⟩ : ∃ k, n = j + k := ⟨n - j, by omega⟩
        obtain ⟨l, rfl⟩ : ∃ l, j = i + l := ⟨j - i, by omega⟩
        have hd' := hd
        rw [above_add, above_add] at hd'
        cases hi : h.above i c with
        | none => simp [hi] at hd'
        | some a =>
          cases hj : h.above (i + l) c with
          | none => rw [← above_add, hj] at hd'; cases hd'
          | some b =>
            rw [hi, hj, Option.getD_some, Option.getD_some] at heq
            refine ih (i + k) (by omega) ?_
            rw [above_add, hi, heq, ← hj, ← above_add, hd]
      rcases Nat.lt_or_gt_of_ne hij with hlt | hlt
      · exact shorten i j hlt (Finset.mem_range.1 hj) heq
      · exact shorten j i hlt (Finset.mem_range.1 hi) heq.symm

/-- **A class inherits from those that are reached by following links**, however many, although the
search stops after a fixed number. -/
theorem inherits_iff : h.inherits c d = true ↔ ∃ n, h.above n c = some d := by
  rw [inherits, List.contains_iff_mem, lineage, mem_ancestors_iff]
  constructor
  · rintro ⟨n, -, hd⟩
    exact ⟨n, hd⟩
  · rintro ⟨n, hd⟩
    obtain ⟨m, hm, hd⟩ := exists_above_le hd
    exact ⟨m, Nat.lt_succ_of_le hm, hd⟩

theorem inherits_trans (hcd : h.inherits c d = true) (hde : h.inherits d e = true) :
    h.inherits c e = true := by
  obtain ⟨m, hm⟩ := inherits_iff.1 hcd
  obtain ⟨n, hn⟩ := inherits_iff.1 hde
  exact inherits_iff.2 ⟨m + n, by rw [above_add, hm, Option.bind_some, hn]⟩

end Hierarchy

/-! ## Types -/

theorem Ty.flatSubtype_trans {h : Hierarchy} {t u w : Ty} (htu : Ty.flatSubtype h t u = true)
    (huw : Ty.flatSubtype h u w = true) : Ty.flatSubtype h t w = true := by
  cases t <;> cases u <;> cases w <;> simp_all [Ty.flatSubtype]
  exact Hierarchy.inherits_trans htu huw

mutual

theorem Ty.related_refl (h : Hierarchy) (v : Variance) : ∀ t : Ty, t.related h v t = true
  | .arrow s | .method s => Signature.related_refl h v s
  | .int | .bool | .null => by cases v <;> rfl
  | .ref c => by cases v <;> exact h.inherits_refl c
  | .cls s => by cases v <;> exact decide_eq_true rfl
termination_by structural t => t

theorem Signature.related_refl (h : Hierarchy) (v : Variance) :
    ∀ s : Signature, s.related h v s = true
  | ⟨ps, r⟩ => by
    rw [Signature.related, Ty.related_refl h v r, Ty.relatedAll_refl h v.flip ps, beq_self_eq_true]
    rfl
termination_by structural s => s

theorem Ty.relatedAll_refl (h : Hierarchy) (v : Variance) :
    ∀ ts : List Ty, Ty.relatedAll h v ts ts = true
  | [] => rfl
  | t :: ts => by
    rw [Ty.relatedAll, Ty.related_refl h v t, Ty.relatedAll_refl h v ts]
    rfl
termination_by structural ts => ts

end

/-- Comparing types that are neither functions nor methods is transitive in both directions. -/
theorem Variance.orient_trans {h : Hierarchy} {v : Variance} {t u w : Ty}
    (htu : v.orient (Ty.flatSubtype h) t u = true) (huw : v.orient (Ty.flatSubtype h) u w = true) :
    v.orient (Ty.flatSubtype h) t w = true := by
  cases v with
  | co => exact Ty.flatSubtype_trans htu huw
  | contra => exact Ty.flatSubtype_trans huw htu

mutual

/-- Being related in one direction is transitive, for both directions at once. -/
theorem Ty.related_trans (h : Hierarchy) (v : Variance) : ∀ t u w : Ty,
    t.related h v u = true → u.related h v w = true → t.related h v w = true
  | .arrow s, u, w, htu, huw => by
    cases u with
    | arrow s' =>
      cases w with
      | arrow s'' => exact Signature.related_trans h v s s' s'' htu huw
      | _ => cases v <;> cases huw
    | _ => cases v <;> cases htu
  | .method s, u, w, htu, huw => by
    cases u with
    | method s' =>
      cases w with
      | method s'' => exact Signature.related_trans h v s s' s'' htu huw
      | _ => cases v <;> cases huw
    | _ => cases v <;> cases htu
  | .int, u, w, htu, huw | .bool, u, w, htu, huw | .null, u, w, htu, huw
  | .ref _, u, w, htu, huw | .cls _, u, w, htu, huw => by
    cases u with
    | arrow s' => cases v <;> cases htu
    | method s' => cases v <;> cases htu
    | _ => exact Variance.orient_trans htu huw
termination_by structural t => t

theorem Signature.related_trans (h : Hierarchy) (v : Variance) : ∀ s t u : Signature,
    s.related h v t = true → t.related h v u = true → s.related h v u = true
  | ⟨ps, r⟩, ⟨qs, q⟩, ⟨rs, w⟩, hst, htu => by
    simp only [Signature.related, Bool.and_eq_true, beq_iff_eq] at hst htu ⊢
    exact ⟨⟨hst.1.1.trans htu.1.1, Ty.related_trans h v r q w hst.1.2 htu.1.2⟩,
      Ty.relatedAll_trans h v.flip ps qs rs hst.1.1 hst.2 htu.2⟩
termination_by structural s => s

theorem Ty.relatedAll_trans (h : Hierarchy) (v : Variance) : ∀ ts us ws : List Ty,
    ts.length = us.length → Ty.relatedAll h v ts us = true → Ty.relatedAll h v us ws = true →
      Ty.relatedAll h v ts ws = true
  | [], _, _, _, _, _ => rfl
  | t :: ts, us, ws, hlen, htu, huw => by
    cases us with
    | nil => cases hlen
    | cons u us =>
      cases ws with
      | nil => rfl
      | cons w ws =>
        simp only [Ty.relatedAll, Bool.and_eq_true] at htu huw ⊢
        exact ⟨Ty.related_trans h v t u w htu.1 huw.1,
          Ty.relatedAll_trans h v ts us ws (Nat.succ.inj hlen) htu.2 huw.2⟩
termination_by structural ts => ts

end

section Preorder

variable {h : Hierarchy} {t u w : Ty} {s s' s'' : Signature}

/-- **Every type is a subtype of itself.** The proof is about both directions at once,
because of parameters. -/
theorem Ty.subtype_refl (h : Hierarchy) (t : Ty) : t.subtype h t = true := Ty.related_refl h .co t

/-- **A subtype of a subtype is a subtype.** For two classes the ways up are put together. -/
theorem Ty.subtype_trans (htu : t.subtype h u = true) (huw : u.subtype h w = true) :
    t.subtype h w = true := Ty.related_trans h .co t u w htu huw

theorem Signature.subtype_refl (h : Hierarchy) (s : Signature) : s.subtype h s = true :=
  Signature.related_refl h .co s

theorem Signature.subtype_trans (hst : s.subtype h s' = true) (htu : s'.subtype h s'' = true) :
    s.subtype h s'' = true := Signature.related_trans h .co s s' s'' hst htu

/-- What is below the type of something that is no method is none either. -/
theorem Ty.isMethod_of_subtype (ht : t.subtype h u = true) : t.isMethod = u.isMethod := by
  cases t <;> cases u <;> first | rfl | cases ht

end Preorder

end ObjectLet
