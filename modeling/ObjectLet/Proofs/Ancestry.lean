import ObjectLet.Proofs.Subtypes

/-!
# Hierarchies without cycles

A lineage is cut off after as many links as there are, so that everything that follows one comes to
an end.  Without cycles there is nothing to cut off.  This is stated for searches that would not end
by themselves on a cycle: they go on until they find something or meet a class without a superclass.
`Hierarchy.climb?` is such a search, and `Ty.subtypeWithin` and `Ty.commonAncestorWithin` compare
types by means of it.  Each of them is told how many classes it may look at on one way up, and has
no answer if that is not enough.

* `Hierarchy.Acyclic.above_eq_none`: **every way up ends within one class more than there are
  links.**
* `Hierarchy.Decides`: all these searches have an answer, the same as with lineages.
* `Hierarchy.Acyclic.decides`: **without cycles they do, if they may look at enough classes.**
-/

set_option autoImplicit false

namespace ObjectLet

namespace Hierarchy

variable {h : Hierarchy} {c d s : String} {m n : Nat}

/-! ## Ways up -/

/-- No class is above itself. -/
def Acyclic (h : Hierarchy) : Prop := ∀ c n, h.above (n + 1) c ≠ some c

/-- What has ended stays so: there is nothing above the end of a way up. -/
theorem above_eq_none_of_le (hc : h.above n c = none) (hle : n ≤ m) : h.above m c = none := by
  obtain ⟨k, rfl⟩ := Nat.exists_eq_add_of_le hle
  rw [above_add, hc, Option.bind_none]

/-- A chain has no more classes than there are up to its end. -/
theorem ancestors_eq_of_le (hc : h.above n c = none) (hle : n ≤ m) :
    h.ancestors m c = h.ancestors n c := by
  induction n generalizing c m with
  | zero => cases hc
  | succ n ih =>
    obtain ⟨m, rfl⟩ : ∃ k, m = k + 1 := ⟨m - 1, by omega⟩
    rw [ancestors, ancestors]
    cases hs : h.superclass? c with
    | none => rfl
    | some s =>
      rw [above, hs, Option.bind_some] at hc
      rw [Option.map_some, Option.map_some, ih hc (Nat.le_of_succ_le_succ hle)]

/-- Classes that can be counted down along their links form no cycle. -/
theorem acyclic_of_rank (rank : String → Nat)
    (hrank : ∀ c s, h.superclass? c = some s → rank s < rank c) : h.Acyclic := by
  have hdown : ∀ n c d, h.above n c = some d → rank d + n ≤ rank c := by
    intro n
    induction n with
    | zero =>
      intro c d hd
      rw [Option.some.inj hd]
      exact Nat.le_refl _
    | succ n ih =>
      intro c d hd
      obtain ⟨s, hs, hd⟩ := Option.bind_eq_some_iff.1 hd
      have hfirst := hrank c s hs
      have hrest := ih s d hd
      omega
  intro c n hc
  have := hdown (n + 1) c c hc
  omega

namespace Acyclic

/-- **Every way up ends within one class more than there are links.** A longer one would meet a
class twice, and so lead back to it. -/
theorem above_eq_none (hacyclic : h.Acyclic) (c : String) :
    h.above (h.links.size + 1) c = none := by
  by_contra hsome
  obtain ⟨d, hd⟩ := Option.ne_none_iff_exists'.1 hsome
  -- the class at the end can be met before, and from there on the way leads back to it
  obtain ⟨m, hm, hd'⟩ := exists_above_le hd
  obtain ⟨k, hk⟩ := Nat.exists_eq_add_of_lt (Nat.lt_succ_of_le hm)
  rw [Nat.succ_eq_add_one] at hk
  rw [hk, Nat.add_assoc, above_add, hd', Option.bind_some] at hd
  exact hacyclic d k hd

/-- No class is met twice on a way up. -/
theorem nodup_ancestors (hacyclic : h.Acyclic) (n : Nat) (c : String) :
    (h.ancestors n c).Nodup := by
  induction n generalizing c with
  | zero => exact List.nodup_nil
  | succ n ih =>
    rw [ancestors]
    cases hs : h.superclass? c with
    | none => simp
    | some s =>
      refine List.nodup_cons.2 ⟨fun hmem ↦ ?_, ih s⟩
      obtain ⟨k, -, hk⟩ := mem_ancestors_iff.1 hmem
      exact hacyclic c k (by rw [above, hs, Option.bind_some, hk])

/-- A lineage is the whole chain, if the way up ends at all. -/
theorem ancestors_eq_lineage (hacyclic : h.Acyclic) (hn : h.above n c = none) :
    h.ancestors n c = h.lineage c := by
  rcases Nat.le_total n (h.links.size + 1) with hle | hle
  · exact (ancestors_eq_of_le hn hle).symm
  · exact ancestors_eq_of_le (hacyclic.above_eq_none c) hle

end Acyclic

/-! ## Searches -/

/-- Goes up from a class to the first one that passes a test, which may have no answer itself.
Looks at no more than `n` classes. -/
def climb? (h : Hierarchy) (test : String → Option Bool) : (n : Nat) → String →
    Option (Option String)
  | 0, _ => none
  | n + 1, c =>
    match test c, h.superclass? c with
    | none, _ => none
    | some true, _ => some (some c)
    | some false, none => some none
    | some false, some s => h.climb? test n s

/-- Whether a class is met on the way up from another one, if `n` classes are enough to tell. -/
def inheritsWithin (h : Hierarchy) (n : Nat) (c d : String) : Option Bool :=
  (h.climb? (fun e ↦ some (e == d)) n c).map Option.isSome

/-- A search that is given enough classes answers for the whole chain. -/
theorem climb?_eq {test : String → Option Bool} {p : String → Bool}
    (htest : ∀ e, test e = some (p e)) (hc : h.above n c = none) :
    h.climb? test n c = some ((h.ancestors n c).find? p) := by
  induction n generalizing c with
  | zero => cases hc
  | succ n ih =>
    rw [climb?, htest, ancestors, List.find?_cons]
    cases hp : p c with
    | true => rfl
    | false =>
      cases hs : h.superclass? c with
      | none => rfl
      | some s =>
        rw [above, hs, Option.bind_some] at hc
        exact ih hc

end Hierarchy

/-! ## Comparing types -/

/-- The conjunction of two answers, the second of which counts only if the first one is positive. -/
def andThen : Option Bool → Option Bool → Option Bool
  | some true, b => b
  | a, _ => a

@[simp] theorem andThen_some (a b : Bool) : andThen (some a) (some b) = some (a && b) := by
  cases a <;> rfl

/-- Comparing types that are not both functions or both methods.  Only two references to classes
make a look at the hierarchy necessary. -/
def Ty.flatSubtypeWithin (h : Hierarchy) (n : Nat) : Ty → Ty → Option Bool
  | .ref c, .ref d => h.inheritsWithin n c d
  | t, u => some (Ty.flatSubtype h t u)

mutual

/-- Comparing types in either direction, from left to right and as far as is necessary.  There is no
answer if a search that it depends on is cut off. -/
def Ty.relatedWithin (h : Hierarchy) (n : Nat) (v : Variance) : Ty → Ty → Option Bool
  | .arrow s, .arrow t => s.relatedWithin h n v t
  | .method s, .method t => s.relatedWithin h n v t
  | t, u =>
    match v with
    | .co => Ty.flatSubtypeWithin h n t u
    | .contra => Ty.flatSubtypeWithin h n u t
termination_by structural t => t

/-- Comparing signatures: their lengths, then the results, then the parameters.  What comes later is
not compared if something before it differs. -/
def Signature.relatedWithin (h : Hierarchy) (n : Nat) (v : Variance) :
    Signature → Signature → Option Bool
  | ⟨ps, r⟩, ⟨qs, q⟩ =>
    andThen (some (ps.length == qs.length))
      (andThen (r.relatedWithin h n v q) (Ty.relatedAllWithin h n v.flip ps qs))
termination_by structural s => s

/-- Comparing two lists of types place by place.  What one list has more than the other one is not
compared with anything. -/
def Ty.relatedAllWithin (h : Hierarchy) (n : Nat) (v : Variance) : List Ty → List Ty → Option Bool
  | t :: ts, u :: us => andThen (t.relatedWithin h n v u) (Ty.relatedAllWithin h n v ts us)
  | _, _ => some true
termination_by structural ts => ts

end

/-- Whether a type is a subtype of another one, if `n` classes on each way up are enough to tell. -/
def Ty.subtypeWithin (h : Hierarchy) (n : Nat) (t u : Ty) : Option Bool := t.relatedWithin h n .co u

/-- Whether a signature is a subtype of another one. -/
def Signature.subtypeWithin (h : Hierarchy) (n : Nat) (s t : Signature) : Option Bool :=
  s.relatedWithin h n .co t

/-- The nearest type above two given ones.  For two classes it is searched for above the first of
them, and each class there is compared with the second one. -/
def Ty.commonAncestorWithin (h : Hierarchy) (n : Nat) : Ty → Ty → Option (Option Ty)
  | .ref c, .ref d =>
    (h.climb? (fun e ↦ Ty.subtypeWithin h n (.ref d) (.ref e)) n c).map (Option.map Ty.ref)
  | t, u => some (Ty.commonAncestor? h t u)

/-- All searches in a hierarchy have an answer if they may look at `n` classes on each way up. -/
structure Hierarchy.Decides (h : Hierarchy) (n : Nat) : Prop where
  /-- The chain above a class ends. -/
  ancestors : ∀ c m, n ≤ m → h.ancestors m c = h.lineage c
  /-- Classes can be compared. -/
  inherits : ∀ c d, h.inheritsWithin n c d = some (h.inherits c d)
  /-- Types can be compared. -/
  subtype : ∀ t u : Ty, t.subtypeWithin h n u = some (t.subtype h u)
  /-- Signatures can be compared. -/
  signature : ∀ s t : Signature, s.subtypeWithin h n t = some (s.subtype h t)
  /-- Common ancestors can be searched for. -/
  commonAncestor : ∀ t u, Ty.commonAncestorWithin h n t u = some (Ty.commonAncestor? h t u)

section Decides

variable {h : Hierarchy} {n : Nat}

theorem Ty.flatSubtypeWithin_eq
    (hinherits : ∀ c d, h.inheritsWithin n c d = some (h.inherits c d)) (t u : Ty) :
    Ty.flatSubtypeWithin h n t u = some (Ty.flatSubtype h t u) := by
  rw [Ty.flatSubtypeWithin.eq_def]
  split
  · exact hinherits _ _
  · rfl

/-- Types that are not both functions or both methods are compared at once. -/
theorem Variance.orient_within
    (hinherits : ∀ c d, h.inheritsWithin n c d = some (h.inherits c d)) (v : Variance) (t u : Ty) :
    (match v with
      | .co => Ty.flatSubtypeWithin h n t u
      | .contra => Ty.flatSubtypeWithin h n u t) = some (v.orient (Ty.flatSubtype h) t u) := by
  cases v <;> exact Ty.flatSubtypeWithin_eq hinherits _ _

mutual

theorem Ty.relatedWithin_eq
    (hinherits : ∀ c d, h.inheritsWithin n c d = some (h.inherits c d)) (v : Variance) :
    ∀ t u : Ty, t.relatedWithin h n v u = some (t.related h v u)
  | .arrow s, u => by
    cases u with
    | arrow t => exact Signature.relatedWithin_eq hinherits v s t
    | _ => exact v.orient_within hinherits _ _
  | .method s, u => by
    cases u with
    | method t => exact Signature.relatedWithin_eq hinherits v s t
    | _ => exact v.orient_within hinherits _ _
  | .int, u | .bool, u | .null, u | .ref _, u | .cls _, u => by
    cases u <;> exact v.orient_within hinherits _ _
termination_by structural t => t

theorem Signature.relatedWithin_eq
    (hinherits : ∀ c d, h.inheritsWithin n c d = some (h.inherits c d)) (v : Variance) :
    ∀ s t : Signature, s.relatedWithin h n v t = some (s.related h v t)
  | ⟨ps, r⟩, ⟨qs, q⟩ => by
    rw [Signature.relatedWithin, Ty.relatedWithin_eq hinherits v r q,
      Ty.relatedAllWithin_eq hinherits v.flip ps qs, andThen_some, andThen_some,
      Signature.related, Bool.and_assoc]
termination_by structural s => s

theorem Ty.relatedAllWithin_eq
    (hinherits : ∀ c d, h.inheritsWithin n c d = some (h.inherits c d)) (v : Variance) :
    ∀ ts us : List Ty, Ty.relatedAllWithin h n v ts us = some (Ty.relatedAll h v ts us)
  | [], us => by cases us <;> rfl
  | t :: ts, us => by
    cases us with
    | nil => rfl
    | cons u us =>
      rw [Ty.relatedAllWithin, Ty.relatedWithin_eq hinherits v t u,
        Ty.relatedAllWithin_eq hinherits v ts us, andThen_some, Ty.relatedAll]
termination_by structural ts => ts

end

/-- **Without cycles all searches have an answer**, if they may look at as many classes as the
longest way up can have. -/
theorem Hierarchy.Acyclic.decides (hacyclic : h.Acyclic) (hn : h.links.size + 1 ≤ n) :
    h.Decides n := by
  have hend : ∀ c, h.above n c = none := fun c ↦ above_eq_none_of_le (hacyclic.above_eq_none c) hn
  have hinherits : ∀ c d, h.inheritsWithin n c d = some (h.inherits c d) := by
    intro c d
    rw [inheritsWithin, climb?_eq (fun _ ↦ rfl) (hend c), hacyclic.ancestors_eq_lineage (hend c)]
    refine congrArg some (Bool.eq_iff_iff.2 ?_)
    rw [List.find?_isSome, inherits, List.contains_iff_mem]
    constructor
    · rintro ⟨e, he, hed⟩
      exact eq_of_beq hed ▸ he
    · exact fun hd ↦ ⟨d, hd, beq_self_eq_true d⟩
  have hsubtype : ∀ t u : Ty, t.subtypeWithin h n u = some (t.subtype h u) :=
    Ty.relatedWithin_eq hinherits .co
  refine ⟨fun c m hm ↦ ?_, hinherits, hsubtype, Signature.relatedWithin_eq hinherits .co,
    fun t u ↦ ?_⟩
  · exact hacyclic.ancestors_eq_lineage (above_eq_none_of_le (hend c) hm)
  · rw [Ty.commonAncestorWithin.eq_def]
    split
    · rename_i c d
      rw [climb?_eq (fun e ↦ hsubtype (.ref d) (.ref e)) (hend c),
        hacyclic.ancestors_eq_lineage (hend c), Ty.commonAncestor?, List.find?_map]
      rfl
    · rfl

end Decides

end ObjectLet
