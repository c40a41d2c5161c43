import ObjectLet.Hierarchy
import ObjectLet.Ty

/-!
# Subtyping

`Ty.subtype h t u` says that a value of type `t` may stand where one of type `u` is expected, given
the class hierarchy `h`.  Class references follow the hierarchy, booleans are integers, `null` is a
reference to any class, and functions are compared the usual way round: covariant in the result,
contravariant in the parameters.

Contravariance turns the question round, so the recursion is over a pair of types of which neither
is always on the left.  `Ty.related` carries the direction along as a `Variance` and descends into
its first argument, whichever side that is on; `Ty.subtype` is its covariant half.  That the
direction is all there is to a `Variance` is `Ty.related_flip`, from which `Signature.subtype_mk`
gives back the usual rule for functions.

`Ty.commonAncestor?` is the type of a conditional whose branches have different types: the nearest
class above both, or `int` for a mixture of booleans and integers.
-/

set_option autoImplicit false

namespace ObjectLet

/-! ## The relation -/

/-- Which of two compared things is expected to be the more specific one. -/
inductive Variance where
  /-- The first is to be below the second. -/
  | co
  /-- The second is to be below the first. -/
  | contra
deriving DecidableEq

namespace Variance

/-- The other way round. -/
def flip : Variance → Variance
  | .co => .contra
  | .contra => .co

/-- A comparison made in the given direction. -/
def orient {α : Type} (below : α → α → Bool) : Variance → α → α → Bool
  | .co, a, b => below a b
  | .contra, a, b => below b a

theorem orient_flip {α : Type} (below : α → α → Bool) (v : Variance) (a b : α) :
    v.flip.orient below a b = v.orient below b a := by
  cases v <;> rfl

end Variance

/-- Subtyping between types that are not both functions or both methods.  Besides equal types there
are booleans, which are integers, `null`, which refers to no object of any class, and classes that
inherit from each other. -/
def Ty.flatSubtype (h : Hierarchy) : Ty → Ty → Bool
  | .int, .int | .bool, .bool | .null, .null => true
  | .bool, .int => true
  | .null, .ref _ => true
  | .ref c, .ref d => h.inherits c d
  | .cls s, .cls t => decide (s = t)
  | _, _ => false

mutual

/-- The subtype relation in either direction.  Signatures are compared with each other only if both
types are functions, or both methods. -/
def Ty.related (h : Hierarchy) (v : Variance) : Ty → Ty → Bool
  | .arrow s, .arrow t => s.related h v t
  | .method s, .method t => s.related h v t
  | t, u => v.orient (Ty.flatSubtype h) t u
termination_by structural t => t

/-- The subtype relation between signatures in either direction: the results are compared in the
same direction, the parameters in the other one, and there have to be equally many of them. -/
def Signature.related (h : Hierarchy) (v : Variance) : Signature → Signature → Bool
  | ⟨ps, r⟩, ⟨qs, q⟩ =>
    ps.length == qs.length && r.related h v q && Ty.relatedAll h v.flip ps qs
termination_by structural s => s

/-- Whether two lists of types are related place by place, as far as both go. -/
def Ty.relatedAll (h : Hierarchy) (v : Variance) : List Ty → List Ty → Bool
  | t :: ts, u :: us => t.related h v u && Ty.relatedAll h v ts us
  | _, _ => true
termination_by structural ts => ts

end

/-- Whether a value of type `t` may stand where one of type `u` is expected. -/
def Ty.subtype (h : Hierarchy) (t u : Ty) : Bool := t.related h .co u

/-- Whether something called by signature `s` may stand where one called by `t` is expected: as
many parameters, each at least as general, and a result at least as specific. -/
def Signature.subtype (h : Hierarchy) (s t : Signature) : Bool := s.related h .co t

/-! ## The rule for functions -/

mutual

/-- To turn the direction round is to exchange the two types. -/
theorem Ty.related_flip (h : Hierarchy) (v : Variance) :
    ∀ t u : Ty, t.related h v.flip u = u.related h v t
  | .arrow s, u => by
    cases u with
    | arrow t => exact Signature.related_flip h v s t
    | _ => exact Variance.orient_flip _ v _ _
  | .method s, u => by
    cases u with
    | method t => exact Signature.related_flip h v s t
    | _ => exact Variance.orient_flip _ v _ _
  | .int, u | .bool, u | .null, u | .ref _, u | .cls _, u => by
    cases u <;> exact Variance.orient_flip _ v _ _
termination_by structural t => t

theorem Signature.related_flip (h : Hierarchy) (v : Variance) :
    ∀ s t : Signature, s.related h v.flip t = t.related h v s
  | ⟨ps, r⟩, ⟨qs, q⟩ => by
    simp only [Signature.related, Ty.related_flip h v r q, Ty.relatedAll_flip h v.flip ps qs,
      Bool.beq_comm (a := ps.length)]
termination_by structural s => s

theorem Ty.relatedAll_flip (h : Hierarchy) (v : Variance) :
    ∀ ts us : List Ty, Ty.relatedAll h v.flip ts us = Ty.relatedAll h v us ts
  | [], us => by cases us <;> rfl
  | t :: ts, us => by
    cases us with
    | nil => rfl
    | cons u us => simp only [Ty.relatedAll, Ty.related_flip h v t u, Ty.relatedAll_flip h v ts us]
termination_by structural ts => ts

end

theorem Ty.relatedAll_eq_all_zip (h : Hierarchy) (v : Variance) (ts us : List Ty) :
    Ty.relatedAll h v ts us = (ts.zip us).all fun p ↦ p.1.related h v p.2 := by
  induction ts generalizing us with
  | nil => rfl
  | cons t ts ih =>
    cases us with
    | nil => rfl
    | cons u us => simp only [Ty.relatedAll, ih, List.zip_cons_cons, List.all_cons]

/-- A function may stand for another one if it takes as many arguments, gives back something at
least as specific, and is content with whatever the other one takes. -/
theorem Signature.subtype_mk (h : Hierarchy) (ps qs : List Ty) (r q : Ty) :
    Signature.subtype h ⟨ps, r⟩ ⟨qs, q⟩
      = (ps.length == qs.length && r.subtype h q && (qs.zip ps).all fun p ↦ p.1.subtype h p.2) :=
  calc Signature.subtype h ⟨ps, r⟩ ⟨qs, q⟩
      = (ps.length == qs.length && r.subtype h q && Ty.relatedAll h Variance.co.flip ps qs) := rfl
    _ = _ := by rw [Ty.relatedAll_flip, Ty.relatedAll_eq_all_zip]; rfl

/-! ## Common ancestors -/

/-- The nearest type above two given ones, if there is one.  For two classes it is searched
for from the first one upwards.  No class stands above all others, so unrelated classes have
no common ancestor. -/
def Ty.commonAncestor? (h : Hierarchy) : Ty → Ty → Option Ty
  | .null, .null => some .null
  | .null, .ref d => some (.ref d)
  | .ref c, .null => some (.ref c)
  | .ref c, .ref d => ((h.lineage c).map Ty.ref).find? fun t ↦ Ty.subtype h (.ref d) t
  | .bool, .bool => some .bool
  | .int, .int | .int, .bool | .bool, .int => some .int
  | _, _ => none

end ObjectLet
