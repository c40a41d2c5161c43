/-!
# Types

The types of the language: machine integers, booleans, references to objects of a named class,
functions, methods, whole classes, and the type of `null`.  The same values serve as annotations in
a program and as the results of checking it.

`Ty.text` is how a type is written in messages.  Equality of types is decided by `Ty.same`, with
`Ty.same_iff` saying that it is equality.
-/

set_option autoImplicit false

namespace ObjectLet

/-! ## The types -/

mutual

/-- What a function or method takes and gives back. -/
structure Signature where
  /-- The parameter types, in order. -/
  params : List Ty
  /-- The type of the result. -/
  ret : Ty

/-- All fields and all methods of a class, inherited ones first.  Field `i` lies `i + 1` cells below
the object pointer, method `i` has index `i` in the dispatch table. -/
structure Shape where
  /-- The field types, in order of construction. -/
  fields : List Ty
  /-- The method signatures, by dispatch index. -/
  methods : List Signature

/-- A type. -/
inductive Ty where
  /-- A machine integer. -/
  | int
  /-- A boolean; at run time one of the integers 0 and 1. -/
  | bool
  /-- The type of `null` alone. -/
  | null
  /-- A reference to an object of the named class. -/
  | ref (name : String)
  /-- A function. -/
  | arrow (signature : Signature)
  /-- A method: callable like a function, but never interchangeable with one. -/
  | method (signature : Signature)
  /-- A class itself, as opposed to its objects. -/
  | cls (shape : Shape)

end

instance : Inhabited Ty := ⟨.int⟩

/-- The shape of a class without members. -/
def Shape.empty : Shape := ⟨[], []⟩

instance : Inhabited Shape := ⟨.empty⟩

/-- The number of parameters. -/
def Signature.arity (s : Signature) : Nat := s.params.length

namespace Ty

/-- Whether this is the type of a method.  Methods are told from fields by it, too. -/
def isMethod : Ty → Bool
  | .method _ => true
  | _ => false

/-- The signature of a function or method type.  Nothing of another type can be called. -/
def callable? : Ty → Option Signature
  | .arrow s | .method s => some s
  | _ => none

end Ty

/-! ## Text -/

mutual

/-- How a type is written in messages.  A class reference is written as its bare name. -/
def Ty.text : Ty → String
  | .int => "int"
  | .bool => "bool"
  | .null => "null"
  | .ref name => name
  | .arrow s => s.text
  | .method s => "method " ++ s.text
  | .cls s => s.text
termination_by structural t => t

/-- A signature is written `(p, q) -> r`. -/
def Signature.text : Signature → String
  | ⟨params, ret⟩ => "(" ++ ", ".intercalate (Ty.texts params) ++ ") -> " ++ ret.text
termination_by structural s => s

/-- A shape lists its fields and then its methods. -/
def Shape.text : Shape → String
  | ⟨fields, methods⟩ =>
    "class \x7b fields: [" ++ ", ".intercalate (Ty.texts fields) ++ "], methods: ["
      ++ ", ".intercalate (Signature.texts methods) ++ "] \x7d"
termination_by structural s => s

/-- The texts of several types. -/
def Ty.texts : List Ty → List String
  | [] => []
  | t :: ts => t.text :: Ty.texts ts
termination_by structural ts => ts

/-- The texts of several signatures. -/
def Signature.texts : List Signature → List String
  | [] => []
  | s :: ss => s.text :: Signature.texts ss
termination_by structural ss => ss

end

/-! ## Equality -/

mutual

/-- Whether two types are the same. -/
def Ty.same : Ty → Ty → Bool
  | .int, .int | .bool, .bool | .null, .null => true
  | .ref a, .ref b => a == b
  | .arrow s, .arrow t => s.same t
  | .method s, .method t => s.same t
  | .cls s, .cls t => s.same t
  | _, _ => false
termination_by structural t => t

/-- Whether two signatures are the same. -/
def Signature.same : Signature → Signature → Bool
  | ⟨ps, r⟩, ⟨qs, q⟩ => Ty.sameAll ps qs && r.same q
termination_by structural s => s

/-- Whether two shapes are the same. -/
def Shape.same : Shape → Shape → Bool
  | ⟨fs, ms⟩, ⟨gs, ns⟩ => Ty.sameAll fs gs && Signature.sameAll ms ns
termination_by structural s => s

/-- Whether two lists of types are the same. -/
def Ty.sameAll : List Ty → List Ty → Bool
  | [], [] => true
  | t :: ts, u :: us => t.same u && Ty.sameAll ts us
  | _, _ => false
termination_by structural ts => ts

/-- Whether two lists of signatures are the same. -/
def Signature.sameAll : List Signature → List Signature → Bool
  | [], [] => true
  | s :: ss, t :: ts => s.same t && Signature.sameAll ss ts
  | _, _ => false
termination_by structural ss => ss

end

mutual

theorem Ty.same_iff : ∀ t u : Ty, t.same u = true ↔ t = u
  | .int, u | .bool, u | .null, u => by cases u <;> simp [Ty.same]
  | .ref a, u => by cases u <;> simp [Ty.same]
  | .arrow s, u => by
    cases u with
    | arrow t => simp [Ty.same, Signature.same_iff s t]
    | _ => simp [Ty.same]
  | .method s, u => by
    cases u with
    | method t => simp [Ty.same, Signature.same_iff s t]
    | _ => simp [Ty.same]
  | .cls s, u => by
    cases u with
    | cls t => simp [Ty.same, Shape.same_iff s t]
    | _ => simp [Ty.same]
termination_by structural t => t

theorem Signature.same_iff : ∀ s t : Signature, s.same t = true ↔ s = t
  | ⟨ps, r⟩, ⟨qs, q⟩ => by simp [Signature.same, Ty.sameAll_iff ps qs, Ty.same_iff r q]
termination_by structural s => s

theorem Shape.same_iff : ∀ s t : Shape, s.same t = true ↔ s = t
  | ⟨fs, ms⟩, ⟨gs, ns⟩ => by
    simp [Shape.same, Ty.sameAll_iff fs gs, Signature.sameAll_iff ms ns]
termination_by structural s => s

theorem Ty.sameAll_iff : ∀ ts us : List Ty, Ty.sameAll ts us = true ↔ ts = us
  | [], us => by cases us <;> simp [Ty.sameAll]
  | t :: ts, us => by
    cases us with
    | nil => simp [Ty.sameAll]
    | cons u us => simp [Ty.sameAll, Ty.same_iff t u, Ty.sameAll_iff ts us]
termination_by structural ts => ts

theorem Signature.sameAll_iff : ∀ ss ts : List Signature, Signature.sameAll ss ts = true ↔ ss = ts
  | [], ts => by cases ts <;> simp [Signature.sameAll]
  | s :: ss, ts => by
    cases ts with
    | nil => simp [Signature.sameAll]
    | cons t ts => simp [Signature.sameAll, Signature.same_iff s t, Signature.sameAll_iff ss ts]
termination_by structural ss => ss

end

instance : DecidableEq Ty := fun t u ↦ decidable_of_iff _ (Ty.same_iff t u)

instance : DecidableEq Signature := fun s t ↦ decidable_of_iff _ (Signature.same_iff s t)

instance : DecidableEq Shape := fun s t ↦ decidable_of_iff _ (Shape.same_iff s t)

end ObjectLet
