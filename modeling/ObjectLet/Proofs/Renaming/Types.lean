import Mathlib.Data.List.Nodup
import Mathlib.Logic.Embedding.Basic
import ObjectLet.Ty.Subtyping

/-!
# Renamed types

`Ty.rename` gives other names to the classes that a type refers to.  If different classes keep
different names, nothing is lost by that, and in a hierarchy that is renamed in the same way the
types are related as they were before.

* `Ty.rename_inj`: **renaming keeps different types apart.**
* `Ty.subtype_rename`, `Ty.commonAncestor?_rename`: **subtyping does not depend on names.**

Tables are renamed by `Table.map`, which goes on to find what was found before (`find?_map`) and to
put what is written where it was put before (`map_insert`).
-/

set_option autoImplicit false

namespace ObjectLet

/-! ## Types -/

mutual

/-- A type with other names for the classes. -/
def Ty.rename (f : String → String) : Ty → Ty
  | .int => .int
  | .bool => .bool
  | .null => .null
  | .ref name => .ref (f name)
  | .arrow s => .arrow (s.rename f)
  | .method s => .method (s.rename f)
  | .cls s => .cls (s.rename f)
termination_by structural t => t

/-- A signature with other names for the classes. -/
def Signature.rename (f : String → String) : Signature → Signature
  | ⟨params, ret⟩ => ⟨Ty.renameAll f params, ret.rename f⟩
termination_by structural s => s

/-- A shape with other names for the classes. -/
def Shape.rename (f : String → String) : Shape → Shape
  | ⟨fields, methods⟩ => ⟨Ty.renameAll f fields, Signature.renameAll f methods⟩
termination_by structural s => s

/-- Several types with other names for the classes. -/
def Ty.renameAll (f : String → String) : List Ty → List Ty
  | [] => []
  | t :: ts => t.rename f :: Ty.renameAll f ts
termination_by structural ts => ts

/-- Several signatures with other names for the classes. -/
def Signature.renameAll (f : String → String) : List Signature → List Signature
  | [] => []
  | s :: ss => s.rename f :: Signature.renameAll f ss
termination_by structural ss => ss

end

section Names

variable (f g : String → String)

@[simp] theorem Ty.renameAll_eq (ts : List Ty) : Ty.renameAll f ts = ts.map (Ty.rename f) := by
  induction ts with
  | nil => rfl
  | cons t ts ih => rw [Ty.renameAll, ih, List.map_cons]

@[simp] theorem Signature.renameAll_eq (ss : List Signature) :
    Signature.renameAll f ss = ss.map (Signature.rename f) := by
  induction ss with
  | nil => rfl
  | cons s ss ih => rw [Signature.renameAll, ih, List.map_cons]

@[simp] theorem Signature.params_rename (s : Signature) :
    (s.rename f).params = s.params.map (Ty.rename f) := by
  obtain ⟨ps, r⟩ := s
  exact Ty.renameAll_eq f ps

@[simp] theorem Signature.ret_rename (s : Signature) : (s.rename f).ret = s.ret.rename f := by
  cases s
  rfl

@[simp] theorem Signature.arity_rename (s : Signature) : (s.rename f).arity = s.arity := by
  rw [Signature.arity, Signature.params_rename, List.length_map, Signature.arity]

@[simp] theorem Shape.fields_rename (s : Shape) :
    (s.rename f).fields = s.fields.map (Ty.rename f) := by
  obtain ⟨fs, ms⟩ := s
  exact Ty.renameAll_eq f fs

@[simp] theorem Shape.methods_rename (s : Shape) :
    (s.rename f).methods = s.methods.map (Signature.rename f) := by
  obtain ⟨fs, ms⟩ := s
  exact Signature.renameAll_eq f ms

theorem Shape.rename_mk (fs : List Ty) (ms : List Signature) :
    Shape.rename f ⟨fs, ms⟩ = ⟨fs.map (Ty.rename f), ms.map (Signature.rename f)⟩ := by
  rw [Shape.rename, Ty.renameAll_eq, Signature.renameAll_eq]

@[simp] theorem Ty.isMethod_rename (t : Ty) : (t.rename f).isMethod = t.isMethod := by
  cases t <;> rfl

@[simp] theorem Ty.callable?_rename (t : Ty) :
    (t.rename f).callable? = t.callable?.map (Signature.rename f) := by
  cases t <;> rfl

/-! ### The names in a type -/

mutual

/-- The class names in a type, from left to right, and as often as they occur. -/
def Ty.names : Ty → List String
  | .int | .bool | .null => []
  | .ref x => [x]
  | .arrow s | .method s => s.names
  | .cls s => s.names
termination_by structural t => t

/-- The class names in a signature. -/
def Signature.names : Signature → List String
  | ⟨params, ret⟩ => Ty.namesAll params ++ ret.names
termination_by structural s => s

/-- The class names in a shape. -/
def Shape.names : Shape → List String
  | ⟨fields, methods⟩ => Ty.namesAll fields ++ Signature.namesAll methods
termination_by structural s => s

/-- The class names in several types. -/
def Ty.namesAll : List Ty → List String
  | [] => []
  | t :: ts => t.names ++ Ty.namesAll ts
termination_by structural ts => ts

/-- The class names in several signatures. -/
def Signature.namesAll : List Signature → List String
  | [] => []
  | s :: ss => s.names ++ Signature.namesAll ss
termination_by structural ss => ss

end

variable {f g} {h : String → String}

mutual

/-- Two renamings, one after the other, do to a type what they do to its names. -/
theorem Ty.rename_rename :
    ∀ t : Ty, (∀ x ∈ t.names, g (f x) = h x) → (t.rename f).rename g = t.rename h
  | .int, _ | .bool, _ | .null, _ => rfl
  | .ref x, hx => congrArg Ty.ref (hx x (List.mem_singleton_self x))
  | .arrow s, hs => congrArg Ty.arrow (Signature.rename_rename s hs)
  | .method s, hs => congrArg Ty.method (Signature.rename_rename s hs)
  | .cls s, hs => congrArg Ty.cls (Shape.rename_rename s hs)
termination_by structural t => t

theorem Signature.rename_rename :
    ∀ s : Signature, (∀ x ∈ s.names, g (f x) = h x) → (s.rename f).rename g = s.rename h
  | ⟨ps, r⟩, hs => by
    rw [Signature.names, List.forall_mem_append] at hs
    simp only [Signature.rename, Ty.rename_rename_all ps hs.1, Ty.rename_rename r hs.2]
termination_by structural s => s

theorem Shape.rename_rename :
    ∀ s : Shape, (∀ x ∈ s.names, g (f x) = h x) → (s.rename f).rename g = s.rename h
  | ⟨fs, ms⟩, hs => by
    rw [Shape.names, List.forall_mem_append] at hs
    simp only [Shape.rename, Ty.rename_rename_all fs hs.1, Signature.rename_rename_all ms hs.2]
termination_by structural s => s

theorem Ty.rename_rename_all : ∀ ts : List Ty, (∀ x ∈ Ty.namesAll ts, g (f x) = h x) →
    Ty.renameAll g (Ty.renameAll f ts) = Ty.renameAll h ts
  | [], _ => rfl
  | t :: ts, hts => by
    rw [Ty.namesAll, List.forall_mem_append] at hts
    simp only [Ty.renameAll, Ty.rename_rename t hts.1, Ty.rename_rename_all ts hts.2]
termination_by structural ts => ts

theorem Signature.rename_rename_all :
    ∀ ss : List Signature, (∀ x ∈ Signature.namesAll ss, g (f x) = h x) →
      Signature.renameAll g (Signature.renameAll f ss) = Signature.renameAll h ss
  | [], _ => rfl
  | s :: ss, hss => by
    rw [Signature.namesAll, List.forall_mem_append] at hss
    simp only [Signature.renameAll, Signature.rename_rename s hss.1,
      Signature.rename_rename_all ss hss.2]
termination_by structural ss => ss

end

mutual

@[simp] theorem Ty.rename_id : ∀ t : Ty, t.rename id = t
  | .int | .bool | .null | .ref _ => rfl
  | .arrow s => congrArg Ty.arrow (Signature.rename_id s)
  | .method s => congrArg Ty.method (Signature.rename_id s)
  | .cls s => congrArg Ty.cls (Shape.rename_id s)
termination_by structural t => t

@[simp] theorem Signature.rename_id : ∀ s : Signature, s.rename id = s
  | ⟨ps, r⟩ => by simp only [Signature.rename, Ty.rename_id_all ps, Ty.rename_id r]
termination_by structural s => s

@[simp] theorem Shape.rename_id : ∀ s : Shape, s.rename id = s
  | ⟨fs, ms⟩ => by simp only [Shape.rename, Ty.rename_id_all fs, Signature.rename_id_all ms]
termination_by structural s => s

theorem Ty.rename_id_all : ∀ ts : List Ty, Ty.renameAll id ts = ts
  | [] => rfl
  | t :: ts => by simp only [Ty.renameAll, Ty.rename_id t, Ty.rename_id_all ts]
termination_by structural ts => ts

theorem Signature.rename_id_all : ∀ ss : List Signature, Signature.renameAll id ss = ss
  | [] => rfl
  | s :: ss => by simp only [Signature.renameAll, Signature.rename_id s, Signature.rename_id_all ss]
termination_by structural ss => ss

end

mutual

/-- A renaming that leaves a type as it is leaves its names as they are. -/
theorem Ty.fixed_of_rename_eq : ∀ t : Ty, t.rename f = t → ∀ x ∈ t.names, f x = x
  | .int, _ | .bool, _ | .null, _ => fun _ hx ↦ absurd hx List.not_mem_nil
  | .ref _, ht => fun _ hx ↦ List.mem_singleton.1 hx ▸ Ty.ref.inj ht
  | .arrow s, ht => Signature.fixed_of_rename_eq s (Ty.arrow.inj ht)
  | .method s, ht => Signature.fixed_of_rename_eq s (Ty.method.inj ht)
  | .cls s, ht => Shape.fixed_of_rename_eq s (Ty.cls.inj ht)
termination_by structural t => t

theorem Signature.fixed_of_rename_eq :
    ∀ s : Signature, s.rename f = s → ∀ x ∈ s.names, f x = x
  | ⟨ps, r⟩, hs => by
    rw [Signature.rename, Signature.mk.injEq] at hs
    rw [Signature.names, List.forall_mem_append]
    exact ⟨Ty.fixed_of_rename_all_eq ps hs.1, Ty.fixed_of_rename_eq r hs.2⟩
termination_by structural s => s

theorem Shape.fixed_of_rename_eq : ∀ s : Shape, s.rename f = s → ∀ x ∈ s.names, f x = x
  | ⟨fs, ms⟩, hs => by
    rw [Shape.rename, Shape.mk.injEq] at hs
    rw [Shape.names, List.forall_mem_append]
    exact ⟨Ty.fixed_of_rename_all_eq fs hs.1, Signature.fixed_of_rename_all_eq ms hs.2⟩
termination_by structural s => s

theorem Ty.fixed_of_rename_all_eq :
    ∀ ts : List Ty, Ty.renameAll f ts = ts → ∀ x ∈ Ty.namesAll ts, f x = x
  | [], _ => fun _ hx ↦ absurd hx List.not_mem_nil
  | t :: ts, hts => by
    rw [Ty.renameAll, List.cons.injEq] at hts
    rw [Ty.namesAll, List.forall_mem_append]
    exact ⟨Ty.fixed_of_rename_eq t hts.1, Ty.fixed_of_rename_all_eq ts hts.2⟩
termination_by structural ts => ts

theorem Signature.fixed_of_rename_all_eq :
    ∀ ss : List Signature, Signature.renameAll f ss = ss → ∀ x ∈ Signature.namesAll ss, f x = x
  | [], _ => fun _ hx ↦ absurd hx List.not_mem_nil
  | s :: ss, hss => by
    rw [Signature.renameAll, List.cons.injEq] at hss
    rw [Signature.namesAll, List.forall_mem_append]
    exact ⟨Signature.fixed_of_rename_eq s hss.1, Signature.fixed_of_rename_all_eq ss hss.2⟩
termination_by structural ss => ss

end

end Names

variable (f : String ↪ String)

/-- **Renaming keeps different types apart.**  It can be taken back. -/
@[simp] theorem Ty.rename_inj {t u : Ty} : t.rename f = u.rename f ↔ t = u := by
  refine ⟨fun h ↦ ?_, congrArg _⟩
  have hback : ∀ v : Ty, (v.rename f).rename (Function.invFun f) = v := fun v ↦
    (Ty.rename_rename v fun x _ ↦ Function.leftInverse_invFun f.injective x).trans v.rename_id
  rw [← hback t, h, hback u]

@[simp] theorem Shape.rename_inj {s t : Shape} : s.rename f = t.rename f ↔ s = t := by
  refine ⟨fun h ↦ ?_, congrArg _⟩
  have hcls : Ty.cls s = .cls t := (Ty.rename_inj f).1 (congrArg Ty.cls h)
  exact Ty.cls.inj hcls

/-! ## Tables -/

namespace Table

variable {κ κ' α β : Type} (k : κ ↪ κ') (g : α → β)

/-- A table with other keys, and something else for each value.  The keys have to stay different, so
there is no such table for any map of keys. -/
def map (t : Table κ α) : Table κ' β where
  entries := t.entries.map (Prod.map k g)
  nodup_keys := by
    have hkeys : (t.entries.map (Prod.map k g)).map Prod.fst = (t.entries.map Prod.fst).map k := by
      simp
    rw [hkeys]
    exact List.Nodup.map k.injective t.nodup_keys

@[simp] theorem size_map (t : Table κ α) : (t.map k g).size = t.size := List.length_map _

variable [DecidableEq κ] [DecidableEq κ']

theorem lookupIn_map (x : κ) (l : List (κ × α)) :
    lookupIn (k x) (l.map (Prod.map k g)) = (lookupIn x l).map g := by
  induction l with
  | nil => rfl
  | cons p l ih =>
    simp only [List.map_cons, Prod.map, lookupIn, ih, k.injective.eq_iff]
    split <;> rfl

@[simp] theorem find?_map (t : Table κ α) (x : κ) :
    (t.map k g).find? (k x) = (t.find? x).map g :=
  lookupIn_map k g x t.entries

@[simp] theorem contains_map (t : Table κ α) (x : κ) :
    (t.map k g).contains (k x) = t.contains x := by
  rw [contains, find?_map, Option.isSome_map, contains]

theorem map_insertIn (x : κ) (v : α) (l : List (κ × α)) :
    (insertIn x v l).map (Prod.map k g) = insertIn (k x) (g v) (l.map (Prod.map k g)) := by
  induction l with
  | nil => rfl
  | cons p l ih =>
    simp only [List.map_cons, Prod.map, insertIn, k.injective.eq_iff]
    split
    · rfl
    · rw [List.map_cons, ih]
      rfl

@[simp] theorem map_insert (t : Table κ α) (x : κ) (v : α) :
    (t.insert x v).map k g = (t.map k g).insert (k x) (g v) := by
  simp only [map, insert, map_insertIn]

@[simp] theorem map_insertNew (t : Table κ α) (x : κ) (v : α) :
    (t.insertNew x v).map k g = (t.map k g).insertNew (k x) (g v) := by
  rw [insertNew, insertNew, contains_map]
  split
  · rfl
  · exact map_insert k g t x v

end Table

/-! ## Hierarchies -/

namespace Hierarchy

variable (h : Hierarchy) (c d : String) (n : Nat)

/-- A hierarchy with other names for the classes. -/
def rename : Hierarchy := ⟨h.links.map f f⟩

@[simp] theorem superclass?_rename : (h.rename f).superclass? (f c) = (h.superclass? c).map f :=
  Table.find?_map f f h.links c

@[simp] theorem rename_link : (h.link c d).rename f = (h.rename f).link (f c) (f d) := by
  simp only [rename, link, Table.map_insertNew]

theorem ancestors_rename : (h.rename f).ancestors n (f c) = (h.ancestors n c).map f := by
  induction n generalizing c with
  | zero => rfl
  | succ n ih =>
    rw [ancestors, ancestors, superclass?_rename]
    cases h.superclass? c with
    | none => rfl
    | some d => simp [ih]

@[simp] theorem lineage_rename : (h.rename f).lineage (f c) = (h.lineage c).map f := by
  rw [lineage, ancestors_rename, rename, Table.size_map, lineage]

@[simp] theorem inherits_rename : (h.rename f).inherits (f c) (f d) = h.inherits c d := by
  rw [Bool.eq_iff_iff, inherits, inherits, lineage_rename, List.contains_iff_mem,
    List.contains_iff_mem, List.mem_map_of_injective f.injective]

end Hierarchy

/-! ## Subtyping -/

section Subtyping

variable (h : Hierarchy) (v : Variance)

theorem Ty.flatSubtype_rename (t u : Ty) :
    Ty.flatSubtype (h.rename f) (t.rename f) (u.rename f) = Ty.flatSubtype h t u := by
  cases t <;> cases u <;> simp [Ty.flatSubtype, Ty.rename]

theorem Variance.orient_rename (t u : Ty) :
    v.orient (Ty.flatSubtype (h.rename f)) (t.rename f) (u.rename f)
      = v.orient (Ty.flatSubtype h) t u := by
  cases v <;> exact Ty.flatSubtype_rename f h _ _

mutual

theorem Ty.related_rename (v : Variance) : ∀ t u : Ty,
    (t.rename f).related (h.rename f) v (u.rename f) = t.related h v u
  | .arrow s, u => by
    cases u with
    | arrow t => exact Signature.related_rename v s t
    | _ => exact Variance.orient_rename f h v (.arrow s) _
  | .method s, u => by
    cases u with
    | method t => exact Signature.related_rename v s t
    | _ => exact Variance.orient_rename f h v (.method s) _
  | .int, u => by cases u <;> exact Variance.orient_rename f h v .int _
  | .bool, u => by cases u <;> exact Variance.orient_rename f h v .bool _
  | .null, u => by cases u <;> exact Variance.orient_rename f h v .null _
  | .ref c, u => by cases u <;> exact Variance.orient_rename f h v (.ref c) _
  | .cls s, u => by cases u <;> exact Variance.orient_rename f h v (.cls s) _
termination_by structural t => t

theorem Signature.related_rename (v : Variance) : ∀ s t : Signature,
    (s.rename f).related (h.rename f) v (t.rename f) = s.related h v t
  | ⟨ps, r⟩, ⟨qs, q⟩ => by
    simp only [Signature.rename, Signature.related, Ty.related_rename v r q,
      Ty.relatedAll_rename v.flip ps qs]
    simp only [Ty.renameAll_eq, List.length_map]
termination_by structural s => s

theorem Ty.relatedAll_rename (v : Variance) : ∀ ts us : List Ty,
    Ty.relatedAll (h.rename f) v (Ty.renameAll f ts) (Ty.renameAll f us) = Ty.relatedAll h v ts us
  | [], us => by cases us <;> rfl
  | t :: ts, us => by
    cases us with
    | nil => rfl
    | cons u us =>
      simp only [Ty.renameAll, Ty.relatedAll, Ty.related_rename v t u, Ty.relatedAll_rename v ts us]
termination_by structural ts => ts

end

/-- **Subtyping does not depend on names.** -/
@[simp] theorem Ty.subtype_rename (t u : Ty) :
    (t.rename f).subtype (h.rename f) (u.rename f) = t.subtype h u :=
  Ty.related_rename f h .co t u

@[simp] theorem Signature.subtype_rename (s t : Signature) :
    (s.rename f).subtype (h.rename f) (t.rename f) = s.subtype h t :=
  Signature.related_rename f h .co s t

/-- **Nor does the nearest common ancestor**, apart from its own name. -/
@[simp] theorem Ty.commonAncestor?_rename (t u : Ty) :
    Ty.commonAncestor? (h.rename f) (t.rename f) (u.rename f)
      = (Ty.commonAncestor? h t u).map (Ty.rename f) := by
  cases t <;> cases u <;> try rfl
  rename_i c d
  have hrefs : ((h.lineage c).map f).map Ty.ref
      = ((h.lineage c).map Ty.ref).map (Ty.rename f) := by simp [Ty.rename]
  have htest : (fun t ↦ Ty.subtype (h.rename f) (.ref (f d)) t) ∘ Ty.rename f
      = fun t ↦ Ty.subtype h (.ref d) t :=
    funext fun t ↦ Ty.subtype_rename f h (.ref d) t
  rw [Ty.rename, Ty.rename, Ty.commonAncestor?, Hierarchy.lineage_rename, hrefs, List.find?_map,
    htest, Ty.commonAncestor?]

end Subtyping

end ObjectLet
