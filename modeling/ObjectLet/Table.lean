/-!
# Finite tables

A `Table κ α` assigns a value to finitely many keys.  It is a list of bindings in which no key
occurs twice, kept in the order in which the keys were first bound.  Everything the library records
about names, classes and tree nodes lives in one: scope frames, the members of a class, the classes
of a program, the decorations of a tree.

There are two ways to write.  `Table.insert` overwrites what is there, `Table.insertNew` leaves it
alone; `find?_insert` and `find?_insertNew` say what each does to the view `Table.find?`, and
nothing outside this file needs to look at the bindings themselves.
-/

set_option autoImplicit false

namespace ObjectLet

/-- Finitely many bindings of values to keys, no key bound twice. -/
structure Table (κ α : Type) where
  /-- The bindings, oldest key first. -/
  entries : List (κ × α)
  /-- No key is bound twice. -/
  nodup_keys : (entries.map Prod.fst).Nodup

namespace Table

variable {κ α : Type}

/-- The table that binds nothing. -/
def empty : Table κ α := ⟨[], List.nodup_nil⟩

instance : EmptyCollection (Table κ α) := ⟨empty⟩

instance : Inhabited (Table κ α) := ⟨empty⟩

/-- The keys that are bound, oldest first. -/
def keys (t : Table κ α) : List κ := t.entries.map Prod.fst

/-- How many keys are bound. -/
def size (t : Table κ α) : Nat := t.entries.length

/-- Whether no key is bound. -/
def isEmpty (t : Table κ α) : Bool := t.entries.isEmpty

variable [DecidableEq κ]

/-! ## Reading -/

/-- The value of the first binding of `k` in a list of bindings. -/
def lookupIn (k : κ) : List (κ × α) → Option α
  | [] => none
  | (k', v) :: rest => if k' = k then some v else lookupIn k rest

/-- The value bound to a key. -/
def find? (t : Table κ α) (k : κ) : Option α := lookupIn k t.entries

/-- Whether a key is bound. -/
def contains (t : Table κ α) (k : κ) : Bool := (t.find? k).isSome

@[simp] theorem find?_empty (k : κ) : (∅ : Table κ α).find? k = none := rfl

theorem lookupIn_isSome_iff {k : κ} {l : List (κ × α)} :
    (lookupIn k l).isSome = true ↔ k ∈ l.map Prod.fst := by
  induction l with
  | nil => simp [lookupIn]
  | cons p rest ih =>
    obtain ⟨k', v⟩ := p
    by_cases h : k' = k
    · simp [lookupIn, h]
    · simp [lookupIn, h, ih, Ne.symm h]

theorem contains_iff_mem_keys {t : Table κ α} {k : κ} : t.contains k = true ↔ k ∈ t.keys :=
  lookupIn_isSome_iff

/-! ## Writing -/

/-- Rebinds `k` where it is bound, and binds it at the end of the list otherwise. -/
def insertIn (k : κ) (v : α) : List (κ × α) → List (κ × α)
  | [] => [(k, v)]
  | (k', v') :: rest => if k' = k then (k, v) :: rest else (k', v') :: insertIn k v rest

theorem mem_keys_insertIn {k x : κ} {v : α} {l : List (κ × α)} :
    x ∈ (insertIn k v l).map Prod.fst ↔ x = k ∨ x ∈ l.map Prod.fst := by
  induction l with
  | nil => simp [insertIn]
  | cons p rest ih =>
    obtain ⟨k', v'⟩ := p
    by_cases h : k' = k
    · simp [insertIn, h]
    · rw [insertIn, if_neg h, List.map_cons, List.mem_cons, ih, List.map_cons, List.mem_cons]
      exact ⟨fun hx ↦ hx.elim (fun e ↦ .inr (.inl e)) (·.elim .inl fun m ↦ .inr (.inr m)),
        fun hx ↦ hx.elim (fun e ↦ .inr (.inl e)) (·.elim .inl fun m ↦ .inr (.inr m))⟩

theorem nodup_insertIn {k : κ} {v : α} {l : List (κ × α)} (h : (l.map Prod.fst).Nodup) :
    ((insertIn k v l).map Prod.fst).Nodup := by
  induction l with
  | nil => simp [insertIn]
  | cons p rest ih =>
    obtain ⟨k', v'⟩ := p
    rw [List.map_cons, List.nodup_cons] at h
    by_cases hk : k' = k
    · subst hk; simpa [insertIn] using h
    · rw [insertIn, if_neg hk, List.map_cons, List.nodup_cons, mem_keys_insertIn]
      exact ⟨fun hm ↦ hm.elim hk h.1, ih h.2⟩

/-- Binds a key, whatever it was bound to before. -/
def insert (t : Table κ α) (k : κ) (v : α) : Table κ α :=
  ⟨insertIn k v t.entries, nodup_insertIn t.nodup_keys⟩

/-- Binds a key unless it is bound already: the first value written stays. -/
def insertNew (t : Table κ α) (k : κ) (v : α) : Table κ α :=
  if t.contains k then t else t.insert k v

/-- The table of a list of bindings; of two bindings of one key the later one counts. -/
def ofList (l : List (κ × α)) : Table κ α := l.foldl (fun t p ↦ t.insert p.1 p.2) ∅

theorem lookupIn_insertIn {k x : κ} {v : α} {l : List (κ × α)} :
    lookupIn x (insertIn k v l) = if k = x then some v else lookupIn x l := by
  induction l with
  | nil => rfl
  | cons p rest ih =>
    obtain ⟨k', v'⟩ := p
    by_cases hk : k' = k
    · subst hk
      by_cases hx : k' = x <;> simp [insertIn, lookupIn, hx]
    · rw [insertIn, if_neg hk, lookupIn, ih, lookupIn]
      by_cases hx : k' = x
      · subst hx; simp [Ne.symm hk]
      · simp [hx]

/-- An insertion changes the value of its own key and of no other. -/
theorem find?_insert (t : Table κ α) (k x : κ) (v : α) :
    (t.insert k v).find? x = if k = x then some v else t.find? x :=
  lookupIn_insertIn

@[simp] theorem find?_insert_self (t : Table κ α) (k : κ) (v : α) :
    (t.insert k v).find? k = some v := by
  rw [find?_insert, if_pos rfl]

theorem find?_insert_of_ne (t : Table κ α) {k x : κ} (v : α) (h : k ≠ x) :
    (t.insert k v).find? x = t.find? x := by
  rw [find?_insert, if_neg h]

/-- A first insertion changes the value of its own key only, and only if there was none. -/
theorem find?_insertNew (t : Table κ α) (k x : κ) (v : α) :
    (t.insertNew k v).find? x = if k = x then some ((t.find? k).getD v) else t.find? x := by
  unfold insertNew contains
  cases hf : t.find? k with
  | none => simp [find?_insert]
  | some w =>
    by_cases hx : k = x
    · subst hx; simp [hf]
    · simp [hx]

/-! ## Writing into lists of bindings

Other lists than those inside tables are written in the same way: a key that is there keeps its
place, and a new one goes to the end. -/

theorem map_fst_insertIn_of_mem {k : κ} {v : α} {l : List (κ × α)} (h : k ∈ l.map Prod.fst) :
    (insertIn k v l).map Prod.fst = l.map Prod.fst := by
  induction l with
  | nil => simp at h
  | cons p rest ih =>
    obtain ⟨k', v'⟩ := p
    by_cases hk : k' = k
    · simp [insertIn, hk]
    · have hrest : k ∈ rest.map Prod.fst := by simpa [Ne.symm hk] using h
      simp [insertIn, hk, ih hrest]

theorem insertIn_of_not_mem {k : κ} {v : α} {l : List (κ × α)} (h : k ∉ l.map Prod.fst) :
    insertIn k v l = l ++ [(k, v)] := by
  induction l with
  | nil => rfl
  | cons p rest ih =>
    obtain ⟨k', v'⟩ := p
    rw [List.map_cons, List.mem_cons, not_or] at h
    rw [insertIn, if_neg (Ne.symm h.1), ih h.2, List.cons_append]

theorem map_snd_insertIn_of_mem {k : κ} {v : α} {l : List (κ × α)} (h : k ∈ l.map Prod.fst) :
    (insertIn k v l).map Prod.snd = (l.map Prod.snd).set ((l.map Prod.fst).idxOf k) v := by
  induction l with
  | nil => simp at h
  | cons p rest ih =>
    obtain ⟨k', v'⟩ := p
    by_cases hk : k' = k
    · simp [insertIn, hk]
    · have hrest : k ∈ rest.map Prod.fst := by simpa [Ne.symm hk] using h
      have hbeq : (k' == k) = false := beq_false_of_ne hk
      rw [insertIn, if_neg hk, List.map_cons, ih hrest, List.map_cons, List.map_cons,
        List.idxOf_cons, hbeq, cond_false, List.set_cons_succ]

/-- Binds several keys in a list, one after the other. -/
def insertAll (ps : List (κ × α)) (l : List (κ × α)) : List (κ × α) :=
  ps.foldl (fun l p ↦ insertIn p.1 p.2 l) l

@[simp] theorem insertAll_nil (l : List (κ × α)) : insertAll [] l = l := rfl

@[simp] theorem insertAll_cons (p : κ × α) (ps l : List (κ × α)) :
    insertAll (p :: ps) l = insertAll ps (insertIn p.1 p.2 l) := rfl

theorem lookupIn_eq_none {k : κ} {l : List (κ × α)} (h : k ∉ l.map Prod.fst) :
    lookupIn k l = none := by
  rwa [← lookupIn_isSome_iff, Bool.not_eq_true, Option.isSome_eq_false_iff,
    Option.isNone_iff_eq_none] at h

theorem mem_keys_of_lookupIn {k : κ} {v : α} {l : List (κ × α)} (h : lookupIn k l = some v) :
    k ∈ l.map Prod.fst := by
  rw [← lookupIn_isSome_iff, h]
  rfl

theorem mem_of_lookupIn {k : κ} {v : α} {l : List (κ × α)} (h : lookupIn k l = some v) :
    (k, v) ∈ l := by
  induction l with
  | nil => cases h
  | cons p rest ih =>
    obtain ⟨k', v'⟩ := p
    rw [lookupIn] at h
    split at h
    · rename_i hk
      rw [hk, Option.some.inj h]
      exact List.mem_cons_self
    · exact List.mem_cons_of_mem _ (ih h)

theorem lookupIn_append (k : κ) (l m : List (κ × α)) :
    lookupIn k (l ++ m) = (lookupIn k l).or (lookupIn k m) := by
  induction l with
  | nil => rfl
  | cons p l ih =>
    rw [List.cons_append, lookupIn, ih, lookupIn]
    split <;> rfl

theorem lookupIn_insertAll {ps l : List (κ × α)} (h : (ps.map Prod.fst).Nodup) (x : κ) :
    lookupIn x (insertAll ps l) = (lookupIn x ps).or (lookupIn x l) := by
  induction ps generalizing l with
  | nil => rfl
  | cons p ps ih =>
    obtain ⟨k, v⟩ := p
    rw [List.map_cons, List.nodup_cons] at h
    rw [insertAll_cons, ih h.2, lookupIn_insertIn, lookupIn]
    by_cases hk : k = x
    · subst hk
      simp [lookupIn_eq_none h.1]
    · simp [hk]

theorem map_fst_insertAll {ps l : List (κ × α)} (h : (ps.map Prod.fst).Nodup) :
    (insertAll ps l).map Prod.fst
      = l.map Prod.fst ++ (ps.map Prod.fst).filter fun x ↦ !(l.map Prod.fst).contains x := by
  induction ps generalizing l with
  | nil => simp
  | cons p ps ih =>
    obtain ⟨k, v⟩ := p
    rw [List.map_cons, List.nodup_cons] at h
    rw [insertAll_cons, ih h.2, List.map_cons, List.filter_cons]
    by_cases hk : k ∈ l.map Prod.fst
    · simp only [map_fst_insertIn_of_mem hk, List.contains_iff_mem.2 hk, Bool.not_true,
        Bool.false_eq_true, if_false]
    · have hrest : ∀ x ∈ ps.map Prod.fst, x ≠ k := fun x hx e ↦ h.1 (e ▸ hx)
      rw [insertIn_of_not_mem hk, List.map_append, List.append_assoc]
      congr 1
      have hnot : (!(l.map Prod.fst).contains k) = true := by simpa using hk
      rw [if_pos hnot]
      refine congrArg (k :: ·) (List.filter_congr fun x hx ↦ ?_)
      simp [hrest x hx]

end Table

end ObjectLet
