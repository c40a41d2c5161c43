import ObjectLet.Proofs.Placement

/-!
# What assembling gives

Assembling ends in one of three ways.  A label that is marked twice is reported first, then one that
is referred to and marked nowhere, and in both cases it is the first such place that counts.  If
there is neither, the code can be read again word by word: an opcode says by itself whether an
operand follows, so that operands are never taken for opcodes.

* `decode`: reads code, without knowing what it was assembled from.
* `FirstRepeated`, `FirstMissing`: the labels that are reported.
* `decode_encoded`: **the words of a list of instructions are read as its instructions.**
* `assemble_outcomes`: **which of the three ways it is, and what is read in the end.**
-/

set_option autoImplicit false

namespace ObjectLet

/-! ## Reading code -/

/-- An instruction as it is read off code.  The marks of labels have left nothing to read. -/
structure Decoded where
  /-- Where it begins. -/
  address : Nat
  /-- What its first word says. -/
  opcode : Opcode
  /-- The word after that, if it takes one. -/
  operand : Option Int32
deriving DecidableEq

/-- Reads words that begin at an address.  Refused if an opcode or an operand is missing. -/
def decode (address : Nat) : List Int32 → Option (List Decoded)
  | [] => some []
  | word :: words =>
    match Opcode.ofWord? word with
    | none => none
    | some o =>
      if o.hasOperand then
        match words with
        | [] => none
        | v :: rest => (decode (address + 2) rest).map (⟨address, o, some v⟩ :: ·)
      else (decode (address + 1) words).map (⟨address, o, none⟩ :: ·)

/-- Whether an instruction becomes code, which the mark of a label does not. -/
def Instr.isCode (i : Instr) : Bool := i.opcode?.isSome

/-- What is read is an instruction, with the given words for the labels.  A label that is pushed
cannot be told from a number any more. -/
inductive Instr.ReadAs (address : Label → Int32 → Prop) : Instr → Decoded → Prop
  | push (a : Nat) (v : Int32) : ReadAs address (.push v) ⟨a, .push, some v⟩
  | pushLabel (a : Nat) {l : Label} {w : Int32} (h : address l w) :
    ReadAs address (.pushLabel l) ⟨a, .push, some w⟩
  | jump (a : Nat) (j : Jump) {l : Label} {w : Int32} (h : address l w) :
    ReadAs address (.jump j l) ⟨a, .jump j, some w⟩
  | plain (a : Nat) (op : Operation) : ReadAs address (.plain op) ⟨a, .plain op, none⟩

theorem Instr.ReadAs.mono {address address' : Label → Int32 → Prop} {i : Instr} {d : Decoded}
    (h : i.ReadAs address d) (himp : ∀ l w, address l w → address' l w) : i.ReadAs address' d := by
  cases h with
  | push a v => exact .push a v
  | pushLabel a h => exact .pushLabel a (himp _ _ h)
  | jump a j h => exact .jump a j (himp _ _ h)
  | plain a op => exact .plain a op

section Reading

variable {o : Opcode} {a : Nat} {ws : List Int32}

theorem decode_operand (h : o.hasOperand = true) (v : Int32) :
    decode a (o.word :: v :: ws) = (decode (a + 2) ws).map (⟨a, o, some v⟩ :: ·) := by
  rw [decode, Opcode.ofWord?_word]
  exact if_pos h

theorem decode_plain (h : o.hasOperand = false) :
    decode a (o.word :: ws) = (decode (a + 1) ws).map (⟨a, o, none⟩ :: ·) := by
  rw [decode, Opcode.ofWord?_word]
  exact if_neg (by simp [h])

/-- One more instruction is read in front of others. -/
theorem decode_encoded_cons {i : Instr} (hi : i.isCode = true) (place : Label → Nat) (a : Nat)
    (ws : List Int32) :
    ∃ d, i.ReadAs (fun l w ↦ i.target? = some l ∧ w = Int32.ofNat (place l)) d ∧ d.address = a ∧
      decode a (i.encoded place ++ ws) = (decode (a + i.size) ws).map (d :: ·) := by
  cases i with
  | push v => exact ⟨_, .push a v, rfl, decode_operand rfl v⟩
  | pushLabel l => exact ⟨_, .pushLabel a ⟨rfl, rfl⟩, rfl, decode_operand rfl _⟩
  | jump j l => exact ⟨_, .jump a j ⟨rfl, rfl⟩, rfl, decode_operand rfl _⟩
  | plain op => exact ⟨_, .plain a op, rfl, decode_plain rfl⟩
  | mark l => cases hi

end Reading

theorem references_cons (i : Instr) (is : List Instr) :
    references (i :: is) = i.target?.toList ++ references is := by
  cases hi : i.target? <;> simp [references, hi]

/-- **The words of a list of instructions are read as its instructions**, and each of them begins
behind those in front of it. -/
theorem decode_encoded (place : Label → Nat) (is : List Instr) (a : Nat) :
    ∃ ds, decode a (is.flatMap (Instr.encoded place)) = some ds ∧
      List.Forall₂ (Instr.ReadAs fun l w ↦ l ∈ references is ∧ w = Int32.ofNat (place l))
        (is.filter Instr.isCode) ds ∧
      ∀ before i after, is = before ++ i :: after → i.isCode = true →
        ∃ d ∈ ds, d.address = a + codeSize before := by
  induction is generalizing a with
  | nil => exact ⟨[], rfl, .nil, fun before i after h ↦ by simp at h⟩
  | cons i is ih =>
    obtain ⟨ds, hds, hread, hbegin⟩ := ih (a + i.size)
    have hrest : ∀ l w, l ∈ references is ∧ w = Int32.ofNat (place l) →
        l ∈ references (i :: is) ∧ w = Int32.ofNat (place l) :=
      fun l w h ↦ ⟨references_cons i is ▸ List.mem_append_right _ h.1, h.2⟩
    have hread := hread.imp fun _ _ h ↦ Instr.ReadAs.mono h hrest
    rw [List.flatMap_cons]
    by_cases hi : i.isCode = true
    · obtain ⟨d, hd, hda, hdec⟩ := decode_encoded_cons hi place a (is.flatMap (Instr.encoded place))
      refine ⟨d :: ds, by rw [hdec, hds]; rfl, ?_, ?_⟩
      · rw [List.filter_cons_of_pos hi]
        refine .cons (hd.mono fun l w h ↦ ⟨?_, h.2⟩) hread
        exact references_cons i is ▸ List.mem_append_left _ (Option.mem_toList.2 h.1)
      · rintro (_ | ⟨j, before⟩) k after h hk
        · exact ⟨d, List.mem_cons_self, hda⟩
        · obtain ⟨rfl, htail⟩ := List.cons.inj h
          obtain ⟨d', hd', ha⟩ := hbegin before k after htail hk
          exact ⟨d', List.mem_cons_of_mem _ hd', by rw [ha, codeSize_cons, Nat.add_assoc]⟩
    · cases i with
      | mark l =>
        refine ⟨ds, hds, by rwa [List.filter_cons_of_neg hi], ?_⟩
        rintro (_ | ⟨j, before⟩) k after h hk
        · exact absurd ((List.cons.inj h).1 ▸ hk) hi
        · obtain ⟨rfl, htail⟩ := List.cons.inj h
          obtain ⟨d, hd, ha⟩ := hbegin before k after htail hk
          exact ⟨d, hd, by rw [ha, codeSize_cons, Nat.add_assoc]⟩
      | _ => exact absurd rfl hi

/-! ## What is reported -/

/-- The mark of a label is the first one that repeats another mark.  It is the first error to be
found, since labels are placed before anything else is looked at. -/
def FirstRepeated (is : List Instr) (l : Label) : Prop :=
  ∃ before i after, is = before ++ i :: after ∧
    i = .mark l ∧ l ∈ marks before ∧ (marks before).Nodup

/-- A reference to a label is the first one to a label that is marked nowhere. -/
def FirstMissing (is : List Instr) (l : Label) : Prop :=
  ∃ before i after, is = before ++ i :: after ∧
    i.target? = some l ∧ l ∉ marks is ∧ ∀ m ∈ references before, m ∈ marks is

section Reports

variable {is : List Instr} {l : Label} {e : AssemblyError}

/-- A place in a list is its first element or one behind it. -/
theorem exists_place_cons {α : Type} {a : α} {as : List α} {P : List α → α → Prop} :
    (∃ before b after, a :: as = before ++ b :: after ∧ P before b) ↔
      P [] a ∨ ∃ before b after, as = before ++ b :: after ∧ P (a :: before) b := by
  constructor
  · rintro ⟨_ | ⟨c, before⟩, b, after, h, hP⟩
    · obtain ⟨rfl, -⟩ := List.cons.inj h
      exact .inl hP
    · obtain ⟨rfl, htail⟩ := List.cons.inj h
      exact .inr ⟨before, b, after, htail, hP⟩
  · rintro (hP | ⟨before, b, after, rfl, hP⟩)
    · exact ⟨[], a, as, rfl, hP⟩
    · exact ⟨a :: before, b, after, rfl, hP⟩

theorem Table.contains_insert {κ α : Type} [DecidableEq κ] (t : Table κ α) (k x : κ) (v : α) :
    (t.insert k v).contains x = (decide (k = x) || t.contains x) := by
  rw [Table.contains, Table.find?_insert]
  by_cases hk : k = x <;> simp [hk, Table.contains]

/-- A label that is known from a mark may as well be known from before. -/
theorem repeated_insert_iff {placed : Table Label Nat} {m : Label} (hm : placed.contains m = false)
    (a : Nat) (ms : List Label) :
    ((l ∈ ms ∨ (placed.insert m a).contains l = true) ∧ ms.Nodup ∧
        ∀ x ∈ ms, (placed.insert m a).contains x = false) ↔
      (l ∈ m :: ms ∨ placed.contains l = true) ∧ (m :: ms).Nodup ∧
        ∀ x ∈ m :: ms, placed.contains x = false := by
  simp only [Table.contains_insert, Bool.or_eq_true, decide_eq_true_eq, Bool.or_eq_false_iff,
    decide_eq_false_iff_not, List.mem_cons, List.nodup_cons]
  grind

/-- The first pass fails at the first mark of a label that is known already. -/
theorem placeLabels_eq_error_iff {a : Nat} {placed : Table Label Nat} :
    placeLabels a placed is = .error e ↔ ∃ before i after, is = before ++ i :: after ∧
      ∃ l, i = .mark l ∧ e = .duplicateLabel l ∧ (l ∈ marks before ∨ placed.contains l = true) ∧
        (marks before).Nodup ∧ ∀ m ∈ marks before, placed.contains m = false := by
  induction is generalizing a placed with
  | nil => simp [placeLabels]
  | cons i rest ih =>
    rw [exists_place_cons]
    cases i with
    | mark m =>
      rw [placeLabels]
      split
      · rename_i hm
        constructor
        · intro h
          exact .inl ⟨m, rfl, (Except.error.inj h).symm, .inr hm, List.nodup_nil,
            List.forall_mem_nil _⟩
        · rintro (⟨l, hl, rfl, -⟩ | ⟨before, i, after, -, l, -, -, -, -, hnew⟩)
          · rw [Instr.mark.inj hl]
          · rw [hnew m List.mem_cons_self] at hm
            cases hm
      · rename_i hm
        rw [Bool.not_eq_true] at hm
        rw [ih, or_iff_right]
        · simp only [repeated_insert_iff hm]
          rfl
        · rintro ⟨l, hl, -, hold | hold, -⟩
          · cases hold
          · rw [← Instr.mark.inj hl, hm] at hold
            cases hold
    | _ =>
      refine Iff.trans ih ?_
      rw [or_iff_right]
      · rfl
      · rintro ⟨l, hl, -⟩
        cases hl

/-- An instruction is written unless it refers to a label that is not known. -/
theorem words_cases (t : Table Label Nat) (i : Instr) :
    (∃ l, i.target? = some l ∧ t.contains l = false ∧ i.words t = .error (.undefinedLabel l)) ∨
      (∀ l, i.target? = some l → t.contains l = true) ∧ ∃ ws, i.words t = .ok ws := by
  have haddress : ∀ l, t.contains l = false ∧ addressWord t l = .error (.undefinedLabel l) ∨
      t.contains l = true ∧ ∃ w, addressWord t l = .ok w := by
    intro l
    cases hl : t.find? l <;> simp [Table.contains, addressWord, hl]
  cases i with
  | push v | plain op | mark l => exact .inr ⟨fun l hl ↦ (by cases hl), _, rfl⟩
  | pushLabel l | jump j l =>
    rcases haddress l with ⟨hnew, hword⟩ | ⟨hold, w, hword⟩
    · exact .inl ⟨l, rfl, hnew, by rw [Instr.words, hword]; rfl⟩
    · refine .inr ⟨fun l' hl' ↦ Option.some.inj hl' ▸ hold, ?_⟩
      rw [Instr.words, hword]
      exact ⟨_, rfl⟩

/-- The second pass fails at the first reference to a label that is not known. -/
theorem encode_eq_error_iff {t : Table Label Nat} :
    encode t is = .error e ↔ ∃ before i after, is = before ++ i :: after ∧
      ∃ l, i.target? = some l ∧ e = .undefinedLabel l ∧ t.contains l = false ∧
        ∀ m ∈ references before, t.contains m = true := by
  induction is with
  | nil => simp [encode]
  | cons i rest ih =>
    rw [exists_place_cons]
    simp only [references_cons, List.forall_mem_append, Option.mem_toList]
    rcases words_cases t i with ⟨l, hl, hnew, hwords⟩ | ⟨hknown, ws, hwords⟩
    · rw [encode, hwords]
      constructor
      · intro h
        exact .inl ⟨l, hl, (Except.error.inj h).symm, hnew, List.forall_mem_nil _⟩
      · rintro (⟨m, hm, rfl, -⟩ | ⟨before, j, after, -, m, -, -, -, hall, -⟩)
        · rw [← Option.some.inj (hl.symm.trans hm)]
          rfl
        · rw [hall l hl] at hnew
          cases hnew
    · have hrest : encode t (i :: rest) = .error e ↔ encode t rest = .error e := by
        rw [encode, hwords]
        cases encode t rest with
        | error e' => rfl
        | ok ws' => simp [bind, Except.bind, pure, Except.pure]
      rw [hrest, ih, or_iff_right]
      · simp only [and_iff_right hknown]
      · rintro ⟨m, hm, -, hnew, -⟩
        rw [hknown m hm] at hnew
        cases hnew

/-- The first pass fails exactly if some mark repeats another one. -/
theorem placeLabels_eq_duplicate_iff :
    placeLabels 0 ∅ is = .error e ↔ ∃ l, e = .duplicateLabel l ∧ FirstRepeated is l := by
  have hnone : ∀ m : Label, (∅ : Table Label Nat).contains m = false := fun _ ↦ rfl
  simp only [placeLabels_eq_error_iff, hnone, implies_true, and_true, Bool.false_eq_true, or_false,
    FirstRepeated]
  constructor
  · rintro ⟨before, i, after, his, l, hl, he, h⟩
    exact ⟨l, he, before, i, after, his, hl, h⟩
  · rintro ⟨l, he, before, i, after, his, hl, h⟩
    exact ⟨before, i, after, his, l, hl, he, h⟩

/-- There is a first repeated mark exactly if there is a repeated one. -/
theorem exists_firstRepeated_iff : (∃ l, FirstRepeated is l) ↔ ¬ (marks is).Nodup := by
  constructor
  · rintro ⟨l, before, i, after, rfl, rfl, hl, -⟩ hnd
    rw [marks_append, List.nodup_append] at hnd
    exact hnd.2.2 l hl l List.mem_cons_self rfl
  · intro hnd
    cases hp : placeLabels 0 ∅ is with
    | ok t => exact absurd (marks_of_placeLabels hp).1 hnd
    | error e =>
      obtain ⟨l, -, hl⟩ := placeLabels_eq_duplicate_iff.1 hp
      exact ⟨l, hl⟩

theorem assemble_of_unplaced (h : placeLabels 0 ∅ is = .error e) : assemble is = .error e := by
  rw [assemble, h]
  rfl

theorem assemble_of_placed {t : Table Label Nat} (h : placeLabels 0 ∅ is = .ok t) :
    assemble is = (encode t is).map fun ws ↦ ⟨ws.toArray⟩ := by
  simp only [assemble, h, bind, Except.bind]
  cases encode t is <;> rfl

/-- A repeated mark is reported, and it is the first one. -/
theorem assemble_eq_duplicate_iff :
    assemble is = .error (.duplicateLabel l) ↔ FirstRepeated is l := by
  cases hp : placeLabels 0 ∅ is with
  | error e =>
    obtain ⟨m, rfl, hm⟩ := placeLabels_eq_duplicate_iff.1 hp
    constructor
    · intro h
      cases (assemble_of_unplaced hp).symm.trans h
      exact hm
    · intro h
      exact assemble_of_unplaced (placeLabels_eq_duplicate_iff.2 ⟨l, rfl, h⟩)
  | ok t =>
    have hnot : ¬ FirstRepeated is l := fun h ↦ by
      cases hp.symm.trans (placeLabels_eq_duplicate_iff.2 ⟨l, rfl, h⟩)
    rw [assemble_of_placed hp]
    refine iff_of_false (fun h ↦ ?_) hnot
    cases hw : encode t is with
    | ok ws =>
      rw [hw] at h
      cases h
    | error e =>
      obtain ⟨_, _, _, -, m, -, rfl, -⟩ := encode_eq_error_iff.1 hw
      rw [hw] at h
      cases h

/-- If no mark is repeated, a missing mark is reported, namely that of the first reference. -/
theorem assemble_eq_undefined_iff :
    assemble is = .error (.undefinedLabel l) ↔ (marks is).Nodup ∧ FirstMissing is l := by
  by_cases hnd : (marks is).Nodup
  · obtain ⟨t, ht, hfind⟩ := @placeLabels_eq_ok is ∅ 0 hnd fun l _ ↦ by simp [Table.contains]
    have hcontains : ∀ m, t.contains m = true ↔ m ∈ marks is := by
      intro m
      by_cases hm : m ∈ marks is <;> simp [Table.contains, hfind m, hm]
    have hmissing : encode t is = .error (.undefinedLabel l) ↔ FirstMissing is l := by
      simp only [encode_eq_error_iff, ← Bool.not_eq_true, hcontains, FirstMissing]
      constructor
      · rintro ⟨before, i, after, his, m, hm, he, h⟩
        cases he
        exact ⟨before, i, after, his, hm, h⟩
      · rintro ⟨before, i, after, his, hl, h⟩
        exact ⟨before, i, after, his, l, hl, rfl, h⟩
    rw [assemble_of_placed ht, and_iff_right hnd, ← hmissing]
    cases encode t is with
    | error e => simp [Except.map]
    | ok ws => simp [Except.map]
  · obtain ⟨m, hm⟩ := exists_firstRepeated_iff.2 hnd
    rw [assemble_eq_duplicate_iff.2 hm]
    exact iff_of_false (fun h ↦ by cases h) fun h ↦ hnd h.1

end Reports

/-! ## What is read -/

/-- A word in the code of `is`, which is read as `ds`, is the address of a label. -/
structure AddressIn (is : List Instr) (ds : List Decoded) (l : Label) (w : Int32) : Prop where
  /-- It is the size of what is in front of the mark. -/
  placed : ∃ before after, is = before ++ .mark l :: after ∧ w.toInt = codeSize before
  /-- An instruction begins there, or the code ends. -/
  lands : (∃ d ∈ ds, w.toInt = d.address) ∨ w.toInt = codeSize is

section Outcomes

variable {is : List Instr} {l : Label}

/-- Behind a mark there is an instruction that becomes code, or the code ends. -/
theorem exists_code (is : List Instr) :
    codeSize is = 0 ∨ ∃ ms i rest, is = ms ++ i :: rest ∧ codeSize ms = 0 ∧ i.isCode = true := by
  induction is with
  | nil => exact .inl rfl
  | cons i is ih =>
    cases i with
    | mark l =>
      rcases ih with hzero | ⟨ms, j, rest, rfl, hzero, hj⟩
      · exact .inl (by simpa [Instr.size] using hzero)
      · exact .inr ⟨.mark l :: ms, j, rest, rfl, by simpa [Instr.size] using hzero, hj⟩
    | _ => exact .inr ⟨[], _, is, rfl, rfl, rfl⟩

/-- The address of a label that is marked once is read where the label is referred to. -/
theorem addressIn_of_marked {ds : List Decoded} (hsmall : codeSize is < 2 ^ 31)
    (hnd : (marks is).Nodup) (hl : l ∈ marks is)
    (hbegin : ∀ before i after, is = before ++ i :: after → i.isCode = true →
      ∃ d ∈ ds, d.address = codeSize before) :
    AddressIn is ds l (Int32.ofNat (addressOf l is)) := by
  have hle := addressOf_le l is
  have hword : (Int32.ofNat (addressOf l is)).toInt = addressOf l is :=
    Int32.toInt_ofNat_of_lt (by omega)
  obtain ⟨before, after, rfl⟩ := List.append_of_mem (mem_marks_iff.1 hl)
  have hplace : addressOf l (before ++ .mark l :: after) = codeSize before := by
    refine addressOf_eq fun hmem ↦ ?_
    rw [marks_append, List.nodup_append] at hnd
    exact hnd.2.2 l hmem l List.mem_cons_self rfl
  rw [hplace] at hword ⊢
  refine ⟨⟨before, after, rfl, hword⟩, ?_⟩
  rcases exists_code after with hzero | ⟨ms, i, rest, rfl, hzero, hi⟩
  · exact .inr (by simp [hword, hzero, Instr.size])
  · obtain ⟨d, hd, ha⟩ := hbegin (before ++ .mark l :: ms) i rest (by simp) hi
    refine .inl ⟨d, hd, ?_⟩
    rw [hword, ha]
    simp [hzero, Instr.size]

/-- A missing mark is reported exactly if there is one, and no mark is repeated. -/
theorem exists_undefined_iff : (∃ l, assemble is = .error (.undefinedLabel l)) ↔
    (marks is).Nodup ∧ ∃ l ∈ references is, l ∉ marks is := by
  constructor
  · rintro ⟨l, h⟩
    obtain ⟨hnd, before, i, after, his, hi, hl, -⟩ := assemble_eq_undefined_iff.1 h
    refine ⟨hnd, l, ?_, hl⟩
    rw [his, references_append, references_cons, hi]
    simp
  · rintro ⟨hnd, l, hl, hnot⟩
    cases h : assemble is with
    | ok b => exact absurd ((assemble_eq_ok_iff.1 h).2.1 l hl) hnot
    | error e =>
      cases e with
      | duplicateLabel m =>
        exact absurd hnd (exists_firstRepeated_iff.1 ⟨m, assemble_eq_duplicate_iff.1 h⟩)
      | undefinedLabel m => exact ⟨m, rfl⟩

end Outcomes

/-- **What assembling gives.**  If a label is marked twice, the first mark that repeats another one
is reported.  Otherwise, if a label is referred to that is marked nowhere, the first reference of
this kind is reported.  Otherwise there is code, as many words as the sizes of the instructions add
up to.  Read from the beginning it is the list without its marks, with the address of its mark for
each label. -/
theorem assemble_outcomes {is : List Instr} (hsmall : codeSize is < 2 ^ 31) :
    ((∃ l, assemble is = .error (.duplicateLabel l)) ↔ ∃ l, 2 ≤ (marks is).count l) ∧
    (∀ l, assemble is = .error (.duplicateLabel l) ↔ FirstRepeated is l) ∧
    ((∃ l, assemble is = .error (.undefinedLabel l)) ↔
      (∀ l, (marks is).count l ≤ 1) ∧ ∃ l ∈ references is, l ∉ marks is) ∧
    (∀ l, assemble is = .error (.undefinedLabel l) ↔
      (∀ m, (marks is).count m ≤ 1) ∧ FirstMissing is l) ∧
    ((∀ l, (marks is).count l ≤ 1) → (∀ l ∈ references is, l ∈ marks is) →
      ∃ b ds, assemble is = .ok b ∧ b.size = codeSize is ∧ decode 0 b.code.toList = some ds ∧
        List.Forall₂ (Instr.ReadAs (AddressIn is ds)) (is.filter Instr.isCode) ds) := by
  simp only [← List.nodup_iff_count_le_one]
  have hrepeated : ¬ (marks is).Nodup ↔ ∃ l, 2 ≤ (marks is).count l := by
    rw [List.nodup_iff_count_le_one, not_forall]
    exact exists_congr fun l ↦ Nat.not_le
  refine ⟨?_, fun l ↦ assemble_eq_duplicate_iff, exists_undefined_iff,
    fun l ↦ assemble_eq_undefined_iff, fun hnd hall ↦ ?_⟩
  · simp only [assemble_eq_duplicate_iff, exists_firstRepeated_iff, hrepeated]
  · obtain ⟨ds, hds, hread, hbegin⟩ := decode_encoded (fun l ↦ addressOf l is) is 0
    simp only [Nat.zero_add] at hbegin
    have hb : assemble is = .ok ⟨_⟩ := assemble_eq_ok_iff.2 ⟨hnd, hall, rfl⟩
    refine ⟨_, ds, hb, Assembled.size_eq hb, hds, hread.imp fun i d h ↦ h.mono ?_⟩
    rintro l w ⟨hl, rfl⟩
    exact addressIn_of_marked hsmall hnd (hall l hl) hbegin

/-- A loop that is left by a jump behind its end, where there are two marks. -/
def leaving : List Instr :=
  [.mark ⟨.branch, 0⟩, .push 9, .push 9, .jump .ifEq ⟨.branch, 1⟩, .jump .always ⟨.branch, 0⟩,
    .mark ⟨.branch, 2⟩, .mark ⟨.branch, 1⟩]

/-- The pushed values are the words of opcodes, and they are read as values.  One jump goes back to
the beginning, the other one to the end. -/
theorem leaving_outcomes : codeSize leaving < 2 ^ 31 ∧
    ∃ b, assemble leaving = .ok b ∧ b.size = 8 ∧ decode 0 b.code.toList = some
      [⟨0, .push, some 9⟩, ⟨2, .push, some 9⟩, ⟨4, .jump .ifEq, some 8⟩,
        ⟨6, .jump .always, some 0⟩] := by
  have hsmall : codeSize leaving < 2 ^ 31 := by decide
  obtain ⟨b, ds, hb, hsize, hds, -⟩ :=
    (assemble_outcomes hsmall).2.2.2.2 (List.nodup_iff_count_le_one.1 (by decide)) (by decide)
  refine ⟨hsmall, b, hb, hsize, ?_⟩
  have hcode : assemble leaving = .ok ⟨#[1, 9, 1, 9, 10, 8, 9, 0]⟩ := by decide
  cases hb.symm.trans hcode
  rfl

end ObjectLet
