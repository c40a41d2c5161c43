import Mathlib.Algebra.GroupWithZero.Nat
import Mathlib.Data.List.Basic
import Mathlib.Data.List.Nodup
import ObjectLet.Code.Bytecode

/-!
# Where code is placed

The code of an expression sits inside that of the whole program at some address.  `CodeAt prog a is`
says that the instructions `is` stand there; all that is said about the machine is relative to such
a hypothesis.

Assembling is two recursions over the instructions.  `assemble_eq_ok_iff` says in one go what they
amount to: it succeeds exactly if no label is marked twice and every label that is referred to is
marked, and then the words are those of the instructions one after the other, with
`addressOf l prog` for the label `l`.  From it come the two facts that the rest of the development
uses: the words of an instruction are found where it stands (`Assembled.fetch`), and the address of
a label is where its mark stands (`Assembled.addressOf_eq`).
-/

set_option autoImplicit false

namespace ObjectLet

/-! ## Sizes -/

@[simp] theorem codeSize_nil : codeSize [] = 0 := rfl

@[simp] theorem codeSize_cons (i : Instr) (is : List Instr) :
    codeSize (i :: is) = i.size + codeSize is := rfl

@[simp] theorem codeSize_append (is js : List Instr) :
    codeSize (is ++ js) = codeSize is + codeSize js := by
  induction is with
  | nil => simp
  | cons i is ih => rw [List.cons_append, codeSize_cons, codeSize_cons, ih, Nat.add_assoc]

/-! ## Pieces of a program -/

/-- The instructions `is` stand at an address of the program.  Marks have no size, so different
instructions may stand at the same address. -/
def CodeAt (prog : List Instr) (address : Nat) (is : List Instr) : Prop :=
  ∃ before after, prog = before ++ is ++ after ∧ codeSize before = address

namespace CodeAt

variable {prog is js : List Instr} {i : Instr} {a : Nat}

theorem left (h : CodeAt prog a (is ++ js)) : CodeAt prog a is := by
  obtain ⟨before, after, rfl, rfl⟩ := h
  exact ⟨before, js ++ after, by simp, rfl⟩

theorem right (h : CodeAt prog a (is ++ js)) : CodeAt prog (a + codeSize is) js := by
  obtain ⟨before, after, rfl, rfl⟩ := h
  exact ⟨before ++ is, after, by simp, by simp⟩

theorem tail (h : CodeAt prog a (i :: is)) : CodeAt prog (a + i.size) is := by
  have h : CodeAt prog a ([i] ++ is) := h
  simpa using h.right

theorem end_le (h : CodeAt prog a is) : a + codeSize is ≤ codeSize prog := by
  obtain ⟨before, after, rfl, rfl⟩ := h
  simp only [codeSize_append]
  omega

end CodeAt

/-! ## Marks and references -/

/-- The labels that are marked, in order. -/
def marks : List Instr → List Label
  | [] => []
  | .mark l :: rest => l :: marks rest
  | _ :: rest => marks rest

/-- The label that an instruction refers to. -/
def Instr.target? : Instr → Option Label
  | .pushLabel l | .jump _ l => some l
  | _ => none

/-- The labels that are referred to, in order. -/
def references (is : List Instr) : List Label := is.filterMap Instr.target?

/-- The size of everything in front of the mark of a label.  Without a mark this is the
size of the whole. -/
def addressOf (l : Label) : List Instr → Nat
  | [] => 0
  | i :: rest => if i = .mark l then 0 else i.size + addressOf l rest

@[simp] theorem marks_append (is js : List Instr) : marks (is ++ js) = marks is ++ marks js := by
  induction is with
  | nil => rfl
  | cons i is ih => cases i <;> simp [marks, ih]

@[simp] theorem references_append (is js : List Instr) :
    references (is ++ js) = references is ++ references js :=
  List.filterMap_append

theorem mem_marks_iff {l : Label} {is : List Instr} : l ∈ marks is ↔ .mark l ∈ is := by
  induction is with
  | nil => simp [marks]
  | cons i is ih => cases i <;> simp [marks, ih]

theorem mem_references_iff {l : Label} {is : List Instr} :
    l ∈ references is ↔ .pushLabel l ∈ is ∨ ∃ j, .jump j l ∈ is := by
  rw [references, List.mem_filterMap]
  constructor
  · rintro ⟨i, hi, ht⟩
    cases i with
    | pushLabel l' =>
      cases ht
      exact .inl hi
    | jump j l' =>
      cases ht
      exact .inr ⟨j, hi⟩
    | _ => cases ht
  · rintro (hi | ⟨j, hi⟩)
    · exact ⟨_, hi, rfl⟩
    · exact ⟨_, hi, rfl⟩

theorem addressOf_eq {l : Label} {before after : List Instr} (h : l ∉ marks before) :
    addressOf l (before ++ .mark l :: after) = codeSize before := by
  induction before with
  | nil => simp [addressOf]
  | cons i before ih =>
    have hi : i ≠ .mark l := by
      rintro rfl
      simp [marks] at h
    have hb : l ∉ marks before := by
      intro hm
      cases i <;> simp_all [marks]
    rw [List.cons_append, addressOf, if_neg hi, ih hb, codeSize_cons]

theorem addressOf_le (l : Label) (is : List Instr) : addressOf l is ≤ codeSize is := by
  induction is with
  | nil => exact Nat.le_refl 0
  | cons i rest ih =>
    rw [addressOf, codeSize_cons]
    split <;> omega

/-! ## The two passes -/

/-- The words of an instruction, given the addresses of the labels.  Unlike in assembling, there is
an address for every label. -/
def Instr.encoded (address : Label → Nat) : Instr → List Int32
  | .push v => [Opcode.push.word, v]
  | .pushLabel l => [Opcode.push.word, Int32.ofNat (address l)]
  | .jump j l => [(Opcode.jump j).word, Int32.ofNat (address l)]
  | .plain op => [(Opcode.plain op).word]
  | .mark _ => []

theorem length_encoded (address : Label → Nat) (i : Instr) :
    (i.encoded address).length = i.size := by
  cases i <;> rfl

theorem length_flatMap_encoded (address : Label → Nat) (is : List Instr) :
    (is.flatMap (Instr.encoded address)).length = codeSize is := by
  induction is with
  | nil => rfl
  | cons i rest ih => simp [length_encoded, ih]

/-- The first pass succeeds if no label is marked twice, and then knows the addresses of all. -/
theorem placeLabels_eq_ok {is : List Instr} {placed : Table Label Nat} (a : Nat)
    (hnd : (marks is).Nodup) (hnew : ∀ l ∈ marks is, placed.contains l = false) :
    ∃ t, placeLabels a placed is = .ok t ∧
      ∀ l, t.find? l = if l ∈ marks is then some (a + addressOf l is) else placed.find? l := by
  induction is generalizing a placed with
  | nil => exact ⟨placed, rfl, by simp [marks]⟩
  | cons i rest ih =>
    cases i with
    | mark m =>
      rw [marks, List.nodup_cons] at hnd
      have hm : placed.contains m = false := hnew m (by simp [marks])
      have hrest : ∀ l ∈ marks rest, (placed.insert m a).contains l = false := by
        intro l hl
        have hne : m ≠ l := fun e ↦ hnd.1 (e ▸ hl)
        have := hnew l (by simp [marks, hl])
        rw [Table.contains, Table.find?_insert_of_ne _ _ hne]
        exact this
      obtain ⟨t, ht, hfind⟩ := ih a hnd.2 hrest
      refine ⟨t, by simp [placeLabels, hm, ht], fun l ↦ ?_⟩
      rw [hfind l, Table.find?_insert]
      by_cases hl : m = l
      · subst hl
        simp [marks, hnd.1, addressOf]
      · have hl' : l ≠ m := fun e ↦ hl e.symm
        simp [marks, hl, hl', addressOf, Instr.size]
    | _ =>
      obtain ⟨t, ht, hfind⟩ := ih (a + Instr.size _) hnd hnew
      refine ⟨t, ht, fun l ↦ ?_⟩
      rw [hfind l]
      simp [marks, addressOf, Nat.add_assoc]

theorem marks_of_placeLabels {is : List Instr} {placed t : Table Label Nat} {a : Nat}
    (h : placeLabels a placed is = .ok t) :
    (marks is).Nodup ∧ ∀ l ∈ marks is, placed.contains l = false := by
  induction is generalizing a placed with
  | nil => simp [marks]
  | cons i rest ih =>
    cases i with
    | mark m =>
      rw [placeLabels] at h
      split at h
      · cases h
      · rename_i hm
        obtain ⟨hnd, hnew⟩ := ih h
        have hout : ∀ l ∈ marks rest, m ≠ l ∧ placed.contains l = false := by
          intro l hl
          have hc := hnew l hl
          by_cases e : m = l
          · subst e
            simp [Table.contains] at hc
          · rw [Table.contains, Table.find?_insert_of_ne _ _ e] at hc
            exact ⟨e, hc⟩
        refine ⟨List.nodup_cons.2 ⟨fun hmem ↦ (hout m hmem).1 rfl, hnd⟩, ?_⟩
        rintro l (_ | ⟨_, hl⟩)
        · simpa using hm
        · exact (hout l hl).2
    | _ => exact ih h

/-- An instruction is written exactly if the address of its label is known. -/
theorem words_eq_ok_iff {t : Table Label Nat} {address : Label → Nat} {i : Instr}
    {ws : List Int32} (haddr : ∀ l, i.target? = some l → ∀ n, t.find? l = some n → n = address l) :
    i.words t = .ok ws ↔
      (∀ l, i.target? = some l → t.contains l = true) ∧ ws = i.encoded address := by
  have hword : ∀ l, i.target? = some l →
      (∃ e, addressWord t l = .error e) ∧ t.contains l = false ∨
        addressWord t l = .ok (Int32.ofNat (address l)) ∧ t.contains l = true := by
    intro l hl
    cases hf : t.find? l with
    | none =>
      exact .inl ⟨⟨.undefinedLabel l, by simp [addressWord, hf]⟩, by simp [Table.contains, hf]⟩
    | some n =>
      obtain rfl := haddr l hl n hf
      exact .inr ⟨by simp [addressWord, hf], by simp [Table.contains, hf]⟩
  cases i with
  | push v | plain op | mark l =>
    exact ⟨fun h ↦ ⟨fun l hl ↦ (by cases hl), (Except.ok.inj h).symm⟩,
      fun h ↦ congrArg _ h.2.symm⟩
  | pushLabel l =>
    rcases hword l rfl with ⟨⟨e, hw⟩, hc⟩ | ⟨hw, hc⟩
    · simp [Instr.words, Instr.target?, Except.map, hw, hc]
    · simp [Instr.words, Instr.target?, Instr.encoded, Except.map, hw, hc, @eq_comm _ ws]
  | jump j l =>
    rcases hword l rfl with ⟨⟨e, hw⟩, hc⟩ | ⟨hw, hc⟩
    · simp [Instr.words, Instr.target?, Except.map, hw, hc]
    · simp [Instr.words, Instr.target?, Instr.encoded, Except.map, hw, hc, @eq_comm _ ws]

/-- The second pass succeeds exactly if it knows the addresses of all labels. -/
theorem encode_eq_ok_iff {t : Table Label Nat} {address : Label → Nat} {is : List Instr}
    {ws : List Int32}
    (haddr : ∀ l ∈ references is, ∀ n, t.find? l = some n → n = address l) :
    encode t is = .ok ws ↔
      (∀ l ∈ references is, t.contains l = true) ∧ ws = is.flatMap (Instr.encoded address) := by
  induction is generalizing ws with
  | nil =>
    exact ⟨fun h ↦ ⟨nofun, (Except.ok.inj h).symm⟩, fun h ↦ congrArg _ h.2.symm⟩
  | cons i rest ih =>
    have hmem : ∀ l, l ∈ references (i :: rest) ↔ i.target? = some l ∨ l ∈ references rest := by
      intro l
      cases ht : i.target? <;> simp [references, ht, eq_comm]
    have hhead : ∀ ws, i.words t = .ok ws ↔ _ :=
      fun _ ↦ words_eq_ok_iff fun l hl ↦ haddr l ((hmem l).2 (.inl hl))
    have htail : ∀ ws, encode t rest = .ok ws ↔ _ :=
      fun _ ↦ ih fun l hl ↦ haddr l ((hmem l).2 (.inr hl))
    simp only [encode, bind, Except.bind, pure, Except.pure]
    constructor
    · intro h
      cases hi : i.words t with
      | error e => simp [hi] at h
      | ok us =>
        cases hr : encode t rest with
        | error e => simp [hi, hr] at h
        | ok vs =>
          obtain ⟨hti, rfl⟩ := (hhead _).1 hi
          obtain ⟨htr, rfl⟩ := (htail _).1 hr
          simp only [hi, hr, Except.ok.injEq] at h
          exact ⟨fun l hl ↦ ((hmem l).1 hl).elim (hti l) (htr l), by simp [← h]⟩
    · rintro ⟨hall, rfl⟩
      rw [(hhead _).2 ⟨fun l hl ↦ hall l ((hmem l).2 (.inl hl)), rfl⟩,
        (htail _).2 ⟨fun l hl ↦ hall l ((hmem l).2 (.inr hl)), rfl⟩]
      simp

/-- **Assembling.**  It succeeds exactly if no label is marked twice and every label that is
referred to is marked; the code consists of the words of the instructions. -/
theorem assemble_eq_ok_iff {is : List Instr} {b : Bytecode} :
    assemble is = .ok b ↔ (marks is).Nodup ∧ (∀ l ∈ references is, l ∈ marks is) ∧
      b.code = (is.flatMap (Instr.encoded fun l ↦ addressOf l is)).toArray := by
  simp only [assemble, bind, Except.bind, pure, Except.pure]
  by_cases hnd : (marks is).Nodup
  · obtain ⟨t, ht, hfind⟩ := @placeLabels_eq_ok is ∅ 0 hnd
      fun l _ ↦ by simp [Table.contains]
    have hcontains : ∀ l, t.contains l = true ↔ l ∈ marks is := by
      intro l
      by_cases hl : l ∈ marks is <;> simp [Table.contains, hfind l, hl]
    have haddr : ∀ l ∈ references is, ∀ n, t.find? l = some n → n = addressOf l is := by
      intro l _ n hn
      rw [hfind l] at hn
      split at hn
      · simpa using hn.symm
      · simp at hn
    have henc : ∀ ws, encode t is = .ok ws ↔ _ := fun _ ↦ encode_eq_ok_iff haddr
    simp only [hcontains] at henc
    rw [ht]
    obtain ⟨code⟩ := b
    cases hr : encode t is with
    | error e =>
      have : ¬ ∀ l ∈ references is, l ∈ marks is := fun hall ↦ by
        rw [(henc _).2 ⟨hall, rfl⟩] at hr
        cases hr
      simp [hnd, this, hr]
    | ok ws =>
      obtain ⟨hall, rfl⟩ := (henc ws).1 hr
      simp only [hr, Except.ok.injEq, Bytecode.mk.injEq]
      exact ⟨fun h ↦ ⟨hnd, hall, h.symm⟩, fun h ↦ h.2.2.symm⟩
  · have : ∀ t, placeLabels 0 ∅ is ≠ .ok t := fun t ht ↦ hnd (marks_of_placeLabels ht).1
    cases hp : placeLabels 0 ∅ is with
    | error e => simp [hnd]
    | ok t => exact absurd hp (this t)

/-! ## Reading assembled code -/

namespace Assembled

variable {prog is : List Instr} {i : Instr} {b : Bytecode} {a : Nat}

theorem size_eq (h : assemble prog = .ok b) : b.code.size = codeSize prog := by
  rw [(assemble_eq_ok_iff.1 h).2.2, List.size_toArray, length_flatMap_encoded]

/-- The words of an instruction are found where it stands. -/
theorem fetch (h : assemble prog = .ok b) (hat : CodeAt prog a (i :: is)) (k : Nat)
    (hk : k < i.size) :
    b.code[a + k]? = (i.encoded fun l ↦ addressOf l prog)[k]? := by
  rw [(assemble_eq_ok_iff.1 h).2.2]
  generalize (fun l ↦ addressOf l prog) = address
  obtain ⟨before, after, rfl, rfl⟩ := hat
  rw [List.getElem?_toArray, List.flatMap_append, List.flatMap_append, List.append_assoc,
    ← length_flatMap_encoded address before, List.getElem?_append_right (Nat.le_add_right _ _),
    Nat.add_sub_cancel_left, List.flatMap_cons, List.append_assoc,
    List.getElem?_append_left (by rwa [length_encoded])]

/-- The address of a label is where its mark stands. -/
theorem addressOf_eq {l : Label} (h : assemble prog = .ok b)
    (hat : CodeAt prog a (.mark l :: is)) : addressOf l prog = a := by
  have hnd := (assemble_eq_ok_iff.1 h).1
  obtain ⟨before, after, rfl, rfl⟩ := hat
  rw [List.append_assoc, List.cons_append] at hnd ⊢
  refine ObjectLet.addressOf_eq fun hl ↦ ?_
  rw [marks_append, List.nodup_append] at hnd
  exact hnd.2.2 l hl l (by simp [marks]) rfl

end Assembled

end ObjectLet
