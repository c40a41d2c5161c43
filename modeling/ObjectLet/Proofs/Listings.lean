import Mathlib.Data.List.Basic
import ObjectLet.Code.Instr

/-!
# Reading listings

A listing has one line for each instruction.  A line that ends in a colon is the mark of a label.
Any other line is cut at its spaces: a single word is an operation, and of two words the first tells
what the second is for.  What is pushed is either a label, the name of which begins with a letter,
or an integer, which does not.  So a listing can be read again.

* `Instr.ofText?`, `readListing?`: reads a line, and a listing.
* `Instr.ofText?_text`: **every instruction is read back from its line.**
* `listing_unambiguous`: **every list of instructions is read back from its listing**, so that no
  two lists have the same one.
-/

set_option autoImplicit false

namespace ObjectLet

/-! ## Reading -/

/-- The number with the given digits.  There has to be at least one, and nothing else. -/
def numberOf? (digits : List Char) : Option Nat :=
  if digits ≠ [] ∧ digits.all Char.isDigit then some (Nat.ofDigitChars 10 digits 0) else none

/-- The integer with the given digits, before which there is a sign if it is negative. -/
def integerOf? : List Char → Option Int
  | '-' :: digits => (numberOf? digits).map fun n ↦ -n
  | digits => (numberOf? digits).map fun n ↦ n

/-- All kinds of labels. -/
def Label.Kind.all : List Label.Kind := [.branch, .function, .method]

/-- The label of a given kind whose name has the given characters: the word for the kind, and a
number right after it. -/
def Label.ofTextAs? (kind : Kind) (s : List Char) : Option Label := do
  let digits ← kind.stem.toList.isPrefixOf? s
  let number ← numberOf? digits
  return ⟨kind, number⟩

/-- The label whose name has the given characters. -/
def Label.ofText? (s : List Char) : Option Label := Kind.all.findSome? (ofTextAs? · s)

/-- The jump written in a given way. -/
def Jump.ofMnemonic? (s : String) : Option Jump :=
  [Jump.always, .ifEq, .ifLessEq].find? (·.mnemonic == s)

namespace Instr

/-- The instruction that pushes what is written after `push`: the address of a label, if it is the
name of one, and otherwise an integer. -/
def ofOperand? (operand : List Char) : Option Instr :=
  match Label.ofText? operand with
  | some l => some (.pushLabel l)
  | none => (integerOf? operand).map fun v ↦ .push (Int32.ofInt v)

/-- The instruction that consists of the given words.  Its first word says how the second
one is to be read. -/
def ofWords? : List (List Char) → Option Instr
  | [word] => (Operation.ofMnemonic? (String.ofList word)).map .plain
  | [word, operand] =>
    if String.ofList word = Opcode.push.mnemonic then ofOperand? operand
    else do
      let j ← Jump.ofMnemonic? (String.ofList word)
      let l ← Label.ofText? operand
      return .jump j l
  | _ => none

/-- The instruction written on a line.  Only the mark of a label ends with a colon. -/
def ofText? (line : List Char) : Option Instr :=
  if line.getLast? = some ':' then (Label.ofText? line.dropLast).map .mark
  else ofWords? (line.splitOn ' ')

end Instr

/-- The instructions written in a listing, every line of which has to end. -/
def readListing? (s : String) : Option (List Instr) :=
  (s.toList.splitOn '\n').dropLast.mapM Instr.ofText?

/-! ## Words

The words of a line are mnemonics, names of labels and integers.  None of their characters can be
taken for one that separates words or lines. -/

/-- Whether a character may stand in a word. -/
def isWordChar (c : Char) : Bool := c.isAlphanum || c == '-'

/-- The characters of a word. -/
def IsWord (s : List Char) : Prop := ∀ c ∈ s, isWordChar c = true

/-- A character that may not stand in a word is in no word. -/
theorem IsWord.not_mem {s : List Char} {c : Char} (hs : IsWord s) (hc : isWordChar c = false) :
    c ∉ s :=
  fun hmem ↦ Bool.false_ne_true (hc.symm.trans (hs c hmem))

theorem isWordChar_of_isDigit {c : Char} (h : c.isDigit = true) : isWordChar c = true := by
  rw [isWordChar, Char.isAlphanum, h, Bool.or_true, Bool.true_or]

/-- A number is written with digits and nothing else. -/
theorem isDigit_of_mem_repr {n : Nat} {c : Char} (h : c ∈ n.repr.toList) : c.isDigit = true := by
  rw [Nat.toList_repr] at h
  exact Nat.isDigit_of_mem_toDigits (by decide) (by decide) h

/-- An integer is written with digits, with a sign before them if it is negative. -/
theorem isDigit_or_of_mem_repr {v : Int} {c : Char} (h : c ∈ v.repr.toList) :
    c.isDigit = true ∨ c = '-' := by
  cases v with
  | ofNat n => exact .inl (isDigit_of_mem_repr h)
  | negSucc n =>
    rw [Int.repr, String.toList_append, List.mem_append] at h
    rcases h with h | h
    · exact .inr (List.mem_singleton.1 h)
    · exact .inl (isDigit_of_mem_repr h)

theorem isWord_repr (v : Int) : IsWord v.repr.toList := by
  intro c h
  rcases isDigit_or_of_mem_repr h with h | rfl
  · exact isWordChar_of_isDigit h
  · rfl

/-- **Every number is read back from its digits**, which are all that is written of it. -/
theorem numberOf?_repr (n : Nat) : numberOf? n.repr.toList = some n := by
  have hdigits : n.repr.toList.all Char.isDigit = true :=
    List.all_eq_true.2 fun _ ↦ isDigit_of_mem_repr
  rw [Nat.toList_repr] at hdigits ⊢
  rw [numberOf?, if_pos ⟨Nat.toDigits_ne_nil, hdigits⟩, Nat.ofDigitChars_ten_toDigits]

/-- A number has no sign, so it is read as it is. -/
theorem integerOf?_of_isDigit {s : List Char} (h : ∀ c ∈ s, c.isDigit = true) :
    integerOf? s = (numberOf? s).map fun n ↦ (n : Int) := by
  cases s with
  | nil => rfl
  | cons c s =>
    have hc : c ≠ '-' := by
      rintro rfl
      exact absurd (h '-' List.mem_cons_self) (by decide)
    rw [integerOf?]
    rintro _ ⟨⟩
    exact hc rfl

/-- **Every integer is read back from its digits**, with a sign in front of them if it is below
0. -/
theorem integerOf?_repr (v : Int) : integerOf? v.repr.toList = some v := by
  cases v with
  | ofNat n =>
    have hdigits : integerOf? n.repr.toList = _ := integerOf?_of_isDigit fun _ ↦ isDigit_of_mem_repr
    rw [numberOf?_repr] at hdigits
    exact hdigits
  | negSucc n =>
    have htext : (Int.negSucc n).repr.toList = '-' :: (n + 1).repr.toList := by
      rw [Int.repr, String.toList_append]
      rfl
    rw [htext, integerOf?, numberOf?_repr]
    rfl

theorem Opcode.isWord_mnemonic (o : Opcode) : IsWord o.mnemonic.toList := by
  have hall : o.mnemonic.toList.all isWordChar = true := by
    rcases o with _ | j | op
    · rfl
    · cases j <;> rfl
    · cases op <;> rfl
  exact List.all_eq_true.1 hall

theorem Operation.ofMnemonic?_mnemonic (op : Operation) :
    ofMnemonic? op.mnemonic = some op := by
  cases op <;> rfl

theorem Jump.ofMnemonic?_mnemonic (j : Jump) : ofMnemonic? j.mnemonic = some j := by
  cases j <;> rfl

/-! ## Labels -/

namespace Label

/-- The word before the number of a label consists of characters that no number has. -/
theorem Kind.of_mem_stem {kind : Kind} {c : Char} (h : c ∈ kind.stem.toList) :
    isWordChar c = true ∧ c.isDigit = false ∧ c ≠ '-' := by
  have hall : kind.stem.toList.all
      (fun c ↦ isWordChar c && (!c.isDigit && c != '-')) = true := by
    cases kind <;> rfl
  simpa using List.all_eq_true.1 hall c h

theorem toList_text (l : Label) : l.text.toList = l.kind.stem.toList ++ l.number.repr.toList :=
  String.toList_append

theorem isWord_text (l : Label) : IsWord l.text.toList := by
  intro c h
  rw [toList_text, List.mem_append] at h
  rcases h with h | h
  · exact (Kind.of_mem_stem h).1
  · exact isWordChar_of_isDigit (isDigit_of_mem_repr h)

theorem ofTextAs?_text (l : Label) : ofTextAs? l.kind l.text.toList = some l := by
  have hdigits : l.kind.stem.toList.isPrefixOf? l.text.toList = some l.number.repr.toList :=
    List.isPrefixOf?_eq_some_iff_append_eq.2 l.toList_text.symm
  simp only [ofTextAs?, hdigits, Option.bind_eq_bind, Option.bind_some, numberOf?_repr]
  rfl

/-- The names of labels of different kinds begin with different letters. -/
theorem ofTextAs?_eq_none {kind : Kind} {l : Label} (h : kind ≠ l.kind) :
    ofTextAs? kind l.text.toList = none := by
  have hstem :
      kind.stem.toList.isPrefixOf? (l.kind.stem.toList ++ l.number.repr.toList) = none := by
    generalize l.kind = kind' at h
    revert h
    cases kind <;> cases kind' <;> first | exact fun h ↦ absurd rfl h | exact fun _ ↦ rfl
  rw [ofTextAs?, toList_text, hstem]
  rfl

/-- **Every label is read back from its name.** -/
@[simp] theorem ofText?_text (l : Label) : ofText? l.text.toList = some l := by
  have hself := l.ofTextAs?_text
  have hother : ∀ kind ≠ l.kind, ofTextAs? kind l.text.toList = none :=
    fun _ ↦ ofTextAs?_eq_none
  cases hk : l.kind <;> rw [hk] at hself hother <;> simp [ofText?, Kind.all, hself, hother]

/-- An integer is not the name of a label, which begins with a letter. -/
theorem ofText?_repr (v : Int) : ofText? v.repr.toList = none := by
  refine List.findSome?_eq_none_iff.2 fun kind _ ↦ ?_
  have hstem : kind.stem.toList.isPrefixOf? v.repr.toList = none := by
    rw [Option.eq_none_iff_forall_ne_some]
    intro digits hdigits
    have happend := List.isPrefixOf?_eq_some_iff_append_eq.1 hdigits
    obtain ⟨c, hc⟩ : ∃ c, c ∈ kind.stem.toList := by
      cases kind <;> exact ⟨_, List.mem_cons_self⟩
    obtain ⟨-, hdigit, hsign⟩ := Kind.of_mem_stem hc
    rcases isDigit_or_of_mem_repr (happend ▸ List.mem_append_left digits hc) with h | h
    · exact Bool.false_ne_true (hdigit.symm.trans h)
    · exact hsign h
  rw [ofTextAs?, hstem]
  rfl

end Label

/-! ## Lines -/

namespace Instr

/-- A line without a colon is read by its words. -/
theorem ofText?_of_not_mem {line : List Char} (h : ':' ∉ line) :
    ofText? line = ofWords? (line.splitOn ' ') := by
  have hlast : line.getLast? ≠ some ':' := fun hlast ↦ h (List.mem_of_getLast? hlast)
  rw [ofText?, if_neg hlast]

/-- A line of one word. -/
theorem ofText?_word {word : List Char} (h : IsWord word) : ofText? word = ofWords? [word] := by
  rw [ofText?_of_not_mem (h.not_mem (by decide)), List.splitOn_eq_singleton (h.not_mem (by decide))]

/-- A line of two words. -/
theorem ofText?_words {word operand : List Char} (h : IsWord word) (ho : IsWord operand) :
    ofText? (word ++ ' ' :: operand) = ofWords? [word, operand] := by
  have hword : ' ' ∉ word ∧ ':' ∉ word := ⟨h.not_mem (by decide), h.not_mem (by decide)⟩
  have hoperand : ' ' ∉ operand ∧ ':' ∉ operand :=
    ⟨ho.not_mem (by decide), ho.not_mem (by decide)⟩
  have hsplit : ([' '].intercalate [word, operand]).splitOn ' ' = [word, operand] :=
    List.splitOn_intercalate ' ' (by simp [hword, hoperand]) (by simp)
  rw [ofText?_of_not_mem (by simp [hword, hoperand])]
  exact congrArg ofWords? (by simpa [List.intercalate] using hsplit)

theorem toList_text_push (v : Int32) :
    (push v).text.toList = Opcode.push.mnemonic.toList ++ ' ' :: v.toInt.repr.toList := by
  rw [text, String.toList_append]
  rfl

theorem toList_text_pushLabel (l : Label) :
    (pushLabel l).text.toList = Opcode.push.mnemonic.toList ++ ' ' :: l.text.toList := by
  rw [text, String.toList_append]
  rfl

theorem toList_text_jump (j : Jump) (l : Label) :
    (jump j l).text.toList = (Opcode.jump j).mnemonic.toList ++ ' ' :: l.text.toList := by
  rw [text, String.toList_append, String.toList_append, List.append_assoc]
  rfl

theorem toList_text_plain (op : Operation) :
    (plain op).text.toList = (Opcode.plain op).mnemonic.toList := rfl

theorem toList_text_mark (l : Label) : (mark l).text.toList = l.text.toList ++ [':'] := by
  rw [text, String.toList_append]
  rfl

/-- **Every instruction is read back from its line.** -/
@[simp] theorem ofText?_text (i : Instr) : ofText? i.text.toList = some i := by
  cases i with
  | push v =>
    rw [toList_text_push, ofText?_words Opcode.push.isWord_mnemonic (isWord_repr _)]
    simp [ofWords?, ofOperand?, Label.ofText?_repr, integerOf?_repr]
  | pushLabel l =>
    rw [toList_text_pushLabel, ofText?_words Opcode.push.isWord_mnemonic l.isWord_text]
    simp [ofWords?, ofOperand?]
  | jump j l =>
    have hj : (Opcode.jump j).mnemonic ≠ Opcode.push.mnemonic := by
      cases j <;> simp [Opcode.mnemonic, Jump.mnemonic]
    have hread : Jump.ofMnemonic? (Opcode.jump j).mnemonic = some j := Jump.ofMnemonic?_mnemonic j
    rw [toList_text_jump, ofText?_words (Opcode.jump j).isWord_mnemonic l.isWord_text]
    simp [ofWords?, hj, hread]
  | plain op =>
    have hread : Operation.ofMnemonic? (Opcode.plain op).mnemonic = some op :=
      Operation.ofMnemonic?_mnemonic op
    rw [toList_text_plain, ofText?_word (Opcode.plain op).isWord_mnemonic]
    simp [ofWords?, hread]
  | mark l =>
    rw [toList_text_mark, ofText?, if_pos (by simp), List.dropLast_concat, Label.ofText?_text]
    rfl

/-- A line ends nowhere before its end, since no instruction is written on two lines. -/
theorem newline_not_mem_text (i : Instr) : '\n' ∉ i.text.toList := by
  have hmnemonic : ∀ o : Opcode, '\n' ∉ o.mnemonic.toList :=
    fun o ↦ o.isWord_mnemonic.not_mem (by decide)
  have hlabel : ∀ l : Label, '\n' ∉ l.text.toList := fun l ↦ l.isWord_text.not_mem (by decide)
  cases i with
  | push v =>
    have hv : '\n' ∉ v.toInt.repr.toList := (isWord_repr _).not_mem (by decide)
    simp [toList_text_push, hmnemonic, hv]
  | pushLabel l => simp [toList_text_pushLabel, hmnemonic, hlabel]
  | jump j l => simp [toList_text_jump, hmnemonic, hlabel]
  | plain op => exact hmnemonic (.plain op)
  | mark l => simp [toList_text_mark, hlabel]

end Instr

/-! ## Listings -/

/-- A listing is its lines, each with its end. -/
theorem toList_listing (is : List Instr) :
    (listing is).toList = is.flatMap fun i ↦ i.text.toList ++ ['\n'] := by
  rw [listing, String.toList_join, List.flatMap_map]
  simp only [String.toList_append]
  rfl

/-- The lines of a listing are the texts of its instructions, and nothing follows them. -/
theorem splitOn_listing (is : List Instr) :
    (listing is).toList.splitOn '\n' = is.map (·.text.toList) ++ [[]] := by
  have hlines : (listing is).toList = ['\n'].intercalate (is.map (·.text.toList) ++ [[]]) := by
    rw [toList_listing]
    induction is with
    | nil => rfl
    | cons i is ih =>
      rw [List.flatMap_cons, ih, List.map_cons, List.cons_append,
        List.intercalate_cons_of_ne_nil (List.append_ne_nil_of_right_ne_nil _ (by simp))]
  rw [hlines]
  refine List.splitOn_intercalate '\n' (fun line hline ↦ ?_) (by simp)
  rcases List.mem_append.1 hline with hline | hline
  · obtain ⟨i, -, rfl⟩ := List.mem_map.1 hline
    exact i.newline_not_mem_text
  · rw [List.mem_singleton.1 hline]
    exact List.not_mem_nil

theorem readListing?_listing (is : List Instr) : readListing? (listing is) = some is := by
  rw [readListing?, splitOn_listing, List.dropLast_concat, List.mapM_map]
  simp only [Function.comp_def, Instr.ofText?_text]
  exact List.mapM_pure.trans (congrArg some is.map_id)

/-- **The listing of a list of instructions is unambiguous**: the instructions are read back
from it, so that no two lists of instructions have the same listing, and no two instructions
the same line; and the only end of a line in the text of an instruction is the one that the
listing puts after it. -/
theorem listing_unambiguous :
    (∀ is : List Instr, readListing? (listing is) = some is) ∧
      Function.Injective listing ∧ Function.Injective Instr.text ∧
      ∀ i : Instr, '\n' ∉ i.text.toList := by
  refine ⟨readListing?_listing, fun is js h ↦ ?_, fun i j h ↦ ?_, Instr.newline_not_mem_text⟩
  · have hread := congrArg readListing? h
    rwa [readListing?_listing, readListing?_listing, Option.some_inj] at hread
  · have hread := congrArg (Instr.ofText? ·.toList) h
    rwa [Instr.ofText?_text, Instr.ofText?_text, Option.some_inj] at hread

end ObjectLet
