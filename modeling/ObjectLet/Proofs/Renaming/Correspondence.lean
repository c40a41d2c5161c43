import Mathlib.Data.Finset.Dedup
import Mathlib.Data.Finset.Order
import Mathlib.Data.Set.Function
import ObjectLet.Proofs.Renaming.Toolchain
import ObjectLet.Proofs.Visits

/-!
# What compilation depends on

The numbers of the nodes, the names and the lines in a program do not matter as such.  A program
whose nodes have other numbers, whose names are other names and whose nodes are on other lines has
as many errors as before, at the same nodes, and the same code; all that is asked for is that
different nodes and different names stay different.

A relabelled program need not be a renamed one, since two nodes of one line may come to stand on
different lines.  But both are renamings of a third program, in which each node is on a line of its
own (`Program.exists_common`).  What is found out about that program only speaks of its own names
and lines, since it does not change if all others are renamed (`Program.Common`).

* `Toolchain.compiles_alike`: **analysis and code depend on the binding structure only.**
-/

set_option autoImplicit false

namespace ObjectLet

/-! ## What corresponds to what -/

/-- The lines are those of one node, before and after.  Nodes of one line may move to different
ones, so a line alone does not say where it goes. -/
def Program.Moves (p : Program) (r : Relabelling) (l l' : Nat) : Prop :=
  ∃ s, .site s ∈ p.tags ∧ s.line = l ∧ r.lines s = l'

section Correspondence

variable (p : Program) (r : Relabelling)

/-- A scope error of the same kind, about the names that those names have become, at the same
node. -/
structure ScopeError.Corresponds (e e' : ScopeError) : Prop where
  /-- What is wrong is the same. -/
  cause : e'.cause = e.cause.rename r.names
  /-- It is reported for the same node. -/
  line : p.Moves r e.line e'.line

/-- A type error of the same kind, about the names that those names have become, at the same
node. -/
structure TypeError.Corresponds (e e' : TypeError) : Prop where
  /-- What is wrong is the same. -/
  cause : e'.cause = e.cause.rename r.names
  /-- It is reported for the same node. -/
  line : p.Moves r e.line e'.line

/-- The same reason why there is no type, with names and lines as they are in the two programs. -/
inductive CheckError.Corresponds : CheckError → CheckError → Prop
  /-- There are type errors that correspond. -/
  | type {e e' : TypeError} (h : e.Corresponds p r e') : Corresponds (.type e) (.type e')
  /-- The same node is unresolved. -/
  | unresolved {l l' : Nat} (h : p.Moves r l l') : Corresponds (.unresolved l) (.unresolved l')

/-- The same reason why there is no code, with names and lines as they are in the two programs. -/
inductive CompileError.Corresponds : CompileError → CompileError → Prop
  /-- There are as many errors of each sort. -/
  | frontEnd (counts : ErrorCounts) : Corresponds (.frontEnd counts) (.frontEnd counts)
  /-- The same node is unresolved. -/
  | unresolved {l l' : Nat} (h : p.Moves r l l') : Corresponds (.unresolved l) (.unresolved l')
  /-- The same method has no place. -/
  | missingLayout {x : String} {l l' : Nat} (h : p.Moves r l l') :
    Corresponds (.missingLayout x l) (.missingLayout (r.names x) l')
  /-- The code cannot be assembled for the same reason. -/
  | assembly (e : AssemblyError) : Corresponds (.assembly e) (.assembly e)

end Correspondence

/-- There are two values, or two errors, that correspond. -/
inductive Agree {ε α : Type} (errors : ε → ε → Prop) (values : α → α → Prop) :
    Except ε α → Except ε α → Prop
  /-- There are two values. -/
  | ok {a a' : α} (h : values a a') : Agree errors values (.ok a) (.ok a')
  /-- There are two errors. -/
  | error {e e' : ε} (h : errors e e') : Agree errors values (.error e) (.error e')

section Fixed

variable {ε α : Type} {f g k : α → α} {R : α → α → Prop}

/-- If whatever stays as it is corresponds after two changes, so do the members of a list that stays
as it is. -/
theorem forall₂_of_fixed (hR : ∀ a, f a = a → R (g a) (k a)) {l : List α} (hl : l.map f = l) :
    List.Forall₂ R (l.map g) (l.map k) := by
  rw [List.forall₂_map_left_iff, List.forall₂_map_right_iff, List.forall₂_same]
  exact fun a ha ↦ hR a (List.map_eq_map_iff.1 (hl.trans l.map_id.symm) a ha)

/-- And so does a value or an error that stays as it is. -/
theorem Agree.of_fixed {f' g' k' : ε → ε} {E : ε → ε → Prop} (hE : ∀ e, f' e = e → E (g' e) (k' e))
    (hR : ∀ a, f a = a → R (g a) (k a)) {x : Except ε α} (hx : mapBoth f' f x = x) :
    Agree E R (mapBoth g' g x) (mapBoth k' k x) := by
  cases x with
  | ok a => exact .ok (hR a (Except.ok.inj hx))
  | error e => exact .error (hE e (Except.error.inj hx))

end Fixed

/-! ## Different things stay different -/

section Extension

variable {α : Type} (size : α → Nat) (shift : Nat → α ↪ α)

/-- What keeps the members of a list apart can be made to keep everything apart, and so that it
moves all that is not in the list. -/
theorem exists_extension [DecidableEq α] (hshift : ∀ n x, size (shift n x) = size x + n + 1)
    {f : α → α} {l : List α} (hf : Set.InjOn f {x | x ∈ l}) :
    ∃ g : α ↪ α, (∀ x ∈ l, g x = f x) ∧ ∀ x, g x = x → x ∈ l := by
  obtain ⟨b, hb⟩ := ((l.map f).map size).toFinset.exists_le
  -- far enough to miss all that the members of the list become
  have haway : ∀ x, shift b x ∉ l.map f := by
    intro x hx
    have hle := hb _ (List.mem_toFinset.2 (List.mem_map_of_mem hx))
    rw [hshift] at hle
    omega
  have hmoves : ∀ x, shift b x ≠ x := by
    intro x hx
    have hsize := hshift b x
    rw [hx] at hsize
    omega
  refine ⟨⟨fun x ↦ if x ∈ l then f x else shift b x, fun x y h ↦ ?_⟩, fun x hx ↦ if_pos hx,
    fun x hx ↦ ?_⟩
  · by_cases hx : x ∈ l <;> by_cases hy : y ∈ l <;> simp only [hx, hy, if_true, if_false] at h
    · exact hf hx hy h
    · exact absurd (h ▸ List.mem_map_of_mem hx) (haway y)
    · exact absurd (h ▸ List.mem_map_of_mem hy) (haway x)
    · exact (shift b).injective h
  · by_contra hnot
    exact hmoves x ((if_neg hnot).symm.trans hx)

/-- A number that is greater by more than `n`. -/
def shiftId (n : Nat) : NodeId ↪ NodeId := ⟨fun x ↦ x + n + 1, fun _ _ h ↦ by simpa using h⟩

/-- A name that is longer by more than `n`. -/
def shiftName (n : Nat) : String ↪ String :=
  ⟨fun x ↦ x ++ "".pushn 'x' (n + 1), fun _ _ h ↦ (String.append_left_inj _).1 h⟩

theorem exists_ids {f : NodeId → NodeId} {l : List NodeId} (hf : Set.InjOn f {n | n ∈ l}) :
    ∃ g : NodeId ↪ NodeId, (∀ n ∈ l, g n = f n) ∧ ∀ n, g n = n → n ∈ l :=
  exists_extension id shiftId (fun _ _ ↦ rfl) hf

theorem exists_names {f : String → String} {l : List String} (hf : Set.InjOn f {x | x ∈ l}) :
    ∃ g : String ↪ String, (∀ x ∈ l, g x = f x) ∧ ∀ x, g x = x → x ∈ l :=
  exists_extension String.length shiftName
    (fun n x ↦ (String.length_append x _).trans (by simp [Nat.add_assoc])) hf

end Extension

/-! ## The program in between -/

/-- Puts each node on a line of its own, which is its number. -/
def Relabelling.spread : Relabelling := ⟨id, Site.id, id, id⟩

/-- Names and lines that one renaming leaves as they are belong to a program: a second renaming
gives those that they have there, and a third one those that they have after a relabelling. -/
structure Program.Common (p : Program) (r : Relabelling) (stay back forth : Renaming) : Prop where
  /-- A name that stays is relabelled. -/
  names : ∀ x, stay.names x = x → forth.names x = r.names (back.names x)
  /-- A line that stays is that of a node. -/
  lines : ∀ l, stay.lines l = l → p.Moves r (back.lines l) (forth.lines l)

namespace Program

variable {p : Program} {r : Relabelling}

theorem id_mem_ids {s : Site} (h : .site s ∈ p.tags) : s.id ∈ p.ids := by
  rw [← ids_tags, List.mem_filterMap]
  exact ⟨_, h, rfl⟩

theorem exists_site {n : NodeId} (h : n ∈ p.ids) : ∃ s, .site s ∈ p.tags ∧ s.id = n := by
  rw [← ids_tags, List.mem_filterMap] at h
  obtain ⟨s | x, hs, hn⟩ := h
  · exact ⟨s, hs, Option.some.inj hn⟩
  · cases hn

/-- Nodes with different numbers can be told apart by them. -/
theorem exists_lines (hids : p.ids.Nodup) (f : Site → Nat) :
    ∃ line : NodeId → Nat, ∀ s, .site s ∈ p.tags → line s.id = f s := by
  rw [← ids_tags, List.filterMap_eq_flatMap_toList] at hids
  have hone : ∀ s s' : Site, .site s ∈ p.tags → .site s' ∈ p.tags → s.id = s'.id → s = s' := by
    intro s s' hs hs' hid
    exact Tag.site.inj (eq_of_nodup_flatMap hids hs hs' (List.mem_singleton_self s.id)
      (List.mem_singleton.2 hid))
  have hinjective : Function.Injective fun s : {s // Tag.site s ∈ p.tags} ↦ s.1.id :=
    fun s s' h ↦ Subtype.ext (hone s.1 s'.1 s.2 s'.2 h)
  exact ⟨Function.extend _ (fun s : {s // Tag.site s ∈ p.tags} ↦ f s.1) fun _ ↦ 0,
    fun s hs ↦ hinjective.extend_apply _ _ ⟨s, hs⟩⟩

/-- **A program and the same program relabelled are renamings of one program**, one whose numbers
and names are different from all of theirs. -/
theorem exists_common (hdistinct : p.ids.Nodup) (hids : Set.InjOn r.ids {n | n ∈ p.ids})
    (hnames : Set.InjOn r.names {x | x ∈ p.names}) :
    ∃ (q : Program) (stay back forth : Renaming), q.relabel stay = q ∧ q.relabel back = p ∧
      q.relabel forth = p.relabel r ∧ p.Common r stay back forth := by
  obtain ⟨ids, hids', -⟩ := exists_ids hids
  obtain ⟨names, hnames', -⟩ := exists_names hnames
  obtain ⟨own, hown, hother⟩ := exists_names (Set.injOn_id {x | x ∈ p.names})
  obtain ⟨before, hbefore⟩ := exists_lines hdistinct Site.line
  obtain ⟨after, hafter⟩ := exists_lines hdistinct r.lines
  refine ⟨p.relabel .spread, ⟨.refl _, own, fun n ↦ if n ∈ p.ids then n else n + 1, id⟩,
    ⟨.refl _, .refl _, before, id⟩, ⟨ids, names, after, r.top⟩, ?_, ?_, ?_, ⟨?_, ?_⟩⟩
  · -- the first renaming changes the names and lines of other programs only
    refine relabel_relabel ?_ fun _ ↦ rfl
    rintro (s | x) hg
    · exact congrArg Tag.site (congrArg (Site.mk s.id) (if_pos (id_mem_ids hg)))
    · exact congrArg Tag.name (hown x (mem_names.2 hg))
  · -- the second one puts the nodes back on their lines
    refine (relabel_relabel (w := .none) ?_ fun _ ↦ rfl).trans p.relabel_none
    rintro (s | x) hg
    · exact congrArg Tag.site (congrArg (Site.mk s.id) (hbefore s hg))
    · rfl
  · -- and the third one on their new lines
    refine relabel_relabel ?_ fun _ ↦ rfl
    rintro (s | x) hg
    · exact congrArg Tag.site (congrArg₂ Site.mk (hids' s.id (id_mem_ids hg)) (hafter s hg))
    · exact congrArg Tag.name (hnames' x (mem_names.2 hg))
  · exact fun x hx ↦ hnames' x (hother x hx)
  · intro l hl
    have hmem : l ∈ p.ids := by
      by_contra hnot
      exact absurd ((if_neg hnot).symm.trans hl) (Nat.succ_ne_self l)
    obtain ⟨s, hs, rfl⟩ := exists_site hmem
    exact ⟨s, hs, (hbefore s hs).symm, (hafter s hs).symm⟩

end Program

/-! ## What is found out -/

namespace Program.Common

variable {p : Program} {r : Relabelling} {stay back forth : Renaming}

theorem ty (h : p.Common r stay back forth) {ty : Ty} (hty : ty.rename stay.names = ty) :
    ty.rename forth.names = (ty.rename back.names).rename r.names := by
  symm
  exact Ty.rename_rename ty fun x hx ↦ (h.names x (ty.fixed_of_rename_eq hty x hx)).symm

theorem scopeError (h : p.Common r stay back forth) {e : ScopeError} (he : e.rename stay = e) :
    (e.rename back).Corresponds p r (e.rename forth) := by
  obtain ⟨cause, line⟩ := e
  obtain ⟨hcause, hline⟩ := ScopeError.mk.inj he
  refine ⟨?_, h.lines line hline⟩
  show cause.rename forth.names = (cause.rename back.names).rename r.names
  cases cause <;> simp only [ScopeError.Cause.rename] at hcause ⊢ <;> simp_all [h.names]

theorem typeError (h : p.Common r stay back forth) {e : TypeError} (he : e.rename stay = e) :
    (e.rename back).Corresponds p r (e.rename forth) := by
  obtain ⟨cause, line⟩ := e
  obtain ⟨hcause, hline⟩ := TypeError.mk.inj he
  refine ⟨?_, h.lines line hline⟩
  show cause.rename forth.names = (cause.rename back.names).rename r.names
  cases cause <;> simp only [TypeError.Cause.rename] at hcause ⊢ <;> simp_all [h.names]

theorem checkError (h : p.Common r stay back forth) {e : CheckError} (he : e.rename stay = e) :
    CheckError.Corresponds p r (e.rename back) (e.rename forth) := by
  cases e with
  | type e => exact .type (h.typeError (CheckError.type.inj he))
  | unresolved l => exact .unresolved (h.lines l (CheckError.unresolved.inj he))

theorem compileError (h : p.Common r stay back forth) {e : CompileError} (he : e.rename stay = e) :
    CompileError.Corresponds p r (e.rename back) (e.rename forth) := by
  cases e with
  | frontEnd counts => exact .frontEnd counts
  | unresolved l => exact .unresolved (h.lines l (CompileError.unresolved.inj he))
  | missingLayout x l =>
    obtain ⟨hx, hl⟩ := CompileError.missingLayout.inj he
    rw [CompileError.rename, CompileError.rename, h.names x hx]
    exact .missingLayout (h.lines l hl)
  | assembly e => exact .assembly e

end Program.Common

/-! ## Compilation -/

/-- **Analysis and code depend on the binding structure only.**  If other numbers, other names and
other lines are given to a program, in such a way that different nodes and different names stay
different, then there are as many errors of each sort, the errors correspond one by one, the type of
the program is the same up to the names, and so is the code, or else there is none for the same
reason. -/
theorem Toolchain.compiles_alike (t : Toolchain) (p : Program) (r : Relabelling)
    (hdistinct : p.ids.Nodup) (hids : Set.InjOn r.ids {n | n ∈ p.ids})
    (hnames : Set.InjOn r.names {x | x ∈ p.names}) :
    (t.analyze (p.relabel r)).counts = (t.analyze p).counts ∧
      List.Forall₂ (ScopeError.Corresponds p r) (t.analyze p).context.scopeErrors
        (t.analyze (p.relabel r)).context.scopeErrors ∧
      List.Forall₂ (TypeError.Corresponds p r) (t.analyze p).context.typeErrors
        (t.analyze (p.relabel r)).context.typeErrors ∧
      Agree (CheckError.Corresponds p r) (fun ty ty' ↦ ty' = ty.rename r.names)
        (t.analyze p).mainType (t.analyze (p.relabel r)).mainType ∧
      Agree (CompileError.Corresponds p r) Eq (t.compile p).result
        (t.compile (p.relabel r)).result := by
  obtain ⟨q, stay, back, forth, hstay, hback, hforth, hcommon⟩ :=
    Program.exists_common hdistinct hids hnames
  have hstays : (t.analyze q).rename stay = t.analyze q := by rw [← analyze_rename, hstay]
  have hstays' : (t.compile q).rename stay = t.compile q := by rw [← compile_rename, hstay]
  have hbefore : t.analyze p = (t.analyze q).rename back := by rw [← hback, analyze_rename]
  have hbefore' : t.compile p = (t.compile q).rename back := by rw [← hback, compile_rename]
  rw [← hforth, analyze_rename, compile_rename, hbefore, hbefore']
  refine ⟨rfl, ?_, ?_, ?_, ?_⟩
  · exact forall₂_of_fixed (fun _ ↦ hcommon.scopeError)
      (congrArg (fun a ↦ a.context.scopeErrors) hstays)
  · exact forall₂_of_fixed (fun _ ↦ hcommon.typeError)
      (congrArg (fun a ↦ a.context.typeErrors) hstays)
  · exact Agree.of_fixed (R := fun ty ty' ↦ ty' = ty.rename r.names)
      (fun _ ↦ hcommon.checkError) (fun _ ↦ hcommon.ty) (congrArg Analysis.mainType hstays)
  · exact Agree.of_fixed (fun _ ↦ hcommon.compileError) (fun _ _ ↦ rfl)
      (congrArg Compilation.result hstays')

namespace Misspelt

/-- Makes a cell and reads a member of it. -/
def reading (member : String) : Program :=
  .letIn 1
    [.cls ⟨⟨0, 1⟩, "Cell", none, [⟨⟨1, 1⟩, "value", .int⟩], []⟩,
      .var ⟨2, 2⟩ "cell" (.ref "Cell") (.new ⟨3, 2⟩ "Cell" [.int ⟨4, 2⟩ 1])]
    (.field ⟨5, 3⟩ "cell" member)

/-- The nodes in reverse, the class and the variable with each other's names, and each node on
a line of its own. -/
def reversal : Relabelling where
  ids := fun n ↦ 5 - n
  lines := fun s ↦ 10 + s.id
  names := fun x ↦ if x = "Cell" then "cell" else if x = "cell" then "Cell" else x
  top := fun _ ↦ 9

/-- With the name of the field it is compiled to the same code, and with another name it has the
same error as before. -/
theorem reading_alike :
    (∀ x ∈ ["value", "valeu"], (reading x).ids.Nodup ∧
      Set.InjOn reversal.ids {n | n ∈ (reading x).ids} ∧
      Set.InjOn reversal.names {y | y ∈ (reading x).names}) ∧
    (∃ c, (({} : Toolchain).compile (reading "value")).result = .ok c ∧
      (({} : Toolchain).compile ((reading "value").relabel reversal)).result = .ok c) ∧
    (({} : Toolchain).analyze ((reading "valeu").relabel reversal)).counts.scope = 1 ∧
    ∃ l, (({} : Toolchain).analyze ((reading "valeu").relabel reversal)).context.scopeErrors
      = [⟨.undeclaredMember "cell" "valeu", l⟩] ∧ (reading "valeu").Moves reversal 3 l := by
  have hdistinct : ∀ x ∈ ["value", "valeu"], (reading x).ids.Nodup := by decide
  have hids : ∀ x ∈ ["value", "valeu"], ∀ m ∈ (reading x).ids, ∀ n ∈ (reading x).ids,
      reversal.ids m = reversal.ids n → m = n := by decide
  have hnames : ∀ x ∈ ["value", "valeu"], ∀ y ∈ (reading x).names, ∀ z ∈ (reading x).names,
      reversal.names y = reversal.names z → y = z := by decide +kernel
  have hall : ∀ x ∈ ["value", "valeu"], (reading x).ids.Nodup ∧
      Set.InjOn reversal.ids {n | n ∈ (reading x).ids} ∧
      Set.InjOn reversal.names {y | y ∈ (reading x).names} := fun x hx ↦
    ⟨hdistinct x hx, fun m hm n hn ↦ hids x hx m hm n hn, fun y hy z hz ↦ hnames x hx y hy z hz⟩
  obtain ⟨hd, hi, hn⟩ := hall "value" (by decide)
  obtain ⟨-, -, -, -, hcode⟩ := Toolchain.compiles_alike {} (reading "value") reversal hd hi hn
  have hcompiles : (({} : Toolchain).compile (reading "value")).result.toOption.isSome = true := by
    decide +kernel
  obtain ⟨hd, hi, hn⟩ := hall "valeu" (by decide)
  obtain ⟨hcounts, hscope, -, -, -⟩ :=
    Toolchain.compiles_alike {} (reading "valeu") reversal hd hi hn
  have hscopeCount : (({} : Toolchain).analyze (reading "valeu")).counts.scope = 1 := by
    decide +kernel
  have herror : (({} : Toolchain).analyze (reading "valeu")).context.scopeErrors
      = [⟨.undeclaredMember "Cell" "valeu", 3⟩] := by decide +kernel
  refine ⟨hall, ?_, by rw [hcounts, hscopeCount], ?_⟩
  · generalize (({} : Toolchain).compile (reading "value")).result = x at hcode hcompiles ⊢
    cases hcode with
    | ok h => exact ⟨_, rfl, h ▸ rfl⟩
  · rw [herror] at hscope
    generalize (({} : Toolchain).analyze ((reading "valeu").relabel reversal)).context.scopeErrors
      = es at hscope ⊢
    cases hscope with
    | @cons _ e _ _ h hrest =>
      cases hrest
      have hcause : e.cause = .undeclaredMember "cell" "valeu" := h.cause
      exact ⟨e.line, congrArg (fun c ↦ [ScopeError.mk c e.line]) hcause, h.line⟩

end Misspelt

end ObjectLet
