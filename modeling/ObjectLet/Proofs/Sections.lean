import Mathlib.Data.List.SplitBy
import ObjectLet.Proofs.Labels
import ObjectLet.Proofs.Nodes
import ObjectLet.Toolchain

/-!
# Sections of code

The code of a program begins with its main section, which ends with the only `halt`.  After it
comes one section for each function and method, and each of these begins with the mark of its entry.
As no other marks are entries, the sections can be told from the code alone (`sections`).

A jump never leaves its section.  What leads from one section to another one is the address of an
entry that is pushed as a value.

* `Expr.inner_of_emit`: what can stand in the code of an expression.
* `Decl.sectioned`: **emitting a declaration adds whole sections.**
* `generate_wellLabelled`: **whatever is known about a program, in code that is generated for it the
  labels are in order.**
-/

set_option autoImplicit false

namespace ObjectLet

/-! ## Sections -/

/-- Whether an instruction is the mark of a function or method.  A section begins at each of
them. -/
def Instr.isEntry : Instr → Bool
  | .mark l => l.kind ≠ .branch
  | _ => false

/-- The sections of some code, which begin where functions and methods do. -/
def sections (code : List Instr) : List (List Instr) := code.splitBy fun _ i ↦ !i.isEntry

/-- Whether an instruction can stand in the main section before its end, or in that of a function
behind its beginning. -/
def Instr.isInner : Instr → Bool
  | .mark l => l.kind = .branch
  | .pushLabel l => l.kind ≠ .branch
  | .plain .halt => false
  | _ => true

/-- Code inside a section, which jumps only to where it has marks. -/
structure Inner (is : List Instr) : Prop where
  /-- It consists of instructions that can stand there. -/
  instrs : is.all Instr.isInner = true
  /-- It marks what it jumps to. -/
  jumps : ∀ j l, .jump j l ∈ is → l ∈ marks is

/-- The code of a function or method: its first and last instructions with code inside a
section between them. -/
def FunctionSection (is : List Instr) : Prop :=
  ∃ entry body locals params, entry.kind ≠ .branch ∧ Inner body ∧
    is = prologue entry ++ body ++ epilogue locals params

section Splitting

variable {is js : List Instr} {secs : List (List Instr)}

theorem sections_append (h : ∀ i ∈ js.head?, i.isEntry = true) :
    sections (is ++ js) = sections is ++ sections js :=
  List.splitBy_append fun _ _ i hi ↦ by rw [h i hi]; rfl

theorem sections_eq_singleton {i : Instr} (h : ∀ j ∈ is, j.isEntry = false) :
    sections (i :: is) = [i :: is] := by
  refine List.splitBy_of_isChain (List.cons_ne_nil i is) ?_
  induction is generalizing i with
  | nil => exact .singleton i
  | cons j is ih =>
    rw [List.forall_mem_cons] at h
    exact .cons_cons (by rw [h.1]; rfl) (ih h.2)

theorem Instr.isEntry_of_isInner {i : Instr} (h : i.isInner = true) : i.isEntry = false := by
  cases i with
  | mark l =>
    simp only [isInner, decide_eq_true_eq] at h
    simp [isEntry, h]
  | _ => rfl

end Splitting

/-! ## Expressions -/

section Expressions

theorem Instr.isInner_of_isStraight {i : Instr} (h : i.isStraight = true) : i.isInner = true := by
  cases i with
  | push v => rfl
  | plain op =>
    cases op with
    | halt => cases h
    | _ => rfl
  | _ => cases h

/-- Woven code consists of instructions that can stand inside a section. -/
theorem Woven.isInner {n n' : Nat} {is : List Instr} (h : Woven n n' is) :
    is.all Instr.isInner = true := by
  induction h with
  | straight h => exact List.all_eq_true.2 fun i hi ↦
      Instr.isInner_of_isStraight (List.all_eq_true.1 h i hi)
  | append _ _ ih ih' => rw [List.all_append, ih, ih', Bool.and_self]
  | compare j _ ih =>
    simp only [List.all_append, ih]
    rfl
  | logic v _ _ ihl ihr =>
    simp only [List.all_append, ihl, ihr]
    rfl
  | cond _ _ _ ihc ihb iha =>
    simp only [List.all_append, ihc, ihb, iha]
    rfl

/-- The code of an expression stays inside a section. -/
theorem Expr.inner_of_emit {t : Target} {e : Expr} {n n' : Nat} {is : List Instr}
    (h : e.emit t n = .ok (is, n')) : Inner is :=
  ⟨(e.woven_emit h).isInner, fun j l hl ↦
    (e.numbered_emit h).references l (mem_references_iff.2 (.inr ⟨j, hl⟩))⟩

end Expressions

/-! ## Declarations -/

namespace Inner

variable {is js : List Instr}

theorem append (h : Inner is) (h' : Inner js) : Inner (is ++ js) := by
  refine ⟨by rw [List.all_append, h.instrs, h'.instrs]; rfl, fun j l hl ↦ ?_⟩
  rw [marks_append, List.mem_append]
  exact (List.mem_append.1 hl).imp (h.jumps j l) (h'.jumps j l)

theorem isInner (h : Inner is) {i : Instr} (hi : i ∈ is) : i.isInner = true :=
  List.all_eq_true.1 h.instrs i hi

theorem isEntry (h : Inner is) : ∀ i ∈ is, i.isEntry = false := fun _ hi ↦
  Instr.isEntry_of_isInner (h.isInner hi)

/-- Jumps are to points inside the code of expressions. -/
theorem kind (h : Inner is) {j : Jump} {l : Label} (hl : .jump j l ∈ is) : l.kind = .branch :=
  of_decide_eq_true (h.isInner (mem_marks_iff.1 (h.jumps j l hl)))

theorem not_halt (h : Inner is) : .plain .halt ∉ is := fun hi ↦ Bool.false_ne_true (h.isInner hi)

end Inner

theorem inner_of_isPlain {is : List Instr} (h : is.all Instr.isInner = true)
    (hplain : is.all Instr.isPlain = true) : Inner is :=
  ⟨h, fun _ _ hl ↦ absurd (List.all_eq_true.1 hplain _ hl) Bool.false_ne_true⟩

theorem inner_epilogue (locals params : Nat) : Inner (epilogue locals params) :=
  inner_of_isPlain (by simp [epilogue, Instr.isInner]) (by simp [epilogue, Instr.isPlain])

theorem inner_pushLabel {entry : Label} (h : entry.kind ≠ .branch) : Inner [.pushLabel entry] :=
  ⟨by simpa [Instr.isInner] using h, fun j l hl ↦ by simp at hl⟩

theorem inner_buildDispatch {table : List Label} (h : ∀ l ∈ table, l.kind ≠ .branch) :
    Inner (buildDispatch table) := by
  refine ⟨?_, fun j l hl ↦ ?_⟩
  · simpa [buildDispatch, storeOnHeap, bumpHeap, Instr.isInner] using h
  · simp [buildDispatch, storeOnHeap, bumpHeap] at hl

/-- All that has been collected are whole sections, and dispatch tables list only entries.  This
holds before and after every declaration. -/
structure Emission.Sectioned (s : Emission) : Prop where
  /-- The functions so far. -/
  functions : ∃ secs : List (List Instr), s.functions = secs.flatten ∧
    ∀ sec ∈ secs, FunctionSection sec
  /-- The dispatch tables so far. -/
  dispatch : ∀ c table, s.dispatch.find? c = some table → ∀ l ∈ table, l.kind ≠ .branch

/-- Emitting a declaration adds whole sections, and what it leaves is code inside of one.  What it
leaves may be part of the main code or of another function. -/
def Decl.AddsSections (t : Target) (d : Decl) : Prop :=
  ∀ {s s' : Emission} {is : List Instr}, s.Sectioned → d.emit t s = .ok is s' →
    s'.Sectioned ∧ Inner is

section Declarations

variable {t : Target} {s s' : Emission}

theorem Decl.sectioned_all {ds : List Decl} (h : ∀ d ∈ ds, d.AddsSections t) {is : List Instr}
    (hs : s.Sectioned) (hds : Decl.emitAll t ds s = .ok is s') : s'.Sectioned ∧ Inner is := by
  induction ds generalizing s is with
  | nil =>
    rw [Decl.emitAll, emitter_pure] at hds
    cases hds
    exact ⟨hs, rfl, nofun⟩
  | cons d ds ih =>
    rw [List.forall_mem_cons] at h
    obtain ⟨first, s₁, rest, hfirst, hrest, rfl⟩ := Decl.emitAll_cons_eq_ok.1 hds
    obtain ⟨hs₁, hinner⟩ := h.1 hs hfirst
    obtain ⟨hs', hinner'⟩ := ih h.2 hs₁ hrest
    exact ⟨hs', hinner.append hinner'⟩

theorem FunDecl.sectioned {f : FunDecl} (h : ∀ d ∈ f.locals, d.AddsSections t) {entry : Label}
    (hentry : entry.kind ≠ .branch) {u : Unit} (hs : s.Sectioned)
    (hf : f.emit t entry s = .ok u s') : s'.Sectioned := by
  obtain ⟨declared, s₁, result, n, hdeclared, hresult, rfl⟩ := FunDecl.emit_eq_ok hf
  have hnoted : Emission.Sectioned { s with
      log := s.log ++ [.emittingFunction f.name entry] } := ⟨hs.functions, hs.dispatch⟩
  obtain ⟨⟨⟨secs, hsecs, hall⟩, hdispatch⟩, hinner⟩ := Decl.sectioned_all h hnoted hdeclared
  refine ⟨⟨secs ++ [prologue entry ++ declared ++ result
      ++ epilogue f.locals.length f.params.length], ?_, fun sec hsec ↦ ?_⟩, hdispatch⟩
  · rw [List.flatten_append, List.flatten_singleton, hsecs]
  · rcases List.mem_append.1 hsec with hsec | hsec
    · exact hall sec hsec
    · obtain rfl := List.mem_singleton.1 hsec
      exact ⟨entry, declared ++ result, f.locals.length, f.params.length, hentry,
        hinner.append (Expr.inner_of_emit hresult), by simp only [List.append_assoc]⟩

theorem FunDecl.sectioned_all {fs : List FunDecl}
    (h : ∀ f ∈ fs, ∀ d ∈ f.locals, d.AddsSections t) {table table' : List Label}
    (htable : ∀ l ∈ table, l.kind ≠ .branch) (hs : s.Sectioned)
    (hfs : FunDecl.emitMethods t table fs s = .ok table' s') :
    s'.Sectioned ∧ ∀ l ∈ table', l.kind ≠ .branch := by
  induction fs generalizing s table with
  | nil =>
    rw [FunDecl.emitMethods, emitter_pure] at hfs
    cases hfs
    exact ⟨hs, htable⟩
  | cons f fs ih =>
    rw [List.forall_mem_cons] at h
    obtain ⟨e, s₁, placed, -, -, hf, hp, hrest⟩ := FunDecl.emitMethods_cons_eq_ok.1 hfs
    have hentered : ({ s with nextLabel := s.nextLabel + 1 } : Emission).Sectioned :=
      ⟨hs.functions, hs.dispatch⟩
    refine ih h.2 (fun l hl ↦ ?_) (FunDecl.sectioned h.1 (by simp) hentered hf) hrest
    rcases mem_of_placeEntry? hp l hl with rfl | hl
    · simp
    · exact htable l hl

theorem ClassDecl.sectioned {c : ClassDecl}
    (h : ∀ f ∈ c.methods, ∀ d ∈ f.locals, d.AddsSections t) {is : List Instr} (hs : s.Sectioned)
    (hc : c.emit t s = .ok is s') : s'.Sectioned ∧ Inner is := by
  obtain ⟨_, table, s₁, -, rfl, hmethods, rfl, rfl⟩ := ClassDecl.emit_eq_ok hc
  have hinherited : ∀ l ∈ ((t.ctx.classes.superclass? c.name).bind s.dispatch.find?).getD [],
      l.kind ≠ .branch := by
    intro l hl
    cases htable : (t.ctx.classes.superclass? c.name).bind s.dispatch.find? with
    | none => simp [htable] at hl
    | some table =>
      obtain ⟨x, -, hx⟩ := Option.bind_eq_some_iff.1 htable
      exact hs.dispatch x table hx l (by simpa [htable] using hl)
  obtain ⟨⟨hfunctions, hdispatch⟩, hkinds⟩ := FunDecl.sectioned_all h hinherited hs hmethods
  refine ⟨⟨hfunctions, fun x table' hx ↦ ?_⟩, inner_buildDispatch hkinds⟩
  rw [Table.find?_insert] at hx
  split at hx
  · exact Option.some.inj hx ▸ hkinds
  · exact hdispatch x table' hx

/-- **Emitting a declaration adds whole sections**, also for the functions inside of it, which come
before the one around them. -/
theorem Decl.sectioned (d : Decl) : d.AddsSections t := by
  induction d using Decl.induction with
  | var site x ty e =>
    intro s s' is hs h
    rw [Decl.emit, emitter_labels_eq_ok] at h
    obtain ⟨n, he, rfl⟩ := h
    exact ⟨⟨hs.functions, hs.dispatch⟩, Expr.inner_of_emit he⟩
  | func f ih =>
    intro s s' is hs h
    obtain ⟨hf, rfl⟩ := Decl.emit_func_eq_ok.1 h
    have hentered : ({ s with nextLabel := s.nextLabel + 1 } : Emission).Sectioned :=
      ⟨hs.functions, hs.dispatch⟩
    exact ⟨FunDecl.sectioned ih (by simp) hentered hf, inner_pushLabel (by simp)⟩
  | cls c ih =>
    intro s s' is hs h
    exact ClassDecl.sectioned ih hs h

end Declarations

/-! ## Programs -/

/-- Behind the mark of its entry, the section of a function is code inside of it. -/
theorem FunctionSection.exists_cons {is : List Instr} (h : FunctionSection is) :
    ∃ entry rest, is = .mark entry :: rest ∧ entry.kind ≠ .branch ∧ Inner rest := by
  obtain ⟨entry, body, locals, params, hentry, hbody, rfl⟩ := h
  exact ⟨entry, [.plain .copyFp, .plain .loadRa] ++ body ++ epilogue locals params, rfl, hentry,
    ((inner_of_isPlain rfl rfl).append hbody).append (inner_epilogue locals params)⟩

/-- The sections of code that is put together from sections are these. -/
theorem sections_append_flatten {i : Instr} {is : List Instr} {secs : List (List Instr)}
    (his : ∀ j ∈ is, j.isEntry = false) (hsecs : ∀ sec ∈ secs, FunctionSection sec) :
    sections (i :: is ++ secs.flatten) = (i :: is) :: secs := by
  induction secs generalizing i is with
  | nil =>
    rw [List.flatten_nil, List.append_nil]
    exact sections_eq_singleton his
  | cons sec secs ih =>
    rw [List.forall_mem_cons] at hsecs
    obtain ⟨entry, rest, rfl, hentry, hrest⟩ := hsecs.1.exists_cons
    have hhead : ∀ j ∈ ((.mark entry :: rest) :: secs).flatten.head?, j.isEntry = true := by
      intro j hj
      cases hj
      simpa [Instr.isEntry] using hentry
    rw [sections_append hhead, sections_eq_singleton his, List.flatten_cons,
      ih hrest.isEntry hsecs.2]
    rfl

/-- The code of a program is that of its main section and those of its functions. -/
theorem Program.exists_sections {t : Target} {p : Program} {code : List Instr} {s : Emission}
    (h : p.emit t {} = .ok code s) :
    ∃ (main : List Instr) (secs : List (List Instr)),
      code = main ++ [.plain .halt] ++ secs.flatten ∧ Inner main ∧
        ∀ sec ∈ secs, FunctionSection sec := by
  have hempty : ({} : Emission).Sectioned := ⟨⟨[], rfl, nofun⟩, nofun⟩
  obtain ⟨main, s₁, hmain, rfl, -⟩ := Program.emit_eq_ok h
  cases p with
  | letIn line decls body =>
    obtain ⟨declared, s₂, result, n, hd, hr, rfl, rfl⟩ := Program.emitMain_letIn_eq_ok hmain
    obtain ⟨⟨⟨secs, hsecs, hall⟩, -⟩, hdeclared⟩ :=
      Decl.sectioned_all (fun d _ ↦ d.sectioned) hempty hd
    exact ⟨_, secs, congrArg _ hsecs,
      ((inner_of_isPlain rfl rfl).append hdeclared).append (Expr.inner_of_emit hr), hall⟩
  | bare body =>
    obtain ⟨result, n, hr, rfl, rfl⟩ := Program.emitMain_bare_eq_ok hmain
    exact ⟨result, [], rfl, Expr.inner_of_emit hr, List.forall_mem_nil _⟩

/-- The labels of some code are in order.  Everything is said about the code as a whole, so it does
not matter how it was put together. -/
structure WellLabelled (code : List Instr) : Prop where
  /-- No label is marked twice. -/
  once : ∀ l, (marks code).count l ≤ 1
  /-- Whatever is referred to is marked exactly once. -/
  marked : ∀ l ∈ references code, (marks code).count l = 1
  /-- So the code can be assembled. -/
  assembles : ∃ b, assemble code = .ok b
  /-- A jump is to a point in the same section. -/
  jumps : ∀ sec ∈ sections code, ∀ j l, .jump j l ∈ sec → l.kind = .branch ∧ l ∈ marks sec
  /-- What is pushed is the entry of a function or method. -/
  pushes : ∀ l, .pushLabel l ∈ code → l.kind ≠ .branch
  /-- There is one end of the program. -/
  halts : code.count (.plain .halt) = 1
  /-- The main section ends with it, and all others are those of functions and methods. -/
  main : ∃ main functions, sections code = (main ++ [.plain .halt]) :: functions ∧
    ∀ sec ∈ functions, FunctionSection sec

namespace FunctionSection

variable {is : List Instr}

theorem jumps (h : FunctionSection is) (j : Jump) (l : Label) (hl : .jump j l ∈ is) :
    l.kind = .branch ∧ l ∈ marks is := by
  obtain ⟨entry, rest, rfl, -, hrest⟩ := h.exists_cons
  rcases List.mem_cons.1 hl with hl | hl
  · cases hl
  · exact ⟨hrest.kind hl, List.mem_cons_of_mem _ (hrest.jumps j l hl)⟩

theorem pushes (h : FunctionSection is) {l : Label} (hl : .pushLabel l ∈ is) :
    l.kind ≠ .branch := by
  obtain ⟨entry, rest, rfl, -, hrest⟩ := h.exists_cons
  rcases List.mem_cons.1 hl with hl | hl
  · cases hl
  · exact of_decide_eq_true (hrest.isInner hl)

theorem not_halt (h : FunctionSection is) : .plain .halt ∉ is := by
  obtain ⟨entry, rest, rfl, -, hrest⟩ := h.exists_cons
  rw [List.mem_cons]
  rintro (hi | hi)
  · cases hi
  · exact hrest.not_halt hi

end FunctionSection

/-- **In the code that is generated for a program the labels are in order**, whatever is known about
the program. -/
theorem generate_wellLabelled {t : Target} {p : Program} {code : List Instr}
    (h : (generate t p).1 = .ok code) : WellLabelled code := by
  obtain ⟨s, hemit⟩ := generate_eq_ok h
  obtain ⟨b, hb⟩ := Program.assembles hemit
  obtain ⟨hnodup, hmarked, -⟩ := assemble_eq_ok_iff.1 hb
  obtain ⟨main, secs, rfl, hmain, hsecs⟩ := Program.exists_sections hemit
  have hstart : ∀ i ∈ main ++ [.plain .halt], i.isEntry = false := by
    intro i hi
    rcases List.mem_append.1 hi with hi | hi
    · exact hmain.isEntry i hi
    · rw [List.mem_singleton.1 hi]
      rfl
  have hsections : sections (main ++ [.plain .halt] ++ secs.flatten)
      = (main ++ [.plain .halt]) :: secs := by
    cases main with
    | nil => exact sections_append_flatten (List.forall_mem_cons.1 hstart).2 hsecs
    | cons i main => exact sections_append_flatten (List.forall_mem_cons.1 hstart).2 hsecs
  refine ⟨List.nodup_iff_count_le_one.1 hnodup,
    fun l hl ↦ List.count_eq_one_of_mem hnodup (hmarked l hl), ⟨b, hb⟩, fun sec hsec j l hl ↦ ?_,
    fun l hl ↦ ?_, ?_, main, secs, hsections, hsecs⟩
  · rw [hsections, List.mem_cons] at hsec
    rcases hsec with rfl | hsec
    · have hl : .jump j l ∈ main := by simpa using hl
      exact ⟨hmain.kind hl, by simpa using .inl (hmain.jumps j l hl)⟩
    · exact (hsecs sec hsec).jumps j l hl
  · simp only [List.mem_append, List.mem_flatten, List.mem_singleton, reduceCtorEq, or_false] at hl
    rcases hl with hl | ⟨sec, hsec, hl⟩
    · exact of_decide_eq_true (hmain.isInner hl)
    · exact (hsecs sec hsec).pushes hl
  · have hrest : .plain .halt ∉ secs.flatten := fun hi ↦ by
      obtain ⟨sec, hsec, hi⟩ := List.mem_flatten.1 hi
      exact (hsecs sec hsec).not_halt hi
    rw [List.count_append, List.count_append, List.count_eq_zero.2 hmain.not_halt,
      List.count_eq_zero.2 hrest, List.count_singleton_self]

/-- A function that chooses, and a class `B` that only inherits the method of `A`, which calls the
function. -/
def choosing : Program :=
  let f : FunDecl := ⟨⟨6, 1⟩, "f", .int, [⟨⟨0, 1⟩, "b", .bool⟩], [],
    .cond ⟨5, 1⟩ (.logic ⟨2, 1⟩ .and (.ident ⟨1, 1⟩ "b") (.bool ⟨7, 1⟩ true)) (.int ⟨3, 1⟩ 1)
      (.int ⟨4, 1⟩ 2)⟩
  let a : ClassDecl := ⟨⟨11, 1⟩, "A", none, [],
    [⟨⟨10, 1⟩, "m", .int, [], [], .call ⟨9, 1⟩ "f" [.bool ⟨8, 1⟩ true]⟩]⟩
  let b : ClassDecl := ⟨⟨12, 1⟩, "B", some "A", [], []⟩
  .letIn 1 [.func f, .cls a, .cls b] (.call ⟨14, 1⟩ "f" [.bool ⟨13, 1⟩ false])

/-- The code of the program consists of three sections.  The entry of the method is listed for both
classes. -/
theorem choosing_wellLabelled : ∃ code,
    (generate (({} : Toolchain).target (({} : Toolchain).analyze choosing)) choosing).1 = .ok code ∧
      (sections code).length = 3 ∧ code.count (.pushLabel ⟨.method, 5⟩) = 2 ∧
      WellLabelled code := by
  have hcode : (generate (({} : Toolchain).target (({} : Toolchain).analyze choosing))
      choosing).1.toOption.any (fun code ↦ (sections code).length = 3
        ∧ code.count (.pushLabel ⟨.method, 5⟩) = 2) = true := by decide +kernel
  cases h : (generate (({} : Toolchain).target (({} : Toolchain).analyze choosing)) choosing).1 with
  | error e =>
    rw [h] at hcode
    cases hcode
  | ok code =>
    rw [h] at hcode
    obtain ⟨hsections, hentry⟩ := of_decide_eq_true hcode
    exact ⟨code, rfl, hsections, hentry, generate_wellLabelled h⟩

end ObjectLet
