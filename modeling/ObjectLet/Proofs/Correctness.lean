import ObjectLet.Proofs.Nameless
import ObjectLet.Proofs.Programs

/-!
# Correctness

Everything together, from the program to the end of its run.  A program in which the analyses find
no error, and for which there is code, makes a `Setting`; there its main code does what the program
does, and what is left is to look at the last turn of the machine.

* `Toolchain.ends_as_evaluated`: **a program ends as its evaluation does**, if there is memory
  enough; otherwise its stack may meet its heap.  If the evaluation has no end, neither has the run.
* `Toolchain.never_wrong`: **no turn of the machine goes wrong**, in runs that never end, too.
* `Toolchain.ends_bare`: **a bare expression ends as its evaluation does**, if there are more cells
  in the memory than nodes in the expression.

Addresses are words, and so are the offsets of fields.  All of this is about programs which are
small enough for that (`Toolchain.Addressable`); of a bare expression only the code has to be.
-/

set_option autoImplicit false

namespace ObjectLet

/-! ## Compiled programs -/

/-- Words are large enough for everything that is addressed in a program.  Without this an address
in the code, or the offset of a field, would come out as another one. -/
structure Toolchain.Addressable (t : Toolchain) (p : Program) : Prop where
  /-- Every address in the code is a word. -/
  code : ∀ c, (t.compile p).result = .ok c → c.bytecode.code.size < 2 ^ 31
  /-- Every offset of a field is a word. -/
  fields : ∀ x i, (t.analyze p).context.classes.info? x = some i → i.shape.fields.length < 2 ^ 31

/-- The setting of a compiled program in a machine with the given memory, with all that the analyses
and the compiler have established about it. -/
structure Setting.IsOf (S : Setting) (p : Program) (c : Compiled) (size : Nat) : Prop where
  /-- The program is in that machine. -/
  image : S.image = ⟨c.instructions, size⟩
  /-- Its code is that of the program. -/
  code : S.code = c.bytecode
  /-- Everything is known about the program. -/
  accepted : p.Accepted S.ctx
  /-- There are places for all methods. -/
  dispatched : p.Dispatched S.ctx
  /-- The main code comes first, and after it there are only the functions. -/
  main : ∃ is, p.emitMain S.target {} = .ok is S.emission ∧ CodeAt S.image.prog 0 is ∧
    codeSize is + S.frameSize = c.bytecode.code.size

theorem Options.globalBase_eq {o : Options} (h : o.memorySize ≤ 2147483647) :
    o.globalBase = Int32.ofInt o.memorySize := by
  rw [Options.globalBase, Nat.min_eq_left h, Int32.ofInt_eq_ofNat]

theorem Compiled.ofInstrs_eq_ok_iff {is : List Instr} {c : Compiled} :
    Compiled.ofInstrs is = .ok c ↔ c.instructions = is ∧ assemble is = .ok c.bytecode := by
  obtain ⟨js, b⟩ := c
  rw [Compiled.ofInstrs]
  cases assemble is with
  | ok b' => simp [eq_comm]
  | error e => simp

namespace Toolchain

variable {t : Toolchain} {p : Program} {c : Compiled} {m : Machine} {o : Outcome}

/-- The classes of a program are laid out as they are declared. -/
theorem exists_classes (t : Toolchain) (hacc : p.Accepted p.resolved)
    (hdisp : p.Dispatched p.resolved) : ∃ cs, Classes p.resolved p.resolved.classes cs := by
  rw [hacc.classes]
  cases p with
  | bare body => exact ⟨[], .nil⟩
  | letIn line decls body =>
    obtain ⟨hrec, hcheck, hclasses, -⟩ := hacc.of_letIn
    obtain ⟨-, -, cs, -, hglobal⟩ := (Decl.emitAll_spec (t.knows (.letIn line decls body)) (s := {})
      (.start _) (fun _ _ h ↦ by cases h) hrec hcheck (hclasses ▸ .refl _)).1 hdisp
    exact ⟨cs, hglobal.classes⟩

/-- **A compiled program makes a setting.** From here on nothing has to be known
about the toolchain. -/
theorem exists_setting (hclean : (t.analyze p).counts.isClean = true)
    (hacc : p.Accepted p.resolved) (hcode : (t.compile p).result = .ok c)
    (hsize : t.options.memorySize ≤ 2147483647) (haddr : t.Addressable p) :
    ∃ S : Setting, S.IsOf p c t.options.memorySize := by
  have hdisp : p.Dispatched p.resolved := by
    by_contra hnot
    obtain ⟨_, -, _, -, _, -, -, herr⟩ := (compile_of_accepted hclean hacc).2 hnot
    rw [hcode] at herr
    cases herr
  have hknows := t.knows p
  obtain ⟨main, s, hmain⟩ := (Program.emitMain_spec hknows hacc).1 hdisp
  obtain ⟨cs, hcs⟩ := exists_classes t hacc hdisp
  have hshort := haddr.code c hcode
  rw [compile_eq hclean, Program.emit_of_emitMain hmain] at hcode
  obtain ⟨hinstrs, hassemble⟩ := Compiled.ofInstrs_eq_ok_iff.1 hcode
  rw [← hinstrs] at hassemble
  have hprog : c.instructions = [] ++ main ++ s.functions := by rw [hinstrs, List.nil_append]
  have hfunctions : CodeAt c.instructions (codeSize main) s.functions :=
    ⟨main, [], by rw [hinstrs, List.append_nil], rfl⟩
  have hall : codeSize main + codeSize s.functions = c.bytecode.code.size := by
    rw [Assembled.size_eq hassemble, hinstrs, codeSize_append]
  refine ⟨{
    ctx := p.resolved
    target := t.target (t.analyze p)
    image := ⟨c.instructions, t.options.memorySize⟩
    code := c.bytecode
    emission := s
    classes := cs
    knows := hknows
    base_eq := Options.globalBase_eq hsize
    sized := ⟨hassemble, Assembled.size_eq hassemble ▸ hshort, by simp only; omega⟩
    functions := ⟨_, hfunctions⟩
    laid := hcs
    narrow := fun x i hi ↦ haddr.fields x i (hknows.classes ▸ hi) },
    rfl, rfl, hacc, hdisp, main, hmain, ⟨[], s.functions, hprog, rfl⟩, hall⟩

end Toolchain

namespace Setting.IsOf

variable {S : Setting} {p : Program} {c : Compiled} {size n k : Nat}

theorem sized (h : S.IsOf p c size) : S.image.Sized c.bytecode := h.code ▸ S.sized

/-- A run starts at the start of the program. -/
theorem shows (h : S.IsOf p c size) (hsize : 2 ≤ size) (capacity : Option Nat) :
    S.image.Shows capacity (.boot size { capacity }) S.start := by
  have htop : S.image.top = size := by rw [h.image]
  have hbase : S.target.base = Int32.ofNat S.image.top := by
    rw [S.base_eq, Int32.ofInt_eq_ofNat]
  rw [← htop]
  exact Image.shows_boot S.image capacity (by omega) rfl rfl rfl rfl hbase rfl rfl rfl rfl

/-- **The main code of a program does what the program does.**  The main code and the functions that
are being called at a time, of which there are as many as there is fuel, each need at most as many
cells of the stack as the code has words. -/
theorem runs (h : S.IsOf p c size) (hsize : 2 ≤ size) (hn : n ≤ k) :
    S.image.Runs ((k + 1) * c.bytecode.code.size) n (p.eval k) {} S.start fun v τ d ↦
      ∃ st, True ∧ S.image.Stops v st τ d := by
  obtain ⟨main, hmain, hcode, hall⟩ := h.main
  have htop : S.image.top = size := by rw [h.image]
  have hframes : k * S.frameSize ≤ k * c.bytecode.code.size := Nat.mul_le_mul_left k (by omega)
  rw [Nat.succ_mul]
  cases p with
  | bare e =>
    obtain ⟨result, i, he, rfl, -⟩ := Program.emitMain_bare_eq_ok hmain
    have hcells := Expr.cells_le_codeSize he
    rw [codeSize_append] at hall
    exact (S.bare (S.calls_run n k) h.accepted hmain hcode (by omega) hn).imp (by omega)
      fun _ _ _ hd ↦ ⟨[], trivial, hd⟩
  | letIn line decls body =>
    exact (S.letIn (S.calls_run n k) h.accepted h.dispatched hmain hcode (by omega) hn).imp
      (by omega) fun _ _ _ ⟨st, hd⟩ ↦ ⟨st, trivial, hd⟩

end Setting.IsOf

/-! ## Whole runs -/

/-- A program is compiled, and its run on a new machine has an end.  The run of the toolchain
reports what the machine does. -/
def Toolchain.Ends (t : Toolchain) (p : Program) (o : Outcome) : Prop :=
  ∃ c m fuel log, (t.compile p).result = .ok c ∧ Machine.new t.options = .ok m ∧
    m.execute c.bytecode {} fuel = some (o.result, { m with state := o.final }) ∧
    t.run p {} fuel = some ⟨o.result.mapError .fault, o.final.output, log⟩

namespace Toolchain

variable {t : Toolchain} {p : Program} {c : Compiled} {m : Machine} {o : Outcome} {s : State}
  {k fuel : Nat}

theorem run_eq (hcode : (t.compile p).result = .ok c) (hm : Machine.new t.options = .ok m)
    (output : Output) (fuel : Nat) :
    t.run p output fuel = (m.execute c.bytecode output fuel).map fun (result, m) ↦
      ⟨result.mapError .fault, m.state.output, (t.compile p).log ++ [m.endEvent result]⟩ := by
  simp only [run, hcode, hm]

theorem execute_eq (hm : Machine.new t.options = .ok m) (hlimit : t.options.maxSteps = none)
    (capacity : Option Nat) (fuel : Nat) :
    m.execute c.bytecode { capacity } fuel =
      ((State.boot t.options.memorySize { capacity }).run none c.bytecode.code fuel).map fun o ↦
        (o.result, { m with state := o.final }) := by
  obtain ⟨-, rfl⟩ := Machine.new_eq_ok_iff.1 hm
  simp only [Machine.execute, hlimit]
  rfl

theorem ends_of_run (hcode : (t.compile p).result = .ok c) (hm : Machine.new t.options = .ok m)
    (hlimit : t.options.maxSteps = none)
    (h : (State.boot t.options.memorySize {}).run none c.bytecode.code k = some o) :
    t.Ends p o := by
  have hrun := execute_eq (c := c) hm hlimit none k
  rw [h] at hrun
  exact ⟨c, m, k, _, hcode, hm, hrun, by rw [run_eq hcode hm, hrun]; rfl⟩

theorem run_eq_none (hcode : (t.compile p).result = .ok c) (hm : Machine.new t.options = .ok m)
    (hlimit : t.options.maxSteps = none)
    (h : (State.boot t.options.memorySize {}).after none c.bytecode.code k = some s)
    (hfuel : fuel ≤ k) : t.run p {} fuel = none := by
  have hnone : (State.boot t.options.memorySize {}).run none c.bytecode.code fuel = none := by
    cases hrun : (State.boot t.options.memorySize {}).run none c.bytecode.code fuel with
    | none => rfl
    | some o =>
      have hmore := State.run_mono hrun (Nat.le_add_left_of_le hfuel : fuel ≤ 0 + k)
      rw [State.run_of_after h] at hmore
      cases hmore
  rw [run_eq hcode hm, execute_eq hm hlimit none, hnone]
  rfl

/-- **The run of a program ends as its evaluation does**, unless stack and heap meet before.
They meet only in a memory that is too small: apart from the cells that the evaluation puts on
the heap, it is enough to have as many cells as the code has words, for the main code and once
more for each level of calls that the fuel allows.  Where the evaluation runs out of fuel, the
run does so, too. -/
theorem ends_as_evaluated (hids : p.ids.Nodup) (hclean : (t.analyze p).counts.isClean = true)
    (hcode : (t.compile p).result = .ok c) (hm : Machine.new t.options = .ok m)
    (hlimit : t.options.maxSteps = none) (haddr : t.Addressable p) (fuel : Nat) :
    (∃ o, t.Ends p o ∧ (o.Agrees (p.eval fuel {}) ∨
      t.options.memorySize ≤ (fuel + 1) * c.bytecode.code.size + (storeOf (p.eval fuel {})).next ∧
        o.Collides (storeOf (p.eval fuel {})).printed)) ∨
    (∃ σ, p.eval fuel {} = .error .outOfFuel σ) ∧ t.run p {} fuel = none := by
  obtain ⟨⟨hpos, hsize⟩, -⟩ := Machine.new_eq_ok_iff.1 hm
  obtain ⟨S, hS⟩ := exists_setting hclean (accepted hids hclean) hcode hsize haddr
  have hruns := hS.runs hpos (Nat.le_refl fuel)
  have hshows := hS.shows hpos none
  have htop : S.image.top = t.options.memorySize := by rw [hS.image]
  rw [Image.Runs] at hruns
  cases hr : p.eval fuel {} with
  | ok v τ =>
    rw [hr] at hruns
    obtain ⟨k, o, hk, ho⟩ := hruns.stops hS.sized hshows
    refine .inl ⟨o, ends_of_run hcode hm hlimit hk, ?_⟩
    rcases ho with ⟨hresult, ⟨st, -, hst⟩, hprinted⟩ | ⟨hfull, hcollides⟩
    · exact .inl ⟨hresult, by rw [hst]; rfl, hprinted⟩
    · exact .inr ⟨htop ▸ hfull, hcollides⟩
  | error e τ =>
    rw [hr] at hruns
    rcases hruns.halts hS.sized hshows with ⟨k, o, hk, ho⟩ | ⟨rfl, k, s, hn, hk⟩
    · exact .inl ⟨o, ends_of_run hcode hm hlimit hk, htop ▸ ho⟩
    · refine .inr ⟨⟨τ, rfl⟩, run_eq_none hcode hm hlimit hk ?_⟩
      rwa [show S.start.steps = 0 from rfl, Nat.zero_add] at hn

/-- The method `twice` of a class `A` calls the method `m`, which a class `B` replaces. -/
def dispatching : Program :=
  let base : ClassDecl := ⟨⟨7, 1⟩, "A", none, [⟨⟨0, 1⟩, "x", .int⟩],
    [⟨⟨2, 1⟩, "m", .int, [], [], .ident ⟨1, 1⟩ "x"⟩,
      ⟨⟨6, 1⟩, "twice", .int, [], [],
        .arith ⟨5, 1⟩ .add (.call ⟨3, 1⟩ "m" []) (.call ⟨4, 1⟩ "m" [])⟩]⟩
  let derived : ClassDecl := ⟨⟨13, 1⟩, "B", some "A", [],
    [⟨⟨12, 1⟩, "m", .int, [], [],
      .print ⟨11, 1⟩ (.arith ⟨10, 1⟩ .mul (.ident ⟨8, 1⟩ "x") (.int ⟨9, 1⟩ 10))⟩]⟩
  .letIn 1
    [.cls base, .cls derived, .var ⟨16, 1⟩ "a" (.ref "A") (.new ⟨15, 1⟩ "B" [.int ⟨14, 1⟩ 7])]
    (.invoke ⟨17, 1⟩ "a" "twice" [])

theorem dispatching_clean : (({} : Toolchain).analyze dispatching).counts.isClean = true := by
  decide +kernel

/-- There is code for it, and not much. -/
theorem dispatching_compiled : ∃ c, (({} : Toolchain).compile dispatching).result = .ok c ∧
    c.bytecode.code.size ≤ 200 := by
  have hsize : (({} : Toolchain).compile dispatching).result.toOption.any
      (fun c ↦ c.bytecode.code.size ≤ 200) = true := by decide +kernel
  cases hcode : (({} : Toolchain).compile dispatching).result with
  | ok c =>
    rw [hcode] at hsize
    exact ⟨c, rfl, of_decide_eq_true hsize⟩
  | error e =>
    rw [hcode] at hsize
    cases hsize

theorem dispatching_addressable : ({} : Toolchain).Addressable dispatching := by
  refine ⟨fun c hcode ↦ ?_, fun x i hi ↦ ?_⟩
  · obtain ⟨c', hcode', hsize⟩ := dispatching_compiled
    obtain rfl : c = c' := Except.ok.inj (hcode.symm.trans hcode')
    omega
  · have hfields : (({} : Toolchain).analyze dispatching).context.classes.infos.entries.all
        (fun p ↦ decide (p.2.shape.fields.length < 2 ^ 31)) = true := by decide +kernel
    generalize (({} : Toolchain).analyze dispatching).context.classes = classes at hfields hi
    exact of_decide_eq_true (List.all_eq_true.1 hfields (x, i) (Table.mem_of_lookupIn hi))

/-- The object of `B` runs its own `m` twice.  The 10000 cells that a machine has if nothing else is
asked for are more than enough for this. -/
theorem dispatching_ends : ∃ o, ({} : Toolchain).Ends dispatching o ∧
    (∃ steps, o.result = .ok ⟨steps, 6⟩) ∧ o.final.stack.head? = some 140 ∧
      o.final.Printed [70, 70] := by
  obtain ⟨c, hcode, hsize⟩ := dispatching_compiled
  obtain ⟨σ, heval, hnext, hprinted⟩ : ∃ σ, dispatching.eval 3 {} = .ok 140 σ ∧ σ.next = 6 ∧
      σ.printed = [70, 70] := ⟨_, rfl, rfl, rfl⟩
  have hends := ends_as_evaluated (t := {}) (p := dispatching) (by decide) dispatching_clean hcode
    rfl rfl dispatching_addressable 3
  rw [heval] at hends
  rcases hends with ⟨o, ho, hagrees | ⟨hfull, -⟩⟩ | ⟨⟨τ, hτ⟩, -⟩
  · exact ⟨o, ho, hnext ▸ hagrees.1, hagrees.2.1, hprinted ▸ hagrees.2.2⟩
  · have hmemory : (10000 : Nat) ≤ (3 + 1) * c.bytecode.code.size + σ.next := hfull
    omega
  · cases hτ

/-- **A compiled program never goes wrong on the machine**, however long it runs, whatever number of
steps and of lines of output it is given.  In every turn the heap is only added to.  The only faults
are those that the program or its limits are to blame for: a division by zero, a member of `null`, a
memory that is full, and steps or output that are used up. -/
theorem never_wrong (hids : p.ids.Nodup) (hclean : (t.analyze p).counts.isClean = true)
    (hcode : (t.compile p).result = .ok c) (hm : Machine.new t.options = .ok m)
    (haddr : t.Addressable p) (capacity : Option Nat) :
    (∀ k s, (m.state.reset { capacity }).after m.options.maxSteps c.bytecode.code k = some s →
      (s.turn m.options.maxSteps c.bytecode.code).Safe s) ∧
    ∀ fuel r m', m.execute c.bytecode { capacity } fuel = some (r, m') →
      (∀ f, r = .error f → f.Legitimate) ∧ .emptyStack ∉ m'.state.output.lines := by
  obtain ⟨⟨hpos, hsize⟩, rfl⟩ := Machine.new_eq_ok_iff.1 hm
  obtain ⟨S, hS⟩ := exists_setting hclean (accepted hids hclean) hcode hsize haddr
  have hsafe : ∀ k s, (State.boot t.options.memorySize { capacity }).after t.options.maxSteps
      c.bytecode.code k = some s → (s.turn t.options.maxSteps c.bytecode.code).Safe s := by
    intro k s hs
    -- with this much fuel the evaluator gets at least as far as the machine in `k` turns
    have hruns := hS.runs hpos (Nat.le_refl (k + 1))
    refine (hruns.imp (Nat.le_refl _) fun _ _ _ ⟨st, _, hd⟩ ↦ ⟨st, hd⟩).safe hS.sized
      (hS.shows hpos capacity) ?_ hs
    rw [show S.start.steps = 0 from rfl]
    omega
  refine ⟨hsafe, fun fuel r m' hrun ↦ ?_⟩
  obtain ⟨o, ho, heq⟩ := Option.map_eq_some_iff.1 hrun
  obtain ⟨rfl, rfl⟩ := Prod.mk.inj heq
  obtain ⟨k, s, hs, hlast⟩ := State.after_of_run ho
  exact (hsafe k s hs).outcome hlast

/-- No state in a run of the program goes wrong. -/
theorem dispatching_safe : ∃ c m, (({} : Toolchain).compile dispatching).result = .ok c ∧
    Machine.new {} = .ok m ∧ ∀ k s, (m.state.reset {}).after none c.bytecode.code k = some s →
      (s.turn none c.bytecode.code).Safe s := by
  obtain ⟨c, hcode, -⟩ := dispatching_compiled
  exact ⟨c, _, hcode, rfl, (never_wrong (t := {}) (p := dispatching) (by decide)
    dispatching_clean hcode rfl dispatching_addressable none).1⟩

/-! ## Bare expressions -/

/-- No name is used in a bare expression without errors. -/
theorem nameless {e : Expr} (hclean : (t.analyze (.bare e)).counts.isClean = true) : e.Nameless :=
  Expr.nameless_of_resolve .empty firstDeclOffset e
    (Expr.resolve_bare .empty firstDeclOffset e (isClean_iff.1 hclean).2.2.1)

/-- A bare expression with at most 2 ^ 28 nodes has short code. -/
theorem codeSize_bare_lt {e : Expr} (hclean : (t.analyze (.bare e)).counts.isClean = true)
    (h : e.ids.length ≤ 2 ^ 28) (hcode : (t.compile (.bare e)).result = .ok c) :
    c.bytecode.code.size < 2 ^ 31 := by
  have hacc := accepted_bare hclean
  obtain ⟨main, s, hmain⟩ := (Program.emitMain_spec (t.knows (.bare e)) hacc).1 nofun
  rw [compile_eq hclean, Program.emit_of_emitMain hmain] at hcode
  obtain ⟨hinstrs, hassemble⟩ := Compiled.ofInstrs_eq_ok_iff.1 hcode
  obtain ⟨result, n, he, rfl, rfl⟩ := Program.emitMain_bare_eq_ok hmain
  have hsize := (nameless hclean).codeSize_le he
  have hhalt : codeSize [.plain .halt] = 1 := rfl
  rw [Assembled.size_eq hassemble, List.append_nil, codeSize_append, hhalt]
  omega

/-- There are no classes in a bare expression, so only the size of the code matters. -/
theorem addressable_bare {e : Expr} (hclean : (t.analyze (.bare e)).counts.isClean = true)
    (hsmall : ∀ c, (t.compile (.bare e)).result = .ok c → c.bytecode.code.size < 2 ^ 31) :
    t.Addressable (.bare e) := by
  refine ⟨hsmall, fun x i hi ↦ ?_⟩
  rw [show (t.analyze (.bare e)).context.classes = _ from (t.knows (.bare e)).classes,
    (accepted_bare hclean).classes] at hi
  cases hi

/-- **The run of a bare expression ends as its evaluation does**: with the value as the only one on
the stack and nothing on the heap, or with a division by zero, and the same has been printed.  Stack
and heap do not meet if the memory has more cells than the expression has nodes. -/
theorem ends_bare {e : Expr} (hclean : (t.analyze (.bare e)).counts.isClean = true)
    (hm : Machine.new t.options = .ok m) (hlimit : t.options.maxSteps = none)
    (hsmall : ∀ c, (t.compile (.bare e)).result = .ok c → c.bytecode.code.size < 2 ^ 31)
    (fuel : Nat) :
    ∃ o, t.Ends (.bare e) o ∧
      match (Program.bare e).eval fuel {} with
      | .ok v σ =>
        (∃ steps, o.result = .ok ⟨steps, 0⟩) ∧ o.final.stack = [v] ∧ o.final.Printed σ.printed ∨
          t.options.memorySize ≤ e.ids.length ∧ o.Collides σ.printed
      | .error .divisionByZero σ =>
        (∃ ip, o.result = .error (.divisionByZero ip)) ∧ o.final.Printed σ.printed ∨
          t.options.memorySize ≤ e.ids.length ∧ o.Collides σ.printed
      | .error _ _ => False := by
  obtain ⟨⟨hpos, hsize⟩, -⟩ := Machine.new_eq_ok_iff.1 hm
  have hacc := accepted_bare hclean
  have hname := nameless hclean
  have haddr := addressable_bare hclean hsmall
  obtain ⟨c, hcode⟩ := (compile_of_accepted hclean hacc).1
    fun d hd ↦ absurd hd List.not_mem_nil
  obtain ⟨S, hS⟩ := exists_setting hclean hacc hcode hsize haddr
  obtain ⟨main, hmain, hat, -⟩ := hS.main
  have htop : S.image.top = t.options.memorySize := by rw [hS.image]
  have hshows := hS.shows hpos none
  have hruns := S.bare (S.calls_run 0 fuel) hS.accepted hmain hat (by omega) (Nat.zero_le fuel)
  rw [hname.cells_eq, Image.Runs] at hruns
  rcases hname.eval_plain {} with ⟨v, σ, heval, hnext⟩ | ⟨σ, heval, hnext⟩
  · have heval' : (Program.bare e).eval fuel {} = .ok v σ := heval
    have hnext : σ.next = 0 := hnext
    rw [heval] at hruns
    have hleads := hruns.imp (R := fun d ↦ ∃ st, st = [] ∧ S.image.Stops v st σ d)
      fun d hd ↦ ⟨[], rfl, hd⟩
    obtain ⟨k, o, hk, ho⟩ := hleads.stops hS.sized hshows
    refine ⟨o, ends_of_run hcode hm hlimit hk, ?_⟩
    rw [heval']
    rcases ho with ⟨⟨steps, hresult⟩, ⟨_, rfl, hstack⟩, hprinted⟩ | ⟨hfull, hcollides⟩
    · exact .inl ⟨⟨steps, hnext ▸ hresult⟩, hstack, hprinted⟩
    · exact .inr ⟨by omega, hcollides⟩
  · have heval' : (Program.bare e).eval fuel {} = .error .divisionByZero σ := heval
    have hnext : σ.next = 0 := hnext
    rw [heval] at hruns
    rcases hruns.halts hS.sized hshows with ⟨k, o, hk, ho⟩ | ⟨hfuel, -⟩
    · refine ⟨o, ends_of_run hcode hm hlimit hk, ?_⟩
      rw [heval']
      exact ho.imp_right fun h ↦ ⟨by have hfull := h.1; omega, h.2⟩
    · cases hfuel

/-- Two tests of `true` and a printed quotient, on a machine with one cell more than is needed. -/
theorem quotient_ends :
    let e : Expr := .cond ⟨6, 1⟩ (.logic ⟨2, 1⟩ .and (.bool ⟨0, 1⟩ true) (.bool ⟨1, 1⟩ true))
      (.print ⟨5, 1⟩ (.arith ⟨4, 1⟩ .div (.int ⟨3, 1⟩ (-7)) (.int ⟨7, 1⟩ 2))) (.int ⟨8, 1⟩ 0)
    ∃ o, ({ options := { memorySize := 10 } } : Toolchain).Ends (.bare e) o ∧
      (∃ steps, o.result = .ok ⟨steps, 0⟩) ∧ o.final.stack = [-3] ∧ o.final.Printed [-3] := by
  intro e
  have hclean : (({ options := { memorySize := 10 } } : Toolchain).analyze
      (.bare e)).counts.isClean = true := by decide +kernel
  obtain ⟨σ, heval, hprinted⟩ : ∃ σ, (Program.bare e).eval 0 {} = .ok (-3) σ ∧
      σ.printed = [-3] := ⟨_, rfl, rfl⟩
  obtain ⟨o, ho, hagrees⟩ := ends_bare (e := e) hclean rfl rfl
    (fun c ↦ codeSize_bare_lt hclean (by decide)) 0
  rw [heval] at hagrees
  rcases hagrees with ⟨hresult, hstack, hlines⟩ | ⟨hfull, -⟩
  · exact ⟨o, ho, hresult, hstack, hprinted ▸ hlines⟩
  · exact absurd hfull (by decide)

end Toolchain

end ObjectLet
