import ObjectLet.Proofs.Runs

/-!
# How runs end

Where the machine leads is known up to the instruction that ends its run: a `halt`, a division by
zero or a load at a negative address.  What that last turn comes to is said here, and compared with
the result of the evaluator.

* `Outcome.Agrees`: **a run ends as the evaluation does**.
* `Turn.Safe`: **a turn of the machine does not go wrong**, whether it is the last one or not.
-/

set_option autoImplicit false

namespace ObjectLet

/-! ## What is seen of a state -/

/-- The values on the stack, topmost first. -/
def State.stack (s : State) : List Int32 :=
  (List.range' s.sp (s.memory.size - s.sp)).map s.memory.get

/-- These values and nothing else have been printed, each on its line. -/
def State.Printed (s : State) (vs : List Int32) : Prop := s.output.lines.toList = vs.map .value

namespace Image

variable {m : Image} {capacity : Option Nat} {s : State} {c : Config}

theorem Shows.stack_eq (h : m.Shows capacity s c) : s.stack = c.stack := by
  have hsp := h.sp
  have hsize := h.size
  have hlen : s.memory.size - s.sp = c.stack.length := by omega
  refine List.ext_getElem? fun i ↦ ?_
  rw [State.stack, List.getElem?_map, hlen]
  by_cases hi : i < c.stack.length
  · rw [List.getElem?_range' hi, List.getElem?_eq_getElem hi, Option.map_some, Nat.one_mul]
    exact congrArg some (h.stack i _ (List.getElem?_eq_getElem hi))
  · rw [List.getElem?_eq_none (by simpa using hi), List.getElem?_eq_none (by simpa using hi)]
    rfl

/-- A new machine looks like a configuration in which nothing has been done. -/
theorem shows_boot (m : Image) (capacity : Option Nat) {c : Config} (htop : 0 < m.top)
    (hip : c.ip = 0) (hstack : c.stack = []) (hheap : c.heap = []) (hhp : c.hp = 0)
    (hfp : c.fp = Int32.ofNat m.top) (hra : c.ra = 0) (htm : c.tm = 0) (hsteps : c.steps = 0)
    (hprinted : c.printed = []) : m.Shows capacity (.boot m.top { capacity }) c where
  size := rfl
  ip := hip.symm
  sp := by rw [hstack]; rfl
  hp := by rw [hhp]; rfl
  fp := hfp.symm
  ra := hra.symm
  tm := htm.symm
  steps := hsteps.symm
  fits := by rw [Config.use, hstack, hhp]; exact htop
  pending := .inl (by rw [hheap, hhp]; rfl)
  stack := by rw [hstack]; intro i v h; cases h
  heap := by rw [hheap]; intro i v h; cases h
  lines := by rw [hprinted]; rfl
  capacity := rfl

end Image

/-! ## New machines -/

/-- A machine that can be made has enough memory, and all of it is free. -/
theorem Machine.new_eq_ok_iff {o : Options} {m : Machine} :
    Machine.new o = .ok m ↔
      (2 ≤ o.memorySize ∧ o.memorySize ≤ 2147483647) ∧ m = ⟨o, .boot o.memorySize {}⟩ := by
  rw [Machine.new]
  split
  · rename_i h
    exact ⟨fun hm ↦ ⟨h, (Except.ok.inj hm).symm⟩, fun hm ↦ by rw [hm.2]⟩
  · rename_i h
    exact ⟨nofun, fun hm ↦ absurd hm.1 h⟩

/-! ## Ends of runs -/

/-- The end of a run, if this turn ends it. -/
def Turn.outcome? : Turn → Option Outcome
  | .running _ => none
  | .finished s => some ⟨.ok ⟨s.steps, s.heapCells⟩, s⟩
  | .faulted f s => some ⟨.error f, s⟩

theorem State.run_of_outcome {s : State} {limit : Option Nat} {code : Array Int32} {o : Outcome}
    (h : (s.turn limit code).outcome? = some o) : s.run limit code 1 = some o := by
  rw [State.run]
  cases hs : s.turn limit code with
  | running t =>
    rw [hs] at h
    cases h
  | finished t =>
    rw [hs] at h
    exact h
  | faulted f t =>
    rw [hs] at h
    exact h

/-- A run that has an end gets to a turn that ends it. -/
theorem State.after_of_run {s : State} {limit : Option Nat} {code : Array Int32} {fuel : Nat}
    {o : Outcome} (h : s.run limit code fuel = some o) :
    ∃ k t, s.after limit code k = some t ∧ (t.turn limit code).outcome? = some o := by
  induction fuel generalizing s with
  | zero => cases h
  | succ fuel ih =>
    rw [State.run] at h
    cases hs : s.turn limit code with
    | running t =>
      rw [hs] at h
      obtain ⟨k, u, hk, hu⟩ := ih h
      exact ⟨k + 1, u, by rw [State.after, hs]; exact hk, hu⟩
    | finished t =>
      rw [hs] at h
      exact ⟨0, s, rfl, by rw [hs]; exact h⟩
    | faulted f t =>
      rw [hs] at h
      exact ⟨0, s, rfl, by rw [hs]; exact h⟩

/-- The store in the end, whether there is a value or not. -/
def storeOf : EStateM.Result Interrupt Store Int32 → Store
  | .ok _ σ | .error _ σ => σ

/-- A run ends as the evaluation of the program does: with its value on top of the stack and as much
in use of the heap, or with a fault for the same reason; and the same has been printed. -/
def Outcome.Agrees (o : Outcome) : EStateM.Result Interrupt Store Int32 → Prop
  | .ok v σ => (∃ steps, o.result = .ok ⟨steps, σ.next⟩) ∧ o.final.stack.head? = some v ∧
      o.final.Printed σ.printed
  | .error .divisionByZero σ => (∃ ip, o.result = .error (.divisionByZero ip)) ∧
      o.final.Printed σ.printed
  | .error .nullAccess σ => (∃ a ip, a < 0 ∧ o.result = .error (.invalidAddress a ip)) ∧
      o.final.Printed σ.printed
  | .error .outOfFuel _ | .error .stuck _ => False

/-- A run ends because stack and heap have met, and only the beginning of `vs` has been printed. -/
def Outcome.Collides (o : Outcome) (vs : List Int32) : Prop :=
  (∃ sp hp, o.result = .error (.collision sp hp)) ∧ ∃ ws, ws <+: vs ∧ o.final.Printed ws

/-! ## The last turn -/

namespace Image

/-- The machine is about to stop with a value on the stack, above some others.  The run ends with
the turn that comes next. -/
structure Stops (m : Image) (v : Int32) (st : List Int32) (τ : Store) (d : Config) : Prop where
  /-- It is at a `halt`. -/
  halt : CodeAt m.prog d.ip [.plain .halt]
  /-- The value is on the stack. -/
  stack : d.stack = v :: st
  /-- The heap is as large as the evaluator says. -/
  next : d.hp = τ.next
  /-- The same has been printed. -/
  printed : d.printed = τ.printed

variable {m : Image} {capacity limit : Option Nat} {s : State} {c d : Config} {b : Bytecode}
  {rest : List Instr} {op : Operation} {v a : Int32} {st : List Int32} {n : Nat} {τ : Store}
  {e : Interrupt}

/-- A turn that executes an operation, unless no more instructions may be executed. -/
theorem Shows.turn_eq (h : m.Shows capacity s c) (hb : assemble m.prog = .ok b)
    (hat : CodeAt m.prog c.ip (.plain op :: rest)) (limit : Option Nat) :
    s.turn limit b.code =
      match limitReached? limit s.steps with
      | some l => .faulted (.stepLimitExceeded l) s
      | none =>
        match Exec.operation b.code s.ip op { s with steps := s.steps + 1, ip := s.ip + 1 } with
        | .ok .next t =>
          if (t.sp : Int) ≤ t.hp.toInt then .faulted (.collision t.sp t.hp) t else .running t
        | .ok .stop t => .finished t
        | .error f t => .faulted f t := by
  have hword : b.code[s.ip]? = some (Opcode.plain op).word := by
    rw [h.ip]
    exact Assembled.fetch hb hat 0 Nat.one_pos
  cases hl : limitReached? limit s.steps with
  | some l => simp only [State.turn, hword, hl]
  | none =>
    have hexec := execute_plain b.code op { s with steps := s.steps + 1 }
    simp only [State.turn, hword, hl]
    unfold State.perform
    cases hr : Exec.operation b.code s.ip op { s with steps := s.steps + 1, ip := s.ip + 1 } with
    | ok signal t => cases signal <;> simp only [hexec.trans hr]
    | error f t => simp only [hexec.trans hr]

/-- At a `halt` the machine stops.  The value of the program is on top of the stack by then. -/
theorem Shows.stops (h : m.Shows capacity s c) (hb : assemble m.prog = .ok b)
    (htop : m.top < 2 ^ 31) (hc : m.Stops v st τ c) (hl : limitReached? limit s.steps = none) :
    ∃ o, (s.turn limit b.code).outcome? = some o ∧ o.result = .ok ⟨s.steps + 1, τ.next⟩ ∧
      o.final.stack = v :: st ∧ o.final.Printed τ.printed ∧ s.Keeps o.final := by
  have hhp := h.toInt_hp htop
  have hlines := h.lines
  rw [hc.printed] at hlines
  refine ⟨⟨.ok ⟨s.steps + 1, s.heapCells⟩, { s with steps := s.steps + 1, ip := s.ip + 1 }⟩, ?_, ?_,
    h.stack_eq.trans hc.stack, hlines, .of_same rfl rfl⟩
  · rw [h.turn_eq hb hc.halt, hl]
    rfl
  · simp only [State.heapCells, hhp, Int.toNat_natCast, hc.next]

/-- A division by zero is a fault. -/
theorem Shows.divisionByZero (h : m.Shows capacity s c) (hb : assemble m.prog = .ok b)
    (hat : CodeAt m.prog c.ip (.plain .div :: rest)) (hs : c.stack = 0 :: v :: st)
    (hl : limitReached? limit s.steps = none) :
    ∃ t, s.turn limit b.code = .faulted (.divisionByZero s.ip) t ∧ t.output = s.output ∧
      s.Keeps t := by
  obtain ⟨hpop, h₁⟩ := (h.start (s.ip + 1)).pop_eq hs s.ip
  obtain ⟨hpop', -⟩ := h₁.pop_eq (Eq.refl (v :: st)) s.ip
  refine ⟨{ s with steps := s.steps + 1, ip := s.ip + 1, sp := s.sp + 1 + 1 }, ?_, rfl,
    .of_same rfl rfl⟩
  rw [h.turn_eq hb hat, hl]
  simp only [Exec.operation, Exec.binary, bind, EStateM.bind, hpop, hpop', divide, if_true]
  rfl

/-- A load at a negative address is a fault. -/
theorem Shows.invalidAddress (h : m.Shows capacity s c) (hb : assemble m.prog = .ok b)
    (hat : CodeAt m.prog c.ip (.plain .loadWord :: rest)) (hs : c.stack = a :: st) (ha : a < 0)
    (hl : limitReached? limit s.steps = none) :
    ∃ t, s.turn limit b.code = .faulted (.invalidAddress a s.ip) t ∧ t.output = s.output ∧
      s.Keeps t := by
  obtain ⟨hpop, -⟩ := (h.start (s.ip + 1)).pop_eq hs s.ip
  have hneg : a.toInt < 0 := Int32.lt_iff_toInt_lt.1 ha
  refine ⟨{ s with steps := s.steps + 1, ip := s.ip + 1, sp := s.sp + 1 }, ?_, rfl,
    .of_same rfl rfl⟩
  rw [h.turn_eq hb hat, hl]
  simp only [Exec.operation, bind, EStateM.bind, hpop, Exec.cell_apply]
  rw [if_neg (by omega)]

/-- **Where the evaluator is interrupted, the machine stops for the same reason.** If only the fuel
has run out, it would have had to go on for longer than it does. -/
theorem Shows.halts (h : m.Shows capacity s c) (hb : assemble m.prog = .ok b)
    (hc : m.Halts n e τ c) (hn : e = .outOfFuel → c.steps < n)
    (hl : limitReached? limit s.steps = none) :
    ∃ o, (s.turn limit b.code).outcome? = some o ∧ o.Agrees (.error e τ) ∧ s.Keeps o.final := by
  have hlines := h.lines
  rw [hc.printed] at hlines
  have hreason := hc.reason
  cases e with
  | divisionByZero =>
    obtain ⟨rest, v, st, hat, hs⟩ := hreason
    obtain ⟨t, ht, hout, hkeeps⟩ := h.divisionByZero hb hat hs hl
    exact ⟨⟨_, t⟩, by rw [ht]; rfl, ⟨⟨_, rfl⟩, by rw [State.Printed, hout]; exact hlines⟩, hkeeps⟩
  | nullAccess =>
    obtain ⟨rest, a, st, hat, hs, ha⟩ := hreason
    obtain ⟨t, ht, hout, hkeeps⟩ := h.invalidAddress hb hat hs ha hl
    exact ⟨⟨_, t⟩, by rw [ht]; rfl, ⟨⟨_, _, ha, rfl⟩, by rw [State.Printed, hout]; exact hlines⟩,
      hkeeps⟩
  | outOfFuel => exact absurd hreason (Nat.not_le_of_lt (hn rfl))
  | stuck => exact hreason.elim

/-! ### With enough steps and output -/

variable {printed : List Int32} {bound : Nat} {P : List Int32 → Prop} {o : Outcome}

theorem Collides.outcome (h : m.Collides printed bound o) :
    m.top ≤ bound ∧ o.Collides printed :=
  ⟨h.full, h.fault, h.lines⟩

/-- A machine that is led to a `halt` ends its run there, if it does not run out of memory. -/
theorem Leads.stops (h : m.Leads printed bound (fun d ↦ ∃ st, P st ∧ m.Stops v st τ d) c)
    (hm : m.Sized b) (hs : m.Shows none s c) :
    ∃ k o, s.run none b.code k = some o ∧
      (((∃ steps, o.result = .ok ⟨steps, τ.next⟩) ∧ (∃ st, P st ∧ o.final.stack = v :: st) ∧
          o.final.Printed τ.printed) ∨
        m.top ≤ bound ∧ o.Collides printed) := by
  rcases h.reaches hm hs with ⟨k, t, d, hafter, -, ht, st, hst, hd⟩ | ⟨k, o, hk, ho⟩
  · have hl : limitReached? none t.steps = none := rfl
    obtain ⟨o, hturn, hresult, hstack, hprinted, -⟩ := ht.stops hm.assembled hm.top hd hl
    refine ⟨1 + k, o, ?_, .inl ⟨⟨_, hresult⟩, ⟨st, hst, hstack⟩, hprinted⟩⟩
    rw [State.run_of_after hafter, State.run_of_outcome hturn]
  · exact ⟨k, o, hk, .inr ho.outcome⟩

/-- A machine that is led to where the evaluator is interrupted ends its run there, if it does not
run out of memory, or goes on for as long as one likes. -/
theorem Leads.halts (h : m.Leads printed bound (m.Halts n e τ) c) (hm : m.Sized b)
    (hs : m.Shows none s c) :
    (∃ k o, s.run none b.code k = some o ∧
      (o.Agrees (.error e τ) ∨ m.top ≤ bound ∧ o.Collides printed)) ∨
    e = .outOfFuel ∧ ∃ k t, n ≤ c.steps + k ∧ s.after none b.code k = some t := by
  rcases h.reaches hm hs with ⟨k, t, d, hafter, hsteps, ht, hd⟩ | ⟨k, o, hk, ho⟩
  · by_cases hfuel : e = .outOfFuel
    · subst hfuel
      exact .inr ⟨rfl, k, t, hsteps ▸ hd.reason, hafter⟩
    · have hl : limitReached? none t.steps = none := rfl
      obtain ⟨o, hturn, hagrees, -⟩ := ht.halts hm.assembled hd (fun h ↦ absurd h hfuel) hl
      refine .inl ⟨1 + k, o, ?_, .inl hagrees⟩
      rw [State.run_of_after hafter, State.run_of_outcome hturn]
  · exact .inl ⟨k, o, hk, .inr ho.outcome⟩

end Image

/-! ## Turns that do not go wrong -/

/-- A fault that is not the fault of the code.  An address may be below 0 if it was computed from
`null`, but not above the memory. -/
def Fault.Legitimate : Fault → Prop
  | .divisionByZero _ | .collision _ _ | .stepLimitExceeded _ | .outputClosed => True
  | .invalidAddress a _ => a < 0
  | .stackUnderflow _ | .invalidJump _ _ | .invalidOpcode _ _ | .truncatedInstruction _
  | .invalidMemorySize _ => False

/-- The state after a turn. -/
def Turn.state : Turn → State
  | .running s | .finished s | .faulted _ s => s

/-- A turn does not go wrong: the heap is only added to, an empty stack is never printed, and if
there is a fault, it is not due to the code. -/
structure Turn.Safe (s : State) (r : Turn) : Prop where
  /-- The heap is only added to. -/
  keeps : s.Keeps r.state
  /-- The top of the stack was never printed when there was none. -/
  lines : .emptyStack ∉ r.state.output.lines
  /-- The code has led to no fault. -/
  faults : ∀ f t, r = .faulted f t → f.Legitimate

theorem State.Printed.emptyStack_not_mem {s : State} {vs : List Int32} (h : s.Printed vs) :
    Line.emptyStack ∉ s.output.lines := by
  rw [← Array.mem_toList_iff, h]
  simp

namespace Image

variable {m : Image} {capacity limit : Option Nat} {s : State} {c d : Config}

theorem Turned.safe {r : Turn} (h : m.Shows capacity s c) (hr : m.Turned capacity limit s c d r) :
    r.Safe s := by
  cases hr with
  | running shows' keeps => exact ⟨keeps, State.Printed.emptyStack_not_mem shows'.lines, nofun⟩
  | collision full lines keeps =>
    refine ⟨keeps, State.Printed.emptyStack_not_mem lines, ?_⟩
    rintro _ _ ⟨⟩
    trivial
  | stopped limited =>
    refine ⟨.refl s, State.Printed.emptyStack_not_mem h.lines, ?_⟩
    rintro _ _ ⟨⟩
    trivial
  | closed limited lines keeps =>
    refine ⟨keeps, State.Printed.emptyStack_not_mem lines, ?_⟩
    rintro _ _ ⟨⟩
    trivial

end Image

/-- A run whose last turn does not go wrong. -/
theorem Turn.Safe.outcome {r : Turn} {s : State} {o : Outcome} (h : r.Safe s)
    (ho : r.outcome? = some o) :
    (∀ f, o.result = .error f → f.Legitimate) ∧ .emptyStack ∉ o.final.output.lines := by
  cases r with
  | running t => cases ho
  | finished t =>
    cases ho
    exact ⟨nofun, h.lines⟩
  | faulted f t =>
    cases ho
    refine ⟨?_, h.lines⟩
    rintro _ ⟨⟩
    exact h.faults f t rfl

/-- A turn that ends a run, if it is for a good reason. -/
theorem Turn.safe_of_outcome {r : Turn} {s : State} {o : Outcome} {vs : List Int32}
    (h : r.outcome? = some o) (hkeeps : s.Keeps o.final) (hlines : o.final.Printed vs)
    (hf : ∀ f, o.result = .error f → f.Legitimate) : r.Safe s := by
  cases r with
  | running t => cases h
  | finished t =>
    cases h
    exact ⟨hkeeps, hlines.emptyStack_not_mem, nofun⟩
  | faulted f t =>
    cases h
    refine ⟨hkeeps, hlines.emptyStack_not_mem, ?_⟩
    rintro _ _ ⟨⟩
    exact hf f rfl

/-- A turn in which no more instructions may be executed. -/
theorem Turn.safe_of_limit {s : State} {limit : Option Nat} {code : Array Int32} {l : Nat}
    {vs : List Int32} (hl : limitReached? limit s.steps = some l) (hlines : s.Printed vs) :
    (s.turn limit code).outcome?.isSome = true ∧ (s.turn limit code).Safe s := by
  rw [State.turn]
  cases code[s.ip]? with
  | none => exact ⟨rfl, .refl s, hlines.emptyStack_not_mem, by rintro _ _ ⟨⟩⟩
  | some word =>
    simp only [hl]
    refine ⟨rfl, .refl s, hlines.emptyStack_not_mem, ?_⟩
    rintro _ _ ⟨⟩
    trivial

/-- After the last turn there is no other one. -/
theorem State.after_eq_zero {s t : State} {limit : Option Nat} {code : Array Int32} {k : Nat}
    (h : (s.turn limit code).outcome?.isSome = true) (ht : s.after limit code k = some t) :
    k = 0 := by
  cases k with
  | zero => rfl
  | succ k =>
    rw [State.after] at ht
    cases hs : s.turn limit code with
    | running u =>
      rw [hs] at h
      cases h
    | finished u =>
      rw [hs] at ht
      cases ht
    | faulted f u =>
      rw [hs] at ht
      cases ht

theorem Outcome.Agrees.legitimate {o : Outcome} {e : Interrupt} {τ : Store}
    (h : o.Agrees (.error e τ)) :
    (∀ f, o.result = .error f → f.Legitimate) ∧ o.final.Printed τ.printed := by
  cases e with
  | divisionByZero =>
    obtain ⟨⟨ip, hip⟩, hprinted⟩ := h
    rw [hip]
    exact ⟨by rintro _ ⟨⟩; trivial, hprinted⟩
  | nullAccess =>
    obtain ⟨⟨a, ip, ha, hip⟩, hprinted⟩ := h
    rw [hip]
    exact ⟨by rintro _ ⟨⟩; exact ha, hprinted⟩
  | outOfFuel => exact h.elim
  | stuck => exact h.elim

namespace Image

variable {m : Image} {capacity limit : Option Nat} {s t : State} {c : Config} {b : Bytecode}
  {n bound k : Nat} {x : Eval Int32} {σ : Store}

/-- Where the machine is led to ends its run, and that turn does not go wrong. -/
theorem Shows.last (h : m.Shows capacity s c)
    (hend : limitReached? limit s.steps = none → ∃ o vs, (s.turn limit b.code).outcome? = some o ∧
      s.Keeps o.final ∧ o.final.Printed vs ∧ ∀ f, o.result = .error f → f.Legitimate)
    (ht : s.after limit b.code k = some t) : (t.turn limit b.code).Safe t := by
  have hlast : (s.turn limit b.code).outcome?.isSome = true ∧ (s.turn limit b.code).Safe s := by
    cases hl : limitReached? limit s.steps with
    | some l => exact Turn.safe_of_limit hl h.lines
    | none =>
      obtain ⟨o, vs, hturn, hkeeps, hprinted, hf⟩ := hend hl
      exact ⟨by rw [hturn]; rfl, Turn.safe_of_outcome hturn hkeeps hprinted hf⟩
  obtain rfl := State.after_eq_zero hlast.1 ht
  obtain rfl := Option.some.inj ht
  exact hlast.2

/-- **No turn of the machine goes wrong** on the way to where a computation leads it, even if it
never gets there. -/
theorem Runs.safe (h : m.Runs bound n x σ c fun v τ d ↦ ∃ st, m.Stops v st τ d) (hm : m.Sized b)
    (hs : m.Shows capacity s c) (hn : c.steps + k < n) (ht : s.after limit b.code k = some t) :
    (t.turn limit b.code).Safe t := by
  have follow : ∀ {printed : List Int32} {bound : Nat} {Q : Config → Prop},
      m.Leads printed bound Q c →
      (∀ d u, Q d → d.steps < n → m.Shows capacity u d → limitReached? limit u.steps = none →
        ∃ o vs, (u.turn limit b.code).outcome? = some o ∧ u.Keeps o.final ∧ o.final.Printed vs ∧
          ∀ f, o.result = .error f → f.Legitimate) →
      (t.turn limit b.code).Safe t := by
    intro printed bound Q hl hend
    rcases hl.follows hm hs ht with
      ⟨d, e, i, rest, ht', hat, hstep⟩ | ⟨j, u, d, hj, hsteps, hQ, hu, hafter⟩
    · exact (ht'.turn hm.top hm.assembled hm.code hat hstep limit).safe ht'
    · exact hu.last (hend d u hQ (by omega) hu) hafter
  rw [Runs] at h
  split at h
  · refine follow h fun d u hd _ hu hl ↦ ?_
    obtain ⟨st, hd⟩ := hd
    obtain ⟨o, hturn, hresult, -, hprinted, hkeeps⟩ := hu.stops hm.assembled hm.top hd hl
    exact ⟨o, _, hturn, hkeeps, hprinted, fun f hf ↦ by rw [hresult] at hf; cases hf⟩
  · refine follow h fun d u hd hlt hu hl ↦ ?_
    obtain ⟨o, hturn, hagrees, hkeeps⟩ := hu.halts hm.assembled hd (fun _ ↦ hlt) hl
    obtain ⟨hf, hprinted⟩ := hagrees.legitimate
    exact ⟨o, _, hturn, hkeeps, hprinted, hf⟩

end Image

end ObjectLet
