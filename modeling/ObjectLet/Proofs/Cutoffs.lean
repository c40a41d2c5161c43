import ObjectLet.Proofs.Records
import ObjectLet.Proofs.Sessions

/-!
# Runs that are cut off

A run can be cut off in two ways: by a limit on the number of instructions, and by an output
that accepts only so many lines.  Neither changes what comes before.  The limit is checked only
when there is another instruction, so a run that needs exactly as many instructions as allowed
still ends by itself; and a line is refused only when it is written, after the value has been
taken off the stack.

* `State.courseAfter_limited`, `State.limit_exceeded`: **a limit on the number of instructions.**
* `State.courseAfter_capped`, `State.output_closed`: **a limit on the number of lines.**
* `Machine.cutoffs_truncate`: both of them for the runs of a machine.
-/

set_option autoImplicit false

namespace ObjectLet

namespace State

/-! ## A limit on the number of instructions -/

section Limit

variable {s t : State} {limit : Option Nat} {code : Array Int32} {word : Int32} {l k : Nat}

/-- A limit does not matter to a turn that does not go beyond it. -/
theorem turn_limited (h : (s.turn none code).course.state.steps ≤ l) :
    (s.turn (some l) code).course = (s.turn none code).course := by
  cases hword : code[s.ip]? with
  | none => simp only [turn, hword]
  | some word =>
    rw [course_turn hword rfl, steps_ofResult] at h
    have hlimit : limitReached? (some l) s.steps = none := by
      simp only [limitReached?, Option.filter_eq_none_iff, decide_eq_true_eq]
      rintro _ ⟨⟩
      omega
    rw [course_turn hword hlimit, course_turn hword rfl]

/-- With the limit reached no other instruction is executed. -/
theorem turn_exceeded (hword : code[s.ip]? = some word) (h : l ≤ s.steps) :
    (s.turn (some l) code).course = .faulted (.stepLimitExceeded l) s := by
  have hlimit : limitReached? (some l) s.steps = some l := by
    rw [limitReached?, Option.filter_some, if_pos (decide_eq_true h)]
  simp only [turn, hword, hlimit]
  rfl

theorem steps_le_succ (limit : Option Nat) (code : Array Int32) (k : Nat) (s : State) :
    (s.courseAfter limit code k).state.steps ≤ (s.courseAfter limit code (k + 1)).state.steps := by
  rw [courseAfter_succ]
  cases s.courseAfter limit code k with
  | running u =>
    show u.steps ≤ (u.turn limit code).course.state.steps
    rcases steps_turn limit code u with hsteps | ⟨hstate, -⟩
    · omega
    · exact Nat.le_of_eq (congrArg steps hstate).symm
  | finished u | faulted f u => exact Nat.le_refl _

theorem steps_courseAfter_le (limit : Option Nat) (code : Array Int32) (k : Nat) (s : State) :
    (s.courseAfter limit code k).state.steps ≤ s.steps + k := by
  induction k with
  | zero => exact Nat.le_refl _
  | succ k ih =>
    rw [courseAfter_succ]
    generalize s.courseAfter limit code k = c at ih
    cases c with
    | running u =>
      have hu : u.steps ≤ s.steps + k := ih
      show (u.turn limit code).course.state.steps ≤ s.steps + (k + 1)
      rcases steps_turn limit code u with hsteps | ⟨hstate, -⟩
      · omega
      · rw [hstate]
        omega
    | finished u | faulted f u => exact Nat.le_succ_of_le ih

/-- **A limit does not matter to a run that does not go beyond it.** It is looked at before each
instruction, and never reached. -/
theorem courseAfter_limited (h : (s.courseAfter none code k).state.steps ≤ l) :
    s.courseAfter (some l) code k = s.courseAfter none code k := by
  induction k with
  | zero => rfl
  | succ k ih =>
    have hk := ih (Nat.le_trans (steps_le_succ none code k s) h)
    rw [courseAfter_succ] at h
    rw [courseAfter_succ, courseAfter_succ, hk]
    generalize s.courseAfter none code k = c at h
    cases c with
    | running u => exact turn_limited h
    | finished u | faulted f u => rfl

/-- **A run that would go beyond the limit is cut off there**, in the state that it has reached with
as many instructions as are allowed. -/
theorem limit_exceeded (hstart : s.steps = 0)
    (hlong : ∀ k o, (s.courseAfter none code k).outcome? = some o → l < o.final.steps) :
    ∃ t, s.courseAfter none code l = .running t ∧ t.steps = l ∧
      s.courseAfter (some l) code (l + 1) = .faulted (.stepLimitExceeded l) t := by
  have hle := steps_courseAfter_le none code l s
  rw [hstart, Nat.zero_add] at hle
  have hlimited := courseAfter_limited hle
  cases hc : s.courseAfter none code l with
  | running t =>
    have ht : t.steps = l := by rw [steps_courseAfter hc, hstart, Nat.zero_add]
    refine ⟨t, rfl, ht, ?_⟩
    rw [courseAfter_succ, hlimited, hc]
    cases hword : code[t.ip]? with
    | some word => exact turn_exceeded hword (Nat.le_of_eq ht.symm)
    | none =>
      -- the run would end here by itself
      have hfinished : (s.courseAfter none code (l + 1)).outcome?
          = some ⟨.ok ⟨t.steps, t.heapCells⟩, t⟩ := by
        rw [courseAfter_succ, hc]
        simp only [Course.next, turn, hword]
        rfl
      exact absurd ht (Nat.ne_of_gt (hlong _ _ hfinished))
  | finished t | faulted f t =>
    rw [hc] at hle
    exact absurd hle (Nat.not_le_of_lt (hlong l _ (by rw [hc]; rfl)))

end Limit

/-! ## A limit on the number of lines -/

section Capacity

variable {s u : State} {limit : Option Nat} {code : Array Int32} {word : Int32} {n j k : Nat}

/-- A state with an output that accepts `n` lines in all. -/
def capped (n : Nat) (s : State) : State :=
  s.withRecord s.steps { s.output with capacity := some n }

/-- The next instruction is a `print`, and it may be executed.  Whether there is room for its line
is another question. -/
structure Prints (limit : Option Nat) (code : Array Int32) (s : State) : Prop where
  /-- There is a `print` at the counter. -/
  word : code[s.ip]? = some (Opcode.plain .print).word
  /-- The limit on the number of instructions is not reached. -/
  limit : limitReached? limit s.steps = none

/-- Another line, for an output that accepts any number of lines. -/
theorem write?_of_capacity (hcap : s.output.capacity = none) (l : Line) :
    s.output.write? l = some { s.output with lines := s.output.lines.push l } := by
  have hroom : s.output.hasRoom = true := by rw [Output.hasRoom, hcap]
  rw [Output.write?, if_pos hroom]

/-- Another line, for an output that accepts `n` lines. -/
theorem write?_capped (n : Nat) (s : State) (l : Line) :
    (s.capped n).output.write? l =
      if s.output.lines.size < n then some ⟨s.output.lines.push l, some n⟩ else none := by
  show (if decide (s.output.lines.size < n) = true then _ else none) = _
  simp only [decide_eq_true_eq]
  rfl

theorem clash?_capped (n : Nat) (s : State) : (s.capped n).clash? = s.clash? := rfl

/-- An instruction does the same with an output of limited size, as long as there is room. -/
theorem execute_capped (code : Array Int32) (hcap : s.output.capacity = none)
    (hroom : Opcode.ofWord? word = some (.plain .print) → s.output.lines.size < n) :
    Follows (fun t u ↦ t = u.capped n) Eq (Exec.execute code word (s.capped n))
      (Exec.execute code word s) := by
  by_cases hword : Opcode.ofWord? word = some (.plain .print)
  · rw [Exec.execute_print hword, Exec.execute_print hword, write?_of_capacity hcap, write?_capped,
      if_pos (hroom hword)]
    exact .ok rfl
  · have hblind := Exec.blind_execute code hword
    have hends := hblind.ends s
    have hsame := hblind s s.steps { s.output with capacity := some n }
    rw [← capped] at hsame
    generalize Exec.execute code word (s.capped n) = r at hsame ⊢
    generalize Exec.execute code word s = r' at hends hsame ⊢
    cases hsame with
    | @ok a t u h =>
      have hrecord : s.SameRecord u := hends
      refine .ok ?_
      rw [h, capped, hrecord.steps, hrecord.output]
    | @error f g t u hf h =>
      have hrecord : s.SameRecord u := hends
      refine .error hf ?_
      rw [h, capped, hrecord.steps, hrecord.output]

/-- What a `print` comes to, if there is room. -/
theorem course_of_prints (hcap : s.output.capacity = none) (h : s.Prints limit code) :
    (s.turn limit code).course = .ofResult clash? (.ok .next { s.pastPrint with
      steps := s.steps + 1
      output := { s.output with lines := s.output.lines.push s.shown } }) := by
  have hcap' : ({ s with steps := s.steps + 1 } : State).output.capacity = none := hcap
  rw [course_turn h.word h.limit, Exec.execute_print (Opcode.ofWord?_word _),
    write?_of_capacity hcap']
  rfl

/-- **A turn writes no line unless it is a `print`**, and then it writes one line and no more. -/
theorem output_turn (hcap : s.output.capacity = none) :
    (s.turn limit code).course.state.output = s.output ∨
      s.Prints limit code ∧ (s.turn limit code).course.state.output
        = { s.output with lines := s.output.lines.push s.shown } := by
  by_cases h : s.Prints limit code
  · refine .inr ⟨h, ?_⟩
    rw [course_of_prints hcap h, Course.ofResult]
    split <;> rfl
  · refine .inl ?_
    cases hword : code[s.ip]? with
    | none =>
      simp only [turn, hword]
      rfl
    | some word =>
      cases hlimit : limitReached? limit s.steps with
      | some l =>
        simp only [turn, hword, hlimit]
        rfl
      | none =>
        have hprint : Opcode.ofWord? word ≠ some (.plain .print) := by
          intro ho
          rw [← Opcode.ofWord?_eq_some_iff.1 ho] at hword
          exact h ⟨hword, hlimit⟩
        rw [course_turn hword hlimit]
        have hends := (Exec.blind_execute code hprint).ends { s with steps := s.steps + 1 }
        exact (hends.state clash?).output

/-- A turn does the same with an output of limited size, if that is not too small. -/
theorem turn_capped (hcap : s.output.capacity = none)
    (hn : (s.turn limit code).course.state.output.lines.size ≤ n) :
    ((s.capped n).turn limit code).course = (s.turn limit code).course.map (capped n) := by
  cases hword : code[s.ip]? with
  | none =>
    have hword' : code[(s.capped n).ip]? = none := hword
    simp only [turn, hword, hword']
    rfl
  | some word =>
    have hword' : code[(s.capped n).ip]? = some word := hword
    cases hlimit : limitReached? limit s.steps with
    | some l =>
      have hlimit' : limitReached? limit (s.capped n).steps = some l := hlimit
      simp only [turn, hword, hword', hlimit, hlimit']
      rfl
    | none =>
      have hroom : Opcode.ofWord? word = some (.plain .print) → s.output.lines.size < n := by
        intro ho
        rw [← Opcode.ofWord?_eq_some_iff.1 ho] at hword
        rw [course_of_prints hcap ⟨hword, hlimit⟩, Course.ofResult] at hn
        have hsize : (s.output.lines.push s.shown).size ≤ n := by split at hn <;> exact hn
        rwa [Array.size_push] at hsize
      have hcap' : ({ s with steps := s.steps + 1 } : State).output.capacity = none := hcap
      have hsame := execute_capped code hcap' hroom
      rw [course_turn hword hlimit, course_turn (s := s.capped n) hword' hlimit]
      refine (Follows.ofResult (fun t u htu ↦ ?_) hsame).eq_map
      rw [htu, clash?_capped]
      cases u.clash? with
      | none => exact .inr ⟨rfl, rfl⟩
      | some f => exact .inl ⟨f, f, rfl, rfl, rfl⟩

/-- **A line that is not accepted ends the run**, with everything else as it would be: the value has
been taken off the stack. -/
theorem turn_closed (hcap : s.output.capacity = none) (h : s.Prints limit code)
    (hn : s.output.lines.size = n) :
    ((s.capped n).turn limit code).course = .faulted .outputClosed
      { (s.turn limit code).course.state with output := (s.capped n).output } := by
  have hclosed : ∀ l, (s.capped n).output.write? l = none := fun l ↦
    (write?_capped n s l).trans (if_neg (Nat.not_lt_of_le (Nat.le_of_eq hn.symm)))
  rw [course_turn (s := s.capped n) h.word h.limit, Exec.execute_print (Opcode.ofWord?_word _),
    course_of_prints hcap h, hclosed]
  simp only [Course.ofResult]
  split <;> rfl

theorem capacity_courseAfter (limit : Option Nat) (code : Array Int32)
    (hcap : s.output.capacity = none) (k : Nat) :
    (s.courseAfter limit code k).state.output.capacity = none := by
  induction k with
  | zero => exact hcap
  | succ k ih =>
    rw [courseAfter_succ]
    generalize s.courseAfter limit code k = c at ih
    cases c with
    | running u =>
      show (u.turn limit code).course.state.output.capacity = none
      have hu : u.output.capacity = none := ih
      rcases output_turn hu with hsame | ⟨-, hline⟩
      · rw [hsame, hu]
      · rw [hline]
        exact hu
    | finished u | faulted f u => exact ih

/-- In the course of a run lines are written by `print` only, and one at a time. -/
theorem output_succ (limit : Option Nat) (code : Array Int32)
    (hcap : s.output.capacity = none) (k : Nat) :
    (s.courseAfter limit code (k + 1)).state.output = (s.courseAfter limit code k).state.output ∨
      ∃ u, s.courseAfter limit code k = .running u ∧ u.Prints limit code ∧
        (s.courseAfter limit code (k + 1)).state.output
          = { u.output with lines := u.output.lines.push u.shown } := by
  have hk := capacity_courseAfter limit code hcap k
  rw [courseAfter_succ]
  generalize s.courseAfter limit code k = c at hk
  cases c with
  | running u =>
    rcases output_turn hk with hsame | ⟨hprints, hline⟩
    · exact .inl hsame
    · exact .inr ⟨u, rfl, hprints, hline⟩
  | finished u | faulted f u => exact .inl rfl

/-- What has been written stays, and more is only ever written after it. -/
theorem lines_grow (limit : Option Nat) (code : Array Int32)
    (hcap : s.output.capacity = none) (hjk : j ≤ k) :
    (s.courseAfter limit code j).state.output.lines.toList
      <+: (s.courseAfter limit code k).state.output.lines.toList := by
  induction hjk with
  | refl => exact List.prefix_rfl
  | @step k _ ih =>
    refine ih.trans ?_
    rcases output_succ limit code hcap k with hsame | ⟨u, hu, -, hline⟩
    · exact hsame ▸ List.prefix_rfl
    · rw [hline, hu, Array.toList_push]
      exact List.prefix_append _ _

theorem size_lines_le (hcap : s.output.capacity = none) (hjk : j ≤ k) :
    (s.courseAfter limit code j).state.output.lines.size
      ≤ (s.courseAfter limit code k).state.output.lines.size := by
  simpa using (lines_grow limit code hcap hjk).length_le

/-- **A limit does not matter to a run that does not write more lines.** It stays the same but for
the limit itself. -/
theorem courseAfter_capped (hcap : s.output.capacity = none)
    (hn : (s.courseAfter limit code k).state.output.lines.size ≤ n) :
    (s.capped n).courseAfter limit code k = (s.courseAfter limit code k).map (capped n) := by
  induction k with
  | zero => rfl
  | succ k ih =>
    have hk := ih (Nat.le_trans (size_lines_le hcap (Nat.le_succ k)) hn)
    have hcapk := capacity_courseAfter limit code hcap k
    rw [courseAfter_succ] at hn
    rw [courseAfter_succ, courseAfter_succ, hk]
    generalize s.courseAfter limit code k = c at hn hcapk
    cases c with
    | running u => exact turn_capped hcapk hn
    | finished u | faulted f u => rfl

/-- **A run that would write more lines is cut off at the first one too many.** Up to there it is
the same, and what it has written is the beginning of what it would have written. -/
theorem output_closed (hcap : s.output.capacity = none) (hstart : s.output.lines.size ≤ n)
    (hn : n < (s.courseAfter limit code k).state.output.lines.size) :
    ∃ j < k, ∃ u, s.courseAfter limit code j = .running u ∧ u.Prints limit code ∧
      u.output.lines.size = n ∧
      u.output.lines.toList = (s.courseAfter limit code k).state.output.lines.toList.take n ∧
      (s.capped n).courseAfter limit code (j + 1) = .faulted .outputClosed
        { (s.courseAfter limit code (j + 1)).state with output := (u.capped n).output } := by
  induction k with
  | zero => exact absurd hn (Nat.not_lt_of_le hstart)
  | succ k ih =>
    have hprefix := lines_grow limit code hcap (Nat.le_succ k)
    rcases Nat.lt_or_ge n (s.courseAfter limit code k).state.output.lines.size with hlt | hle
    · obtain ⟨j, hj, u, hu, hprints, hsize, htake, hclosed⟩ := ih hlt
      refine ⟨j, Nat.lt_succ_of_lt hj, u, hu, hprints, hsize, ?_, hclosed⟩
      obtain ⟨more, hmore⟩ := hprefix
      have hlen : n ≤ (s.courseAfter limit code k).state.output.lines.toList.length := by
        rw [Array.length_toList]
        exact Nat.le_of_lt hlt
      rw [← hmore, List.take_append_of_le_length hlen, htake]
    · -- the last turn has written the line
      rcases output_succ limit code hcap k with hsame | ⟨u, hu, hprints, hline⟩
      · rw [hsame] at hn
        exact absurd hn (Nat.not_lt_of_le hle)
      · have hcapu : u.output.capacity = none := by
          have := capacity_courseAfter limit code hcap k
          rwa [hu] at this
        have hle' : u.output.lines.size ≤ n := by rwa [hu] at hle
        have hsize : u.output.lines.size = n := by
          rw [hline, Array.size_push] at hn
          omega
        refine ⟨k, Nat.lt_succ_self k, u, hu, hprints, hsize, ?_, ?_⟩
        · rw [hline, Array.toList_push, ← hsize, ← Array.length_toList, List.take_left]
        · rw [courseAfter_succ, courseAfter_capped hcap hle, courseAfter_succ, hu]
          exact turn_closed hcapu hprints hsize

end Capacity

end State

/-! ## Runs of a machine -/

theorem Course.state_of_outcome? {c : Course State Fault} {o : Outcome} (h : c.outcome? = some o) :
    c.state = o.final := by
  cases c with
  | running s => cases h
  | finished s | faulted f s =>
    cases h
    rfl

theorem Course.outcome?_capped (n : Nat) (c : Course State Fault) :
    (c.map (State.capped n)).outcome? = c.outcome?.map fun o ↦ ⟨o.result, o.final.capped n⟩ := by
  cases c <;> rfl

namespace Machine

/-- A machine with another limit on the number of instructions. -/
def withLimit (m : Machine) (limit : Option Nat) : Machine :=
  { m with options := { m.options with maxSteps := limit } }

/-- A machine with an output that accepts `n` lines in all. -/
def capped (n : Nat) (m : Machine) : Machine := { m with state := m.state.capped n }

/-- How a machine with another limit ends. -/
theorem execute_withLimit (m : Machine) (limit : Option Nat) (b : Bytecode) (output : Output)
    (fuel : Nat) :
    (m.withLimit limit).execute b output fuel =
      ((m.state.reset output).courseAfter limit b.code fuel).outcome?.map fun o ↦
        (o.result, { m.withLimit limit with state := o.final }) :=
  execute_eq _ _ _ _

theorem courseAfter_capped {m : Machine} {b : Bytecode} {n k : Nat}
    (hk : (m.courseAfter b {} k).state.output.lines.size ≤ n) :
    m.courseAfter b { capacity := some n } k = (m.courseAfter b {} k).map (State.capped n) :=
  State.courseAfter_capped (s := m.state.reset {}) rfl hk

/-- **Cutting a run off does not change what comes before**, for any code and any machine.

A run that ends after at most `l` instructions ends in the same way if it may execute no more than
`l`; otherwise it is cut off when it has executed `l`, in the state in which it is then.  While a
run goes on, the number of instructions is that of its turns.

If a run writes at most `n` lines, it is the same with an output that accepts no more than `n`;
otherwise it ends at the `print` that would write the next one, when the first `n` lines have been
written, and all else in the last state is as it would be. -/
theorem cutoffs_truncate (m : Machine) (b : Bytecode) :
    (∀ output l,
      (∀ k s, (m.withLimit none).courseAfter b output k = .running s → s.steps = k) ∧
        (∀ fuel r m', (m.withLimit none).execute b output fuel = some (r, m') → m'.state.steps ≤ l →
          (m.withLimit (some l)).execute b output fuel = some (r, m'.withLimit (some l))) ∧
        ((∀ fuel r m', (m.withLimit none).execute b output fuel = some (r, m') →
            l < m'.state.steps) →
          ∃ s, (m.withLimit none).courseAfter b output l = .running s ∧ s.steps = l ∧
            (m.withLimit (some l)).execute b output (l + 1) =
              some (.error (.stepLimitExceeded l), { m.withLimit (some l) with state := s }))) ∧
      ∀ n,
        (∀ k, (m.courseAfter b {} k).state.output.lines.size ≤ n →
          m.courseAfter b { capacity := some n } k = (m.courseAfter b {} k).map (State.capped n)) ∧
        (∀ fuel r m', m.execute b {} fuel = some (r, m') → m'.state.output.lines.size ≤ n →
          m.execute b { capacity := some n } fuel = some (r, m'.capped n)) ∧
        ∀ k, n < (m.courseAfter b {} k).state.output.lines.size →
          ∃ j < k, ∃ s, m.courseAfter b {} j = .running s ∧
            (∀ i ≤ j, m.courseAfter b { capacity := some n } i
              = (m.courseAfter b {} i).map (State.capped n)) ∧
            s.Prints m.options.maxSteps b.code ∧ s.output.lines.size = n ∧
            s.output.lines.toList = (m.courseAfter b {} k).state.output.lines.toList.take n ∧
            m.execute b { capacity := some n } (j + 1) = some (.error .outputClosed, { m with
              state := { (m.courseAfter b {} (j + 1)).state with
                output := (s.capped n).output } }) := by
  refine ⟨fun output l ↦ ⟨fun k s hs ↦ ?_, fun fuel r m' hrun hle ↦ ?_, fun hlong ↦ ?_⟩,
    fun n ↦ ⟨fun k ↦ courseAfter_capped, fun fuel r m' hrun hle ↦ ?_, fun k hk ↦ ?_⟩⟩
  · exact (State.steps_courseAfter hs).trans (Nat.zero_add k)
  · rw [execute_withLimit] at hrun ⊢
    obtain ⟨o, ho, heq⟩ := Option.map_eq_some_iff.1 hrun
    cases heq
    have hsteps : ((m.state.reset output).courseAfter none b.code fuel).state.steps ≤ l := by
      rw [Course.state_of_outcome? ho]
      exact hle
    rw [State.courseAfter_limited hsteps, ho]
    rfl
  · have hlong' : ∀ k o, ((m.state.reset output).courseAfter none b.code k).outcome? = some o →
        l < o.final.steps := by
      intro k o ho
      exact hlong k _ { m.withLimit none with state := o.final } (by
        rw [execute_withLimit, ho]
        rfl)
    obtain ⟨s, hs, hsteps, hend⟩ := State.limit_exceeded rfl hlong'
    exact ⟨s, hs, hsteps, by rw [execute_withLimit, hend]; rfl⟩
  · rw [execute_eq] at hrun ⊢
    obtain ⟨o, ho, heq⟩ := Option.map_eq_some_iff.1 hrun
    cases heq
    have hlines : (m.courseAfter b {} fuel).state.output.lines.size ≤ n := by
      rw [Course.state_of_outcome? ho]
      exact hle
    rw [courseAfter_capped hlines, Course.outcome?_capped, ho]
    rfl
  · obtain ⟨j, hj, s, hs, hprints, hsize, htake, hclosed⟩ :=
      State.output_closed (s := m.state.reset {}) rfl (Nat.zero_le n) hk
    have hbefore : ∀ i ≤ j, (m.courseAfter b {} i).state.output.lines.size ≤ n := by
      intro i hi
      refine Nat.le_trans (State.size_lines_le (s := m.state.reset {}) rfl hi) ?_
      rw [hs]
      exact Nat.le_of_eq hsize
    have hend : m.courseAfter b { capacity := some n } (j + 1) = .faulted .outputClosed
        { (m.courseAfter b {} (j + 1)).state with output := (s.capped n).output } := hclosed
    refine ⟨j, hj, s, hs, fun i hi ↦ courseAfter_capped (hbefore i hi), hprints, hsize, htake, ?_⟩
    rw [execute_eq, hend]
    rfl

end Machine

namespace Countdown

/-- Two cells. -/
def machine : Machine := ⟨{ memorySize := 2 }, .boot 2 {}⟩

/-- Writes 2, 1 and the line for an empty stack, and stops: six instructions. -/
def counting : Bytecode := ⟨#[1, 2, 22, 1, 1, 22, 22, 23]⟩

/-- However many turns it is given, it executes six instructions. -/
theorem steps_counting {fuel : Nat} {r : Except Fault Stats} {m : Machine}
    (h : (machine.withLimit none).execute counting {} fuel = some (r, m)) : m.state.steps = 6 := by
  have hsix : ((machine.state.reset {}).run none counting.code 6).map (fun o ↦ o.final.steps)
      = some 6 := by decide +kernel
  obtain ⟨o, ho, heq⟩ := Option.map_eq_some_iff.1 h
  obtain ⟨o', ho', hsteps⟩ := Option.map_eq_some_iff.1 hsix
  cases heq
  have hrun : (machine.state.reset {}).run none counting.code fuel = some o := ho
  have hsame := State.run_mono hrun (Nat.le_add_right fuel 6)
  rw [State.run_mono ho' (Nat.le_add_left 6 fuel)] at hsame
  cases hsame
  exact hsteps

/-- Six instructions are enough and five are too few, three lines are enough and one is too few. -/
theorem counting_truncated :
    ∃ m, (machine.withLimit none).execute counting {} 6 = some (.ok ⟨6, 0⟩, m) ∧
      m.state.steps ≤ 6 ∧ m.state.output.lines.size ≤ 3 ∧
      (machine.withLimit (some 6)).execute counting {} 6 = some (.ok ⟨6, 0⟩, m.withLimit (some 6)) ∧
      (∀ fuel r m', (machine.withLimit none).execute counting {} fuel = some (r, m') →
        5 < m'.state.steps) ∧
      (∃ s, (machine.withLimit (some 5)).execute counting {} 6
          = some (.error (.stepLimitExceeded 5), s) ∧ s.state.steps = 5) ∧
      1 < (machine.courseAfter counting {} 6).state.output.lines.size ∧
      ∃ j < 6, ∃ s, machine.execute counting { capacity := some 1 } (j + 1)
          = some (.error .outputClosed, s) ∧ s.state.output.lines.toList = [.value 2] := by
  obtain ⟨hlimit, hcapacity⟩ := Machine.cutoffs_truncate machine counting
  obtain ⟨-, henough, -⟩ := hlimit {} 6
  obtain ⟨-, -, hfew⟩ := hlimit {} 5
  have hend : ((machine.withLimit none).execute counting {} 6).map
      (fun r ↦ (r.1, r.2.state.steps, r.2.state.output.lines.size)) = some (.ok ⟨6, 0⟩, 6, 3) := by
    decide +kernel
  obtain ⟨⟨r, m⟩, hrun, heq⟩ := Option.map_eq_some_iff.1 hend
  simp only [Prod.mk.injEq] at heq
  obtain ⟨rfl, hsteps, hlines⟩ := heq
  have hlong : ∀ fuel r m', (machine.withLimit none).execute counting {} fuel = some (r, m') →
      5 < m'.state.steps := fun fuel r m' h ↦ by rw [steps_counting h]; decide
  have hmany : 1 < (machine.courseAfter counting {} 6).state.output.lines.size := by decide +kernel
  obtain ⟨s, -, hfive, hcut⟩ := hfew hlong
  obtain ⟨j, hj, t, -, -, -, -, htake, hclosed⟩ := (hcapacity 1).2.2 6 hmany
  have hfirst : (machine.courseAfter counting {} 6).state.output.lines.toList.take 1
      = [.value 2] := by decide +kernel
  refine ⟨m, hrun, by omega, by omega, henough 6 _ m hrun (by omega), hlong, ⟨_, hcut, hfive⟩,
    hmany, j, hj, _, hclosed, ?_⟩
  exact htake.trans hfirst

end Countdown

end ObjectLet
