import ObjectLet.Proofs.Outcomes

/-!
# Two machines side by side

The machine can be compared with others that do the same in different ways: their states look
different, and so do their instructions, but one makes a turn of its loop whenever the other one
does.  This is not about what the machines do, so it is stated for any kind of states and of faults.

* `Course.after`: how far a run has got after some turns.
* `Course.tracks_after`: **if single turns correspond to each other, so do whole runs.**
* `Follows`: computations that correspond to each other, and `Follows.bind` for one after the other.
-/

set_option autoImplicit false

namespace ObjectLet

/-! ## How far a run has got -/

/-- How far a run has got, for any kind of states and of faults.  A run that has ended
stays where it is. -/
inductive Course (σ φ : Type) where
  /-- The run goes on. -/
  | running (s : σ)
  /-- The run has ended properly. -/
  | finished (s : σ)
  /-- The run has ended with a fault. -/
  | faulted (f : φ) (s : σ)

namespace Course

variable {σ τ φ ψ : Type}

/-- The state that has been reached. -/
def state : Course σ φ → σ
  | .running s | .finished s | .faulted _ s => s

/-- The same course with other states.  Faults and the way in which it has ended stay the same. -/
def map (f : τ → σ) : Course τ φ → Course σ φ
  | .running s => .running (f s)
  | .finished s => .finished (f s)
  | .faulted e s => .faulted e (f s)

/-- Another turn, unless the run has ended; then there is none. -/
def next (turn : σ → Course σ φ) : Course σ φ → Course σ φ
  | .running s => turn s
  | c => c

/-- How far a run has got after some turns, the last of which comes last in the recursion, too. -/
def after (turn : σ → Course σ φ) : Nat → σ → Course σ φ
  | 0, s => .running s
  | n + 1, s => (after turn n s).next turn

/-- The first turn comes first.  By definition the last one comes last, which is the same. -/
theorem after_succ (turn : σ → Course σ φ) (n : Nat) (s : σ) :
    after turn (n + 1) s = match turn s with
      | .running t => after turn n t
      | c => c := by
  induction n with
  | zero =>
    show turn s = _
    cases turn s <;> rfl
  | succ n ih =>
    rw [after, ih]
    cases turn s <;> rfl

/-- What an instruction comes to: a course that goes on unless the machine has stopped, or stack and
heap clash. -/
def ofResult (clash? : σ → Option φ) : EStateM.Result φ σ Signal → Course σ φ
  | .ok .next s =>
    match clash? s with
    | some f => .faulted f s
    | none => .running s
  | .ok .stop s => .finished s
  | .error f s => .faulted f s

/-! ## Courses that correspond to each other -/

/-- Two runs have got as far as each other, with states and faults that are related. -/
inductive Tracks (R : σ → τ → Prop) (E : φ → ψ → Prop) : Course σ φ → Course τ ψ → Prop
  | running {s : σ} {t : τ} (h : R s t) : Tracks R E (.running s) (.running t)
  | finished {s : σ} {t : τ} (h : R s t) : Tracks R E (.finished s) (.finished t)
  | faulted {f : φ} {g : ψ} {s : σ} {t : τ} (hf : E f g) (h : R s t) :
      Tracks R E (.faulted f s) (.faulted g t)

variable {R : σ → τ → Prop} {E : φ → ψ → Prop}

/-- **If single turns correspond to each other, so do whole runs.** The turns need to correspond
only where the second run gets to. -/
theorem tracks_after {turn : σ → Course σ φ} {turn' : τ → Course τ ψ} {s : σ} {t : τ} {n : Nat}
    (hstart : R s t)
    (hturn : ∀ k < n, ∀ u v, after turn' k t = .running v → R u v → Tracks R E (turn u) (turn' v)) :
    Tracks R E (after turn n s) (after turn' n t) := by
  induction n with
  | zero => exact .running hstart
  | succ n ih =>
    have hn := ih fun k hk ↦ hturn k (Nat.lt_succ_of_lt hk)
    rw [after, after]
    have hlast := hturn n (Nat.lt_succ_self n)
    generalize after turn n s = c at hn
    generalize after turn' n t = d at hn hlast
    cases hn with
    | running h => exact hlast _ _ rfl h
    | finished h => exact .finished h
    | faulted hf h => exact .faulted hf h

/-- Courses whose states are related by a function are the same up to that function. -/
theorem Tracks.eq_map {f : τ → σ} {c : Course σ φ} {d : Course τ φ}
    (h : Tracks (fun s t ↦ s = f t) Eq c d) : c = d.map f := by
  rcases h with rfl | rfl | ⟨rfl, rfl⟩ <;> rfl

end Course

/-! ## Computations that correspond to each other -/

section Follows

variable {σ τ φ ψ α β : Type}

/-- Two computations have the same result, or faults that are related, in states that are
related. -/
inductive Follows (R : σ → τ → Prop) (E : φ → ψ → Prop) :
    EStateM.Result φ σ α → EStateM.Result ψ τ α → Prop
  | ok {a : α} {s : σ} {t : τ} (h : R s t) : Follows R E (.ok a s) (.ok a t)
  | error {f : φ} {g : ψ} {s : σ} {t : τ} (hf : E f g) (h : R s t) :
      Follows R E (.error f s) (.error g t)

variable {R : σ → τ → Prop} {E : φ → ψ → Prop} {x : EStateM φ σ α} {y : EStateM ψ τ α} {s : σ}
  {t : τ}

/-- One computation after another one, if the first ones correspond and the second ones do so
wherever they begin. -/
theorem Follows.bind {f : α → EStateM φ σ β} {g : α → EStateM ψ τ β} (h : Follows R E (x s) (y t))
    (hf : ∀ a u v, y t = .ok a v → R u v → Follows R E (f a u) (g a v)) :
    Follows R E ((x >>= f) s) ((y >>= g) t) := by
  simp only [Bind.bind, EStateM.bind]
  generalize x s = p at h
  generalize y t = q at h hf
  cases h with
  | ok h => exact hf _ _ _ rfl h
  | error he h => exact .error he h

/-- What an instruction comes to, if stack and heap clash in both machines or in none of them. -/
theorem Follows.ofResult {clash? : σ → Option φ} {clash'? : τ → Option ψ}
    {p : EStateM.Result φ σ Signal} {q : EStateM.Result ψ τ Signal}
    (hclash : ∀ u v, R u v → (∃ f g, clash? u = some f ∧ clash'? v = some g ∧ E f g) ∨
      clash? u = none ∧ clash'? v = none)
    (h : Follows R E p q) :
    Course.Tracks R E (Course.ofResult clash? p) (Course.ofResult clash'? q) := by
  rcases h with @⟨signal, u, v, h⟩ | ⟨he, h⟩
  · rcases signal
    · rw [Course.ofResult, Course.ofResult]
      rcases hclash u v h with ⟨f, g, hf, hg, he⟩ | ⟨hf, hg⟩
      · rw [hf, hg]
        exact .faulted he h
      · rw [hf, hg]
        exact .running h
    · exact .finished h
  · exact .faulted he h

end Follows

/-! ## The machine -/

/-- How far a run has got with a turn of the machine. -/
def Turn.course : Turn → Course State Fault
  | .running s => .running s
  | .finished s => .finished s
  | .faulted f s => .faulted f s

/-- The end of a run, if it has ended. -/
def Course.outcome? : Course State Fault → Option Outcome
  | .running _ => none
  | .finished s => some ⟨.ok ⟨s.steps, s.heapCells⟩, s⟩
  | .faulted f s => some ⟨.error f, s⟩

namespace State

/-- The fault that stack and heap have met, if they have.  The machine looks for it after
every instruction. -/
def clash? (s : State) : Option Fault :=
  if (s.sp : Int) ≤ s.hp.toInt then some (.collision s.sp s.hp) else none

theorem course_perform (code : Array Int32) (word : Int32) (s : State) :
    (s.perform code word).course =
      .ofResult clash? (Exec.execute code word { s with steps := s.steps + 1 }) := by
  rw [perform]
  rcases Exec.execute code word { s with steps := s.steps + 1 } with ⟨_ | _, t⟩ | ⟨f, t⟩
  · simp only [Course.ofResult, clash?]
    split <;> rfl
  · rfl
  · rfl

/-- How far a run of the machine has got after some turns.  Unlike `State.run` it has an answer for
every number of them. -/
def courseAfter (limit : Option Nat) (code : Array Int32) (n : Nat) (s : State) :
    Course State Fault :=
  .after (fun s ↦ (s.turn limit code).course) n s

/-- **A run has an end when its course has one.** So what is shown about courses holds of runs. -/
theorem run_eq_outcome? (limit : Option Nat) (code : Array Int32) (n : Nat) (s : State) :
    s.run limit code n = (s.courseAfter limit code n).outcome? := by
  induction n generalizing s with
  | zero => rfl
  | succ n ih =>
    rw [run, courseAfter, Course.after_succ]
    cases s.turn limit code with
    | running t => exact ih t
    | finished t | faulted f t => rfl

end State

end ObjectLet
