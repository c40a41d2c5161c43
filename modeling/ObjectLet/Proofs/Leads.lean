import ObjectLet.Proofs.Configuration

/-!
# Where a configuration leads

The machine may run out of memory at any time, so what can be said about a piece of code is that it
leads from one configuration to another one unless that happens first.  `Image.Leads` says this, and
also what is known if it does happen: what has been printed up to then, and how much memory would
have been enough.  It is built up from steps and put together by `Leads.bind`.

* `Leads.follows`: the machine follows a configuration wherever it leads.
* `Leads.reaches`: with enough steps and output, **a run of the machine gets to where its
  configuration leads, or it ends because stack and heap have met**.
-/

set_option autoImplicit false

namespace ObjectLet

namespace Image

/-- A configuration leads to one of a certain kind, unless the stack meets the heap before.  In that
case only the beginning of `printed` has been printed, and the memory is not larger than `bound`. -/
inductive Leads (m : Image) (printed : List Int32) (bound : Nat) (Q : Config → Prop) :
    Config → Prop
  /-- It is of that kind itself. -/
  | here {c : Config} (h : Q c) : m.Leads printed bound Q c
  /-- The next step leads there. -/
  | step {c d : Config} {i : Instr} {rest : List Instr} (hat : CodeAt m.prog c.ip (i :: rest))
      (hstep : m.Step i c d) (hp : c.printed <+: printed)
      (full : m.top ≤ d.use → m.top ≤ bound)
      (next : d.use < m.top → m.Leads printed bound Q d) : m.Leads printed bound Q c

variable {m : Image} {c d : Config} {i : Instr} {rest : List Instr} {printed : List Int32}
  {bound : Nat} {Q R : Config → Prop}

/-! ## One step after the other -/

/-- What never gets less on the way.  The stack does, which is why it is not mentioned. -/
structure Before (c d : Config) : Prop where
  /-- The heap grows. -/
  heap : c.heap <+: d.heap
  /-- The steps are counted. -/
  steps : c.steps ≤ d.steps

theorem Before.refl (c : Config) : Before c c := ⟨List.prefix_rfl, Nat.le_refl _⟩

theorem Before.trans {e : Config} (h : Before c d) (h' : Before d e) : Before c e :=
  ⟨h.heap.trans h'.heap, Nat.le_trans h.steps h'.steps⟩

theorem Step.steps_eq (h : m.Step i c d) : d.steps = c.steps + 1 := by
  cases h <;> rfl

theorem Step.before (h : m.Step i c d) : Before c d := by
  refine ⟨?_, by rw [h.steps_eq]; omega⟩
  cases h with
  | store hs hlen => exact List.prefix_append _ _
  | _ => exact List.prefix_rfl

namespace Leads

theorem mono {printed' : List Int32} {bound' : Nat} (h : m.Leads printed bound Q c)
    (hp : printed <+: printed') (hb : bound ≤ bound') (hQ : ∀ d, Q d → R d) :
    m.Leads printed' bound' R c := by
  induction h with
  | here h => exact .here (hQ _ h)
  | step hat hstep hp' full _ ih =>
    exact .step hat hstep (hp'.trans hp) (fun h ↦ Nat.le_trans (full h) hb) ih

theorem bind (h : m.Leads printed bound Q c) (hQ : ∀ d, Q d → m.Leads printed bound R d) :
    m.Leads printed bound R c := by
  induction h with
  | here h => exact hQ _ h
  | step hat hstep hp full _ ih => exact .step hat hstep hp full ih

theorem imp (h : m.Leads printed bound Q c) (hQ : ∀ d, Q d → R d) : m.Leads printed bound R c :=
  h.mono List.prefix_rfl (Nat.le_refl _) hQ

/-- On the way nothing gets less that never does. -/
theorem before (h : m.Leads printed bound Q c) :
    m.Leads printed bound (fun d ↦ Q d ∧ Before c d) c := by
  have hall : ∀ c₀, Before c₀ c → m.Leads printed bound (fun d ↦ Q d ∧ Before c₀ d) c := by
    induction h with
    | here h => exact fun c₀ hc ↦ .here ⟨h, hc⟩
    | step hat hstep hp full _ ih =>
      exact fun c₀ hc ↦ .step hat hstep hp full fun h ↦ ih h c₀ (hc.trans hstep.before)
  exact hall c (.refl c)

end Leads

end Image

/-! ## Following with the machine -/

namespace State

variable {limit : Option Nat} {code : Array Int32} {s t u : State} {j k : Nat}

/-- The state of the machine after some turns, if it is still running then.  A state that a run
stops in is not counted. -/
def after (limit : Option Nat) (code : Array Int32) : Nat → State → Option State
  | 0, s => some s
  | k + 1, s =>
    match s.turn limit code with
    | .running t => t.after limit code k
    | _ => none

theorem run_of_after (h : s.after limit code k = some t) (fuel : Nat) :
    s.run limit code (fuel + k) = t.run limit code fuel := by
  induction k generalizing s with
  | zero =>
    rw [Nat.add_zero, Option.some.inj h]
  | succ k ih =>
    rw [after] at h
    rw [Nat.add_succ, run]
    split at h
    · rename_i s' hs'
      rw [hs']
      exact ih h
    · cases h

end State

namespace Image

variable {m : Image} {c : Config} {printed : List Int32} {bound : Nat} {Q : Config → Prop}
  {b : Bytecode} {s t : State} {capacity limit : Option Nat}

/-- An assembled program in a memory that words can address, as long as it is itself short enough
for that. -/
structure Sized (m : Image) (b : Bytecode) : Prop where
  /-- Its code. -/
  assembled : assemble m.prog = .ok b
  /-- The code can be addressed. -/
  code : codeSize m.prog < 2 ^ 31
  /-- The memory can be addressed. -/
  top : m.top < 2 ^ 31

/-- How a run ends that runs out of memory.  It has done nothing wrong up to then, and it would not
have run out of it in a memory with more than `bound` cells. -/
structure Collides (m : Image) (printed : List Int32) (bound : Nat) (o : Outcome) : Prop where
  /-- Stack and heap have met. -/
  fault : ∃ sp hp, o.result = .error (.collision sp hp)
  /-- The beginning of what was to be printed has been printed. -/
  lines : ∃ vs, vs <+: printed ∧ o.final.output.lines.toList = lines vs
  /-- A larger memory would have been enough. -/
  full : m.top ≤ bound

namespace Leads

/-- **The machine follows a configuration wherever it leads.**  After some turns it is either about
to make the next step, or it has got there before. -/
theorem follows (h : m.Leads printed bound Q c) (hm : m.Sized b) {k : Nat}
    (hs : m.Shows capacity s c) (ht : s.after limit b.code k = some t) :
    (∃ d e i rest, m.Shows capacity t d ∧ CodeAt m.prog d.ip (i :: rest) ∧ m.Step i d e) ∨
      ∃ j u d, j ≤ k ∧ d.steps = c.steps + j ∧ Q d ∧ m.Shows capacity u d ∧
        u.after limit b.code (k - j) = some t := by
  induction h generalizing s k with
  | @here c h => exact .inr ⟨0, s, c, Nat.zero_le k, rfl, h, hs, ht⟩
  | @step c d i rest hat hstep hp full next ih =>
    cases k with
    | zero =>
      obtain rfl := Option.some.inj ht
      exact .inl ⟨c, d, i, rest, hs, hat, hstep⟩
    | succ k =>
      have hturn := hs.turn hm.top hm.assembled hm.code hat hstep limit
      rw [State.after] at ht
      generalize s.turn limit b.code = r at hturn ht
      cases hturn with
      | @running u shows' keeps =>
        rcases ih shows'.fits shows' ht with h | ⟨j, v, e, hj, hsteps, hQ, hv, hafter⟩
        · exact .inl h
        · refine .inr ⟨j + 1, v, e, by omega, ?_, hQ, hv, ?_⟩
          · rw [hsteps, hstep.steps_eq]
            omega
          · rwa [Nat.add_sub_add_right]
      | collision => cases ht
      | stopped => cases ht
      | closed => cases ht

/-- **With enough steps and output, the machine gets to where its configuration leads**, or its run
ends because stack and heap have met. -/
theorem reaches (h : m.Leads printed bound Q c) (hm : m.Sized b) (hs : m.Shows none s c) :
    (∃ k t d, s.after none b.code k = some t ∧ d.steps = c.steps + k ∧ m.Shows none t d ∧ Q d) ∨
      ∃ k o, s.run none b.code k = some o ∧ m.Collides printed bound o := by
  induction h generalizing s with
  | @here c h => exact .inl ⟨0, s, c, rfl, rfl, hs, h⟩
  | @step c d i rest hat hstep hp full next ih =>
    have hturn := hs.turn hm.top hm.assembled hm.code hat hstep none
    generalize hr : s.turn none b.code = r at hturn
    cases hturn with
    | @running u shows' keeps =>
      rcases ih shows'.fits shows' with ⟨k, t, e, hk, hsteps, ht, hQ⟩ | ⟨k, o, hk, ho⟩
      · refine .inl ⟨k + 1, t, e, ?_, ?_, ht, hQ⟩
        · rw [State.after, hr]
          exact hk
        · rw [hsteps, hstep.steps_eq]
          omega
      · refine .inr ⟨k + 1, o, ?_, ho⟩
        rw [State.run, hr]
        exact hk
    | @collision t sp hp' hfull hlines keeps =>
      refine .inr ⟨1, ⟨.error (.collision sp hp'), t⟩, by rw [State.run, hr], ?_⟩
      exact ⟨⟨sp, hp', rfl⟩, ⟨c.printed, hp, hlines⟩, full hfull⟩
    | stopped limited => exact absurd rfl limited
    | closed limited => exact absurd rfl limited

end Leads

end Image

end ObjectLet
