import ObjectLet.Proofs.Words

/-!
# One machine for several programs

A machine can run any number of programs, one after the other, and each run begins with whatever the
last one has left behind, even if that has ended with a fault in the middle of an instruction.  All
of it is cleared away, so nothing of it can be seen.

* `Machine.executeAll`: several runs on one machine.
* `Machine.execute_eq_of_fits`: **a machine that has been used does what a new one does.**
* `Machine.session_safe`: **whatever code has been run before, a run stays within memory and code,
  and no instruction but `sw` changes more than the cell at the top of the stack.**
-/

set_option autoImplicit false

namespace ObjectLet

/-! ## Several runs -/

/-- A program to run.  Its words can be any words. -/
structure Job where
  /-- The program. -/
  program : Bytecode
  /-- What it writes to. -/
  output : Output
  /-- How many turns it is given. -/
  fuel : Nat

namespace Machine

/-- Runs several programs, one after the other.  Each of them has to come to an end. -/
def executeAll (m : Machine) : List Job → Option Machine
  | [] => some m
  | j :: js => (m.execute j.program j.output j.fuel).bind fun r ↦ r.2.executeAll js

/-- How far a run of a program has got after some turns, on a machine that may have
run others before. -/
def courseAfter (m : Machine) (b : Bytecode) (output : Output) (n : Nat) : Course State Fault :=
  (m.state.reset output).courseAfter m.options.maxSteps b.code n

/-- A machine has been made with the given options, and may have been used. -/
structure Fits (o : Options) (m : Machine) : Prop where
  /-- It has these options. -/
  options : m.options = o
  /-- It has as much memory as they say. -/
  size : m.state.memory.size = o.memorySize
  /-- There is room for a frame. -/
  two_le : 2 ≤ o.memorySize

section Fits

variable {o : Options} {m m' : Machine} {b : Bytecode} {output : Output} {fuel : Nat}
  {r : Except Fault Stats} {jobs : List Job}

theorem fits_new (h : new o = .ok m) : m.Fits o := by
  obtain ⟨⟨hlow, -⟩, rfl⟩ := new_eq_ok_iff.1 h
  exact ⟨rfl, rfl, hlow⟩

/-- **A machine that has been used does what a new one does**, since all it keeps from one run to
the next are its options and the size of its memory. -/
theorem execute_eq_of_fits (h : m.Fits o) (h' : m'.Fits o) (b : Bytecode) (output : Output)
    (fuel : Nat) : m'.execute b output fuel = m.execute b output fuel := by
  obtain ⟨options, state⟩ := m
  obtain ⟨options', state'⟩ := m'
  obtain rfl : options = o := h.options
  obtain rfl : options' = options := h'.options
  rw [execute, execute, State.reset_eq_boot, State.reset_eq_boot, h.size, h'.size]

theorem sound_courseAfter (h : m.Fits o) (b : Bytecode) (output : Output) (n : Nat) :
    (m.courseAfter b output n).Sound o.memorySize b.code.size := by
  have htwo := h.two_le
  have hwithin : (State.boot o.memorySize output).Within o.memorySize b.code.size :=
    ⟨rfl, Nat.le_refl _, Nat.zero_le _⟩
  rw [courseAfter, State.reset_eq_boot, h.size]
  refine State.sound_courseAfter hwithin ?_ n
  show (0 : Int) < o.memorySize
  omega

/-- A run ends like its course, if that has an end. -/
theorem execute_eq (m : Machine) (b : Bytecode) (output : Output) (fuel : Nat) :
    m.execute b output fuel = (m.courseAfter b output fuel).outcome?.map fun r ↦
      (r.result, { m with state := r.final }) := by
  rw [execute, State.run_eq_outcome?]
  rfl

theorem options_execute (hrun : m.execute b output fuel = some (r, m')) :
    m'.options = m.options := by
  rw [execute_eq] at hrun
  obtain ⟨e, -, heq⟩ := Option.map_eq_some_iff.1 hrun
  cases heq
  rfl

theorem Fits.execute (h : m.Fits o) (hrun : m.execute b output fuel = some (r, m')) :
    m'.Fits o := by
  rw [execute_eq] at hrun
  obtain ⟨e, he, heq⟩ := Option.map_eq_some_iff.1 hrun
  cases heq
  refine ⟨h.options, ?_, h.two_le⟩
  have hsize := (sound_courseAfter h b output fuel).within.size
  generalize m.courseAfter b output fuel = c at he hsize
  rcases c with s | s | ⟨f, s⟩ <;> cases he <;> exact hsize

theorem Fits.executeAll (h : m.Fits o) (hjobs : m.executeAll jobs = some m') : m'.Fits o := by
  induction jobs generalizing m with
  | nil =>
    obtain rfl := Option.some.inj hjobs
    exact h
  | cons j jobs ih =>
    rw [Machine.executeAll] at hjobs
    obtain ⟨⟨r, m₁⟩, hrun, hjobs⟩ := Option.bind_eq_some_iff.1 hjobs
    exact ih (h.execute hrun) hjobs

end Fits

end Machine

/-! ## Several runs in words -/

namespace Words

/-- The end of a run, if it has ended and nothing was out of range.  A fault is an end, too. -/
def final? : Course Words (Option Fault) → Option Words
  | .finished w | .faulted (some _) w => some w
  | .running _ | .faulted none _ => none

/-- Runs a program from its first word.  There is no answer if it does not end within its turns, or
if something is out of range. -/
def executeJob (limit : Option Nat) (w : Words) (j : Job) : Option Words :=
  final? ((w.reset j.output).courseAfter limit j.program.code j.fuel)

/-- Runs several programs, one after the other. -/
def executeAll (limit : Option Nat) (w : Words) : List Job → Option Words
  | [] => some w
  | j :: js => (w.executeJob limit j).bind fun w' ↦ w'.executeAll limit js

variable {w : Words} {s : State} {m m' : Machine} {jobs : List Job}

theorem pictures_boot {size : Nat} (h : size < 2 ^ 31) (output : Output) :
    Pictures (boot size output) (.boot size output) where
  size := Array.size_replicate
  small := h
  cells := fun a ha ↦ by
    have ha' : a < size := ha
    show (Array.replicate size (0 : Int32))[a]? = some 0
    rw [Array.getElem?_replicate, if_pos ha']
  sp := Int32.toInt_ofNat_of_lt h
  bound := Nat.le_refl size
  ip := rfl
  fp := rfl
  hp := rfl
  ra := rfl
  tm := rfl
  steps := rfl
  output := rfl

theorem Pictures.reset (h : Pictures w s) (output : Output) :
    Pictures (w.reset output) (s.reset output) := by
  rw [Words.reset, h.size, State.reset_eq_boot]
  exact pictures_boot h.small output

/-- A run comes to the same end in both machines, and they look alike afterwards. -/
theorem Pictures.execute {j : Job} {r : Except Fault Stats} (h : Pictures w m.state)
    (hrun : m.execute j.program j.output j.fuel = some (r, m')) :
    ∃ w', w.executeJob m.options.maxSteps j = some w' ∧ Pictures w' m'.state := by
  rw [Machine.execute_eq] at hrun
  obtain ⟨e, he, heq⟩ := Option.map_eq_some_iff.1 hrun
  cases heq
  have htracks := tracks_courseAfter m.options.maxSteps j.program.code j.fuel (h.reset j.output)
  rw [executeJob]
  rw [Machine.courseAfter] at he
  generalize (w.reset j.output).courseAfter m.options.maxSteps j.program.code j.fuel = c at htracks
  generalize (m.state.reset j.output).courseAfter m.options.maxSteps j.program.code j.fuel = d
    at htracks he
  rcases htracks with hend | hend | ⟨hfault, hend⟩
  · cases he
  · cases he
    exact ⟨_, rfl, hend⟩
  · cases he
    cases hfault
    exact ⟨_, rfl, hend⟩

/-- The machine in words comes to the end of each program when the other one does. -/
theorem Pictures.executeAll (h : Pictures w m.state) (hjobs : m.executeAll jobs = some m') :
    ∃ w', w.executeAll m.options.maxSteps jobs = some w' ∧ Pictures w' m'.state := by
  induction jobs generalizing w m with
  | nil =>
    obtain rfl := Option.some.inj hjobs
    exact ⟨w, rfl, h⟩
  | cons j jobs ih =>
    rw [Machine.executeAll] at hjobs
    obtain ⟨⟨r, m₁⟩, hrun, hjobs⟩ := Option.bind_eq_some_iff.1 hjobs
    obtain ⟨w₁, hrun', h₁⟩ := h.execute hrun
    obtain ⟨w', hjobs', h'⟩ := ih h₁ hjobs
    rw [Machine.options_execute hrun] at hjobs'
    exact ⟨w', by rw [Words.executeAll, hrun', Option.bind_some, hjobs'], h'⟩

end Words

/-! ## Safety -/

/-- **Whatever code has been run before, a run is safe**, for any code and after every number of
turns.  It is the run of a new machine.  Stack pointer and counter are in range, and while it goes
on, the heap is below the stack.  An instruction other than `sw` changes no more than the cell at
the top of the stack, and that is above the heap.  And the machine in words has run the same
programs and has got just as far, with nothing out of range. -/
theorem Machine.session_safe {o : Options} {m m' : Machine} {jobs : List Job} (hm : new o = .ok m)
    (hjobs : m.executeAll jobs = some m') (b : Bytecode) (output : Output) (n : Nat) :
    (∀ fuel, m'.execute b output fuel = m.execute b output fuel) ∧
      (m'.courseAfter b output n).Sound o.memorySize b.code.size ∧
      (∀ s, m'.courseAfter b output n = .running s →
        b.code[s.ip]? ≠ some (Opcode.plain .storeWord).word →
          s.Near b.code.size (m'.courseAfter b output (n + 1)).state) ∧
      ∃ w, (Words.boot o.memorySize {}).executeAll o.maxSteps jobs = some w ∧
        Course.Tracks Words.Pictures Words.IsFault
          ((w.reset output).courseAfter o.maxSteps b.code n) (m'.courseAfter b output n) := by
  have hfits := fits_new hm
  have hfits' := hfits.executeAll hjobs
  have hsound := sound_courseAfter hfits' b output n
  refine ⟨execute_eq_of_fits hfits hfits' b output, hsound, fun s hs hsw ↦ ?_, ?_⟩
  · have hnext : m'.courseAfter b output (n + 1) = (s.turn m'.options.maxSteps b.code).course := by
      rw [courseAfter, State.courseAfter] at hs ⊢
      rw [Course.after, hs]
      rfl
    have hwithin := hsound.within
    rw [hs] at hwithin
    rw [hnext]
    exact State.near_turn hwithin hsw
  · have hboot : Words.Pictures (.boot o.memorySize {}) m.state := by
      obtain ⟨⟨-, hhigh⟩, rfl⟩ := new_eq_ok_iff.1 hm
      exact Words.pictures_boot (by omega) {}
    obtain ⟨w, hw, hpictures⟩ := hboot.executeAll hjobs
    rw [hfits.options] at hw
    refine ⟨w, hw, ?_⟩
    rw [courseAfter, hfits'.options]
    exact Words.tracks_courseAfter _ _ _ (hpictures.reset output)

namespace Disorder

/-- Four cells, and ten instructions at most. -/
def options : Options where
  memorySize := 4
  maxSteps := some 10

/-- Programs that leave things in disorder: the first one makes `hp` negative and stops in the
middle of a division by zero, and the second one puts words into the memory and jumps into an
operand, where it finds no opcode. -/
def jobs : List Job :=
  [⟨⟨#[1, -5, 21, 1, 0, 1, 0, 6]⟩, {}, 5⟩, ⟨⟨#[1, 3, 1, 0, 7, 1, 99, 9, 6]⟩, {}, 6⟩]

/-- A program that writes for ever. -/
def writing : Bytecode := ⟨#[1, 7, 22, 9, 0]⟩

/-- Afterwards the machine writes what a new one writes. -/
theorem session_harmless : ∃ m m', Machine.new options = .ok m ∧ m.executeAll jobs = some m' ∧
    m'.state.ip = 6 ∧ m'.state.memory.get 0 = 3 ∧
    m'.execute writing {} 12 = m.execute writing {} 12 ∧
    (m'.courseAfter writing {} 12).Sound 4 5 ∧
    (m'.execute writing {} 12).map (fun r ↦ (r.1, r.2.state.output.lines)) =
      some (.error (.stepLimitExceeded 10), #[.value 7, .value 7, .value 7]) := by
  have hends : (Machine.executeAll ⟨options, .boot 4 {}⟩ jobs).isSome := by decide +kernel
  obtain ⟨m', hjobs⟩ := Option.isSome_iff_exists.1 hends
  obtain ⟨hnew, hsound, -⟩ := Machine.session_safe (o := options) rfl hjobs writing {} 12
  have hleft : (Machine.executeAll ⟨options, .boot 4 {}⟩ jobs).map
      (fun m ↦ (m.state.ip, m.state.memory.get 0)) = some (6, 3) := by
    decide +kernel
  rw [hjobs] at hleft
  obtain ⟨hip, hcell⟩ := Prod.mk.inj (Option.some.inj hleft)
  refine ⟨_, m', rfl, hjobs, hip, hcell, hnew 12, hsound, ?_⟩
  rw [hnew 12]
  decide +kernel

end Disorder

end ObjectLet
