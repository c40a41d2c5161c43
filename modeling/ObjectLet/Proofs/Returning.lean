import ObjectLet.Proofs.Labels
import ObjectLet.Proofs.Stretches

/-!
# Calls and returns

A function is called with the access link, the arguments and the frame pointer of the caller on the
stack, and the return address in its register.  It leaves with its result in place of all that.  The
registers do not survive calls inside the function, so the return address is kept in the frame,
below which come the local declarations and the result: everything that a function has to take off
the stack again is counted from its text.

* `State.runs_unwinding`: **the frame is taken off the stack**, with its parts in the registers.
* `State.reaches_left`: a function leaves with the value that is on top of its frame.
* `FunDecl.returns`: **functions keep the calling convention**, if what is evaluated inside of them
  keeps to its part of the stack.
-/

set_option autoImplicit false

namespace ObjectLet

/-! ## Parts of the epilogue -/

/-- Takes a frame off the stack, and puts its parts into the registers.  This is the first half of
an epilogue; what comes after it is the return. -/
def unwinding (locals params : Nat) : List Instr :=
  [.plain .storeTm] ++ List.replicate locals (.plain .pop) ++ [.plain .storeRa]
    ++ List.replicate (params + 1) (.plain .pop) ++ [.plain .storeFp]

theorem epilogue_eq (locals params : Nat) : epilogue locals params =
    unwinding locals params ++ [.plain .loadTm, .plain .loadRa] ++ [.plain .jumpSub] := by
  simp [epilogue, unwinding, List.replicate_succ]

namespace State

variable {s t u : State}

/-! ## Taking values off the stack -/

theorem Holds.mono {m n : Nat} (h : s.Holds n) (hmn : m ≤ n) : s.Holds m :=
  ⟨Nat.le_trans (Nat.add_le_add_left hmn _) h.within, h.apart⟩

theorem Holds.clear {n : Nat} (h : s.Holds n) : s.hp.toInt < s.sp + 1 :=
  Int.lt_add_one_of_le (Int.le_of_lt h.apart)

/-- Some values have been taken off the stack.  Where they have gone to is not said here. -/
structure Shed (s : State) (n : Nat) (t : State) : Prop where
  /-- The memory is the same. -/
  memory : t.memory = s.memory
  /-- The heap pointer is the same. -/
  hp : t.hp = s.hp
  /-- Nothing has been written. -/
  output : t.output = s.output
  /-- The stack is shorter. -/
  sp : t.sp = s.sp + n

namespace Shed

variable {m n : Nat}

theorem trans (h : s.Shed m t) (h' : t.Shed n u) : s.Shed (m + n) u where
  memory := h'.memory.trans h.memory
  hp := h'.hp.trans h.hp
  output := h'.output.trans h.output
  sp := by rw [h'.sp, h.sp, Nat.add_assoc]

/-- What was further down is still on the stack. -/
theorem holds (h : s.Shed m t) (hs : s.Holds (m + n)) : t.Holds n where
  within := by rw [h.sp, h.memory, Nat.add_assoc]; exact hs.within
  apart := by have := hs.apart; rw [h.hp, h.sp]; omega

theorem top (h : s.Shed n t) : t.top = s.memory.get (s.sp + n) := by
  rw [State.top, h.memory, h.sp]

end Shed

/-- Some `pop` instructions have been executed. -/
def popped (s : State) (n : Nat) : State :=
  { s with ip := s.ip + n, sp := s.sp + n, steps := s.steps + n }

theorem Runs.pops {n : Nat} (h : s.Holds n) :
    Runs (List.replicate n (.plain .pop)) s (s.popped n) := by
  induction n generalizing s with
  | zero => exact .nil s
  | succ n ih =>
    have hone : s.Shed 1 ((s.past 1).dropped 1) := ⟨rfl, rfl, rfl, rfl⟩
    have hpopped : ((s.past 1).dropped 1).popped n = s.popped (n + 1) := by
      simp only [popped, dropped, past, Nat.add_assoc, Nat.add_comm 1 n]
    exact (Runs.pop (h.mono (by omega))).cons
      (hpopped ▸ ih (hone.holds (Nat.add_comm n 1 ▸ h)))

/-! ## Leaving a function -/

/-- A frame has been taken off the stack, and its parts are in the registers.  Nothing has been
written, so the parts can be read off the memory as it was. -/
structure Unwound (s : State) (locals params : Nat) (t : State) : Prop
    extends Shed s (locals + params + 4) t where
  /-- The first value is the result. -/
  tm : t.tm = s.top
  /-- After the local declarations comes the return address. -/
  ra : t.ra = s.memory.get (s.sp + (locals + 1))
  /-- After the access link and the arguments comes the frame pointer of the caller. -/
  fp : t.fp = s.memory.get (s.sp + (locals + params + 3))

variable {d p : Nat}

/-- **The frame is taken off the stack.** Its parts come off one after the other, and those that are
needed go into registers. -/
theorem runs_unwinding (h : s.Holds (d + p + 4)) :
    ∃ t, Runs (unwinding d p) s t ∧ s.Unwound d p t := by
  -- the states after each instruction, and after each of the two rows of `pop`
  let s₁ : State := { (s.past 1).dropped 1 with tm := s.top }
  let s₂ : State := s₁.popped d
  let s₃ : State := { (s₂.past 1).dropped 1 with ra := s₂.top }
  let s₄ : State := s₃.popped (p + 1)
  let s₅ : State := { (s₄.past 1).dropped 1 with fp := s₄.top }
  have h₁ : s.Shed 1 s₁ := ⟨rfl, rfl, rfl, rfl⟩
  have h₂ : s.Shed (1 + d) s₂ := h₁.trans ⟨rfl, rfl, rfl, rfl⟩
  have h₃ : s.Shed (1 + d + 1) s₃ := h₂.trans ⟨rfl, rfl, rfl, rfl⟩
  have h₄ : s.Shed (1 + d + 1 + (p + 1)) s₄ := h₃.trans ⟨rfl, rfl, rfl, rfl⟩
  have h₅ : s.Shed (1 + d + 1 + (p + 1) + 1) s₅ := h₄.trans ⟨rfl, rfl, rfl, rfl⟩
  have hs₁ : s₁.Holds d := h₁.holds (h.mono (by omega))
  have hs₂ : s₂.Holds 1 := h₂.holds (h.mono (by omega))
  have hs₃ : s₃.Holds (p + 1) := h₃.holds (h.mono (by omega))
  have hs₄ : s₄.Holds 1 := h₄.holds (h.mono (by omega))
  have hresult : Runs [.plain .storeTm] s s₁ :=
    .store (fun v s ↦ { s with tm := v }) rfl (h.mono (by omega)) h.clear
  have hreturn : Runs [.plain .storeRa] s₂ s₃ :=
    .store (fun v s ↦ { s with ra := v }) rfl hs₂ hs₂.clear
  have hcaller : Runs [.plain .storeFp] s₄ s₅ :=
    .store (fun v s ↦ { s with fp := v }) rfl hs₄ hs₄.clear
  refine ⟨s₅, (((hresult.append (Runs.pops hs₁)).append hreturn).append (Runs.pops hs₃)).append
    hcaller, ⟨h₅.memory, h₅.hp, h₅.output, ?_⟩, rfl, ?_, ?_⟩
  · rw [h₅.sp]
    omega
  · rw [Nat.add_comm d 1, ← h₂.top]
    rfl
  · rw [show d + p + 3 = 1 + d + 1 + (p + 1) by omega, ← h₄.top]

/-- The temporary value and the return address have been pushed.  There is room for both
where the frame was. -/
structure Reloaded (s t : State) : Prop where
  /-- There are two more values on the stack. -/
  sp : t.sp + 2 = s.sp
  /-- One of them is the return address. -/
  ra : t.top = s.ra
  /-- Under it is the temporary value. -/
  tm : t.memory.get (t.sp + 1) = s.tm
  /-- What is under both is the same. -/
  cells : ∀ a, s.sp ≤ a → t.memory.get a = s.memory.get a
  /-- The memory has its size. -/
  size : t.memory.size = s.memory.size
  /-- The frame pointer is the same. -/
  fp : t.fp = s.fp
  /-- The heap pointer is the same. -/
  hp : t.hp = s.hp
  /-- Nothing has been written. -/
  output : t.output = s.output

theorem runs_reload (h : s.hp.toInt + 2 < s.sp) (hsp : 1 < s.sp) :
    ∃ t, Runs [.plain .loadTm, .plain .loadRa] s t ∧ s.Reloaded t := by
  have htm : Runs [.plain .loadTm] s ((s.past 1).pushed s.tm) :=
    .load State.tm rfl ⟨by omega, by omega⟩
  have hroom : ((s.past 1).pushed s.tm).HasRoom := by
    rw [HasRoom, pushed_hp, pushed_sp, past_hp, past_sp]
    omega
  refine ⟨_, htm.cons (.load State.ra rfl hroom), ?_, Memory.get_set_self _ _ _, ?_, fun a ha ↦ ?_,
    rfl, rfl, rfl, rfl⟩
  · simp only [pushed_sp, past_sp]
    omega
  · have hne : s.sp - 1 - 1 + 1 ≠ s.sp - 1 - 1 := by omega
    refine (Memory.get_set_of_ne _ hne _).trans ?_
    rw [show s.sp - 1 - 1 + 1 = s.sp - 1 by omega]
    exact Memory.get_set_self _ _ _
  · have hne : a ≠ s.sp - 1 := by omega
    have hne' : a ≠ s.sp - 1 - 1 := by omega
    exact (Memory.get_set_of_ne _ hne' _).trans (Memory.get_set_of_ne _ hne _)

/-- The caller has got the result, in place of what it had put on the stack. -/
structure Left (s : State) (locals params : Nat) (t : State) : Prop where
  /-- The machine is at the return address. -/
  ip : (t.ip : Int) = (s.memory.get (s.sp + (locals + 1))).toInt
  /-- Nothing is left of the frame. -/
  sp : t.sp = s.sp + (locals + params + 3)
  /-- The result is on top of the stack. -/
  top : t.top = s.top
  /-- The frame pointer is that of the caller. -/
  fp : t.fp = s.memory.get (s.sp + (locals + params + 3))
  /-- The heap pointer is the same. -/
  hp : t.hp = s.hp
  /-- Nothing has been written. -/
  output : t.output = s.output
  /-- What is under the result is the same. -/
  cells : ∀ a, s.sp + (locals + params + 3) < a → t.memory.get a = s.memory.get a

/-- **A function leaves with its result**, whatever its frame was used for before. -/
theorem reaches_left {prog : List Instr} {b : Bytecode} (hb : assemble prog = .ok b)
    (hat : CodeAt prog s.ip (epilogue d p)) (h : s.Holds (d + p + 4)) {r : Nat}
    (hr : (s.memory.get (s.sp + (d + 1))).toInt = r) (hlt : r ≤ b.code.size) :
    ∃ t, s.Reaches b.code (.running t) ∧ s.Left d p t := by
  have hapart := h.apart
  have hwithin := h.within
  rw [epilogue_eq] at hat
  obtain ⟨t, hunwinding, ht⟩ := runs_unwinding h
  have hsp := ht.sp
  obtain ⟨u, hreload, hu⟩ := runs_reload (s := t) (by rw [ht.hp]; omega) (by omega)
  have husp := hu.sp
  have hruns := hunwinding.append hreload
  have hjump := reaches_jumpSub hb (hruns.ip ▸ hat.right)
    ⟨by rw [hu.size, ht.memory]; omega, by rw [hu.hp, ht.hp]; omega⟩ (by rw [hu.ra, ht.ra, hr]) hlt
  refine ⟨_, (hruns.reaches prog b hb hat.left).trans hjump, hr.symm, ?_, hu.tm.trans ht.tm,
    hu.fp.trans ht.fp, hu.hp.trans ht.hp, hu.output.trans ht.output, fun a ha ↦ ?_⟩
  · simp only [dropped_sp, past_sp]
    omega
  · rw [← ht.memory]
    exact hu.cells a (by omega)

/-! ## Entering a function -/

/-- A function has set up its frame, in front of the first local declaration.  The return address is
on the stack, and the frame pointer is at the access link under it. -/
@[simps] def entered (s : State) : State :=
  { s with
    memory := s.memory.set (s.sp - 1) s.ra
    ip := s.ip + 2
    sp := s.sp - 1
    fp := Int32.ofNat s.sp
    steps := s.steps + 2 }

theorem runs_prologue (h : s.HasRoom) (entry : Label) : Runs (prologue entry) s s.entered := by
  have happart := h.1
  have hframe : Runs [.plain .copyFp] s { s.past 1 with fp := Int32.ofNat s.sp } :=
    .copyFp (by omega)
  exact (Runs.mark entry s).cons (hframe.cons (.load State.ra rfl h))

/-- Without room for the return address stack and heap collide, if they do not before. -/
theorem jams_prologue (h : ¬ s.HasRoom) (entry : Label) : Jams (prologue entry) s := by
  have hframe : Jams [.plain .copyFp, .plain .loadRa] s := by
    by_cases hapart : s.hp.toInt < s.sp
    · exact (Runs.copyFp hapart).jams (Jams.load State.ra rfl h)
    · exact (Jams.copyFp (by omega)).append _
  exact (Runs.mark entry s).jams hframe

/-! ## Calls -/

/-- A function with some parameters has been called, in code of some size.  Nothing is said about
where it was called from. -/
structure Called (s : State) (params size : Nat) : Prop where
  /-- The access link, the arguments and the frame pointer of the caller are on the stack. -/
  frame : s.sp + (params + 2) ≤ s.memory.size
  /-- The return address is an address. -/
  nonneg : 0 ≤ s.ra.toInt
  /-- It is in the code, or at its end. -/
  le : s.ra.toInt ≤ size

/-- Some values have been put on the stack, and nothing under them has changed.  Above them, and on
the heap, anything may have. -/
structure Evaluated (s : State) (values : Nat) (t : State) : Prop where
  /-- The values are on the stack. -/
  sp : t.sp + values = s.sp
  /-- What is under them is the same. -/
  cells : ∀ a, s.sp ≤ a → t.memory.get a = s.memory.get a

/-- A function that was called in one state and has got its result in another one has returned. -/
structure Returned (s : State) (params : Nat) (u t : State) : Prop where
  /-- The machine is at the return address. -/
  ip : (t.ip : Int) = s.ra.toInt
  /-- The result is in place of the frame pointer of the caller. -/
  sp : t.sp = s.sp + (params + 1)
  /-- It is the value that was on top of the stack. -/
  top : t.top = u.top
  /-- The caller has its frame pointer back. -/
  fp : t.fp = s.memory.get (s.sp + (params + 1))
  /-- The heap is as it was left. -/
  hp : t.hp = u.hp
  /-- So is the output. -/
  output : t.output = u.output
  /-- What is under the result is the same. -/
  cells : ∀ a, s.sp + (params + 1) < a → t.memory.get a = s.memory.get a

/-- The return address is still where it was put. -/
theorem Evaluated.link (h : s.entered.Evaluated (d + 1) t) :
    t.memory.get (t.sp + (d + 1)) = s.ra := by
  rw [h.sp, h.cells _ (Nat.le_refl _)]
  exact Memory.get_set_self _ _ _

/-- What has been evaluated in a new frame is returned. -/
theorem Left.returned (hroom : s.HasRoom) (hu : s.entered.Evaluated (d + 1) u) (h : u.Left d p t) :
    s.Returned p u t := by
  have hpos := hroom.2
  have hsp : u.sp + (d + 1) = s.sp - 1 := hu.sp
  have hcells : ∀ a, s.sp ≤ a → u.memory.get a = s.memory.get a := fun a ha ↦
    (hu.cells a (by rw [entered_sp]; omega)).trans (Memory.get_set_of_ne _ (by omega) _)
  refine ⟨?_, ?_, h.top, ?_, h.hp, h.output, fun a ha ↦ ?_⟩
  · rw [h.ip, hu.link]
  · rw [h.sp]
    omega
  · rw [h.fp, hcells _ (by omega)]
    congr 1
    omega
  · rw [h.cells a (by omega), hcells a (by omega)]

/-- **A function returns what is evaluated in its frame.** The evaluation may do what it likes above
the frame, and on the heap. -/
theorem reaches_returned {prog is : List Instr} {b : Bytecode} {entry : Label}
    (hb : assemble prog = .ok b) (hat : CodeAt prog s.ip (prologue entry ++ is ++ epilogue d p))
    (hs : s.Called p b.code.size) (hroom : s.HasRoom)
    (hu : s.entered.Reaches b.code (.running u)) (hip : u.ip = s.entered.ip + codeSize is)
    (heval : s.entered.Evaluated (d + 1) u) :
    ∃ t, s.Reaches b.code (.running t) ∧ s.Returned p u t := by
  have happart := hroom.1
  have hpos := hroom.2
  have hframe := hs.frame
  have hend := Assembled.size_eq hb ▸ hat.left.left.end_le
  have hsp : u.sp + (d + 1) = s.sp - 1 := heval.sp
  -- the heap may have grown meanwhile, but not into the stack
  have hsound : Course.Sound s.memory.size b.code.size (.running u) := by
    refine hu.sound ⟨rfl, ?_, hend⟩ ?_
    · rw [entered_sp]
      omega
    · rw [entered_sp, entered_hp]
      omega
  have hsize : u.memory.size = s.memory.size := hsound.within.size
  have hholds : u.Holds (d + p + 4) := ⟨by omega, hsound.apart u rfl⟩
  have hepilogue : CodeAt prog u.ip (epilogue d p) := by
    have hright := hat.right
    rw [codeSize_append, ← Nat.add_assoc] at hright
    rw [hip]
    exact hright
  obtain ⟨r, hr⟩ := Int.eq_ofNat_of_zero_le hs.nonneg
  have hle := hs.le
  obtain ⟨t, ht, hleft⟩ := reaches_left hb hepilogue hholds (heval.link ▸ hr) (by omega)
  have hentered := (runs_prologue hroom entry).reaches prog b hb hat.left.left
  exact ⟨t, (hentered.trans hu).trans ht, hleft.returned hroom heval⟩

end State

/-- **Functions keep the calling convention.**  Wherever the code of a function stands in a program
that can be assembled, and whatever the state in which it is called, stack and heap collide at once
if there is no room for the return address.  Otherwise the function sets up its frame.  If its local
declarations and its body come to their end with one value each, and have not changed what is under
these values, then the function returns to its caller with the value of the body, and with the frame
pointer of the caller; nothing under that value has changed.  What the body leaves in the other
registers does not matter. -/
theorem FunDecl.returns {t : Target} {f : FunDecl} {entry : Label} {e e' : Emission}
    (hf : f.emit t entry e = .ok () e') :
    ∃ declared e₁ result n,
      Decl.emitAll t f.locals { e with log := e.log ++ [.emittingFunction f.name entry] }
        = .ok declared e₁ ∧
      f.body.emit t e₁.nextLabel = .ok (result, n) ∧
      ∃ code, e'.functions = e₁.functions ++ code ∧
        code = prologue entry ++ (declared ++ result) ++ epilogue f.locals.length f.params.length ∧
        ∀ prog b a (s : State), assemble prog = .ok b → CodeAt prog a code →
          s.ip = addressOf entry prog → s.Called f.params.length b.code.size →
          (¬ s.HasRoom → ∃ c h u, s.Reaches b.code (.faulted (.collision c h) u)) ∧
          (s.HasRoom → s.Reaches b.code (.running s.entered) ∧
            ∀ u, s.entered.Reaches b.code (.running u) →
              u.ip = s.entered.ip + codeSize (declared ++ result) →
              s.entered.Evaluated (f.locals.length + 1) u →
              ∃ w, s.Reaches b.code (.running w) ∧ s.Returned f.params.length u w) := by
  obtain ⟨declared, e₁, result, n, hd, hr, rfl⟩ := FunDecl.emit_eq_ok hf
  refine ⟨declared, e₁, result, n, hd, hr, _, rfl, by simp only [List.append_assoc], ?_⟩
  rw [List.append_assoc (prologue entry)]
  intro prog b a s hb hat hip hs
  obtain rfl : s.ip = a := hip.trans (Assembled.addressOf_eq hb hat)
  have hprologue := hat.left.left
  refine ⟨fun hfull ↦ State.jams_prologue hfull entry prog b hb hprologue, fun hroom ↦ ?_⟩
  have hruns := State.runs_prologue hroom entry
  have hentered := hruns.reaches prog b hb hprologue
  refine ⟨hentered, fun u hu huip heval ↦ ?_⟩
  exact State.reaches_returned hb hat hs hroom hu huip heval

namespace Returning

/-- A function with a parameter and a local variable. -/
def f : FunDecl :=
  ⟨⟨4, 1⟩, "f", .int, [⟨⟨0, 1⟩, "x", .int⟩], [.var ⟨2, 1⟩ "y" .int (.int ⟨1, 1⟩ 5)], .int ⟨3, 1⟩ 7⟩

/-- Its entry. -/
def entry : Label := ⟨.function, 0⟩

/-- The code of its variable and its body. -/
def inside : List Instr := [.push 5] ++ [.push 7]

/-- Its code. -/
def code : List Instr := prologue entry ++ inside ++ epilogue 1 1

/-- The machine when it is called.  The frame pointer of the caller is 9, and there is nothing to go
on with afterwards. -/
def start (hp : Int32) : State :=
  { State.boot 10 {} with
    sp := 4, hp, ra := 15
    memory := (Memory.blank 10).set 6 9 }

/-- The result is returned; without room for the return address there is a collision. -/
theorem f_returns : ∃ e b, f.emit ⟨{}, 10⟩ entry {} = .ok () e ∧ assemble code = .ok b ∧
    (∃ w, (start 0).Reaches b.code (.running w) ∧ w.ip = 15 ∧ w.sp = 6 ∧ w.top = 7 ∧ w.fp = 9) ∧
    ∃ c h u, (start 3).Reaches b.code (.faulted (.collision c h) u) := by
  obtain ⟨e, hf⟩ : ∃ e, f.emit ⟨{}, 10⟩ entry {} = .ok () e := ⟨_, rfl⟩
  obtain ⟨b, hb⟩ : ∃ b, assemble code = .ok b := ⟨_, rfl⟩
  obtain ⟨declared, e₁, result, n, hd, hr, code', -, hcode', h⟩ := FunDecl.returns hf
  cases hd
  cases hr
  obtain rfl : code' = code := hcode'
  have hsize : b.code.size = 15 := Assembled.size_eq hb
  have hcalled : ∀ hp, (start hp).Called 1 b.code.size :=
    fun hp ↦
      ⟨(by decide : 4 + 3 ≤ 10), (by decide : 0 ≤ (15 : Int32).toInt), hsize ▸ Int.le_refl 15⟩
  have hat : CodeAt code 0 code := ⟨[], [], (List.append_nil _).symm, rfl⟩
  have hall := fun hp ↦ h code b 0 (start hp) hb hat rfl (hcalled hp)
  obtain ⟨-, hreturns⟩ := (hall 0).2 (by decide)
  have hinside := (State.Runs.push (s := (start 0).entered) (by decide) 5).append
    (State.Runs.push (by decide) 7)
  have hcells : ∀ a, 3 ≤ a → (((start 0).entered.memory.set 2 5).set 1 7).get a
      = (start 0).entered.memory.get a := fun a ha ↦
    (Memory.get_set_of_ne _ (by omega) _).trans (Memory.get_set_of_ne _ (by omega) _)
  obtain ⟨w, hw, hreturned⟩ :=
    hreturns _ (hinside.reaches code b hb hat.left.right) hinside.ip ⟨rfl, hcells⟩
  exact ⟨e, b, hf, hb, ⟨w, hw, Int.ofNat_inj.1 hreturned.ip, hreturned.sp,
    hreturned.top.trans (by decide), hreturned.fp.trans (by decide)⟩, (hall 3).1 (by decide)⟩

end Returning

end ObjectLet
