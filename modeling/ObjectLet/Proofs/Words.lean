import ObjectLet.Proofs.Bounds

/-!
# The machine in words

In a `State` the stack pointer is a number and every address has a cell.  Here is the machine once
more, with registers that are words and a memory that is an array.  What it takes for granted it
takes for granted here as well: that `sp` can be decremented and incremented, that there is a cell
at `sp` and a word of code at `ip`, and that a cell whose address has been checked is there.  Where
that is not so, a run ends, and `none` stands in the place of the fault.

This never happens.  The machine in words does what the other one does
(`Words.Pictures`), for any code.

* `Words.mirrors_operation`, `Words.mirrors_execute`: **nothing is out of range in an instruction.**
* `Words.tracks_courseAfter`: **nor is it in a run.**
-/

set_option autoImplicit false

namespace ObjectLet

/-! ## States -/

/-- The state of the machine in words.  Counters of code and of steps are numbers here as well,
since they are no words in the machine either. -/
structure Words where
  /-- The memory cells. -/
  memory : Array Int32
  /-- The address of the next word of code. -/
  ip : Nat
  /-- The stack pointer. -/
  sp : Int32
  /-- The frame pointer. -/
  fp : Int32
  /-- The heap pointer. -/
  hp : Int32
  /-- The return address. -/
  ra : Int32
  /-- The temporary value. -/
  tm : Int32
  /-- How many instructions have been started. -/
  steps : Nat
  /-- What has been written. -/
  output : Output

/-- Part of the execution of an instruction.  If it fails, then with a fault, or with `none` if
something is out of range. -/
abbrev Raw := EStateM (Option Fault) Words

namespace Words

/-- The address above the memory. -/
def top (w : Words) : Int32 := Int32.ofNat w.memory.size

/-- The state in which a run begins. -/
def boot (size : Nat) (output : Output) : Words where
  memory := Array.replicate size 0
  ip := 0
  sp := Int32.ofNat size
  fp := Int32.ofNat size
  hp := 0
  ra := 0
  tm := 0
  steps := 0
  output := output

/-- Makes the machine ready for another run. -/
def reset (w : Words) (output : Output) : Words := boot w.memory.size output

/-! ## What may be out of range -/

/-- The word for a number, which has to be one that a word can hold.  Otherwise
something is out of range. -/
def word (i : Int) : Raw Int32 :=
  if -2147483648 ≤ i ∧ i ≤ 2147483647 then pure (Int32.ofInt i) else throw none

/-- The word at an index, which has to be in the array; otherwise something is out of range. -/
def index (a : Array Int32) (i : Int) : Raw Int32 :=
  if 0 ≤ i then
    match a[i.toNat]? with
    | some w => pure w
    | none => throw none
  else throw none

/-- Writes the cell at an index, which has to be in the memory; otherwise something is out of
range. -/
def store (i : Int) (v : Int32) : Raw Unit := do
  let w ← get
  if 0 ≤ i ∧ i < w.memory.size then set { w with memory := w.memory.setIfInBounds i.toNat v }
  else throw none

/-! ## What instructions are made of -/

/-- Pushes a value, unless the stack would meet the heap.  The stack pointer is decremented
before that is checked. -/
def push (v : Int32) : Raw Unit := do
  let w ← get
  let sp ← word (w.sp.toInt - 1)
  if sp ≤ w.hp ∨ sp < 0 then throw (some (.collision sp.toInt w.hp))
  else
    set { w with sp }
    store sp.toInt v

/-- Pops a value.  The stack pointer is incremented after the value has been read. -/
def pop (ip : Nat) : Raw Int32 := do
  let w ← get
  if w.top ≤ w.sp then throw (some (.stackUnderflow ip))
  else
    let v ← index w.memory w.sp.toInt
    let sp ← word (w.sp.toInt + 1)
    set { w with sp }
    return v

/-- Reads the operand of an instruction. -/
def operand (code : Array Int32) (ip : Nat) : Raw Int32 := do
  let w ← get
  match code[w.ip]? with
  | none => throw (some (.truncatedInstruction ip))
  | some v =>
    set { w with ip := w.ip + 1 }
    return v

/-- Goes on at another address, if that is in the code or at its end. -/
def jump (code : Array Int32) (target : Int32) (ip : Nat) : Raw Unit := do
  if 0 ≤ target.toInt ∧ target.toInt ≤ code.size then
    modify fun w ↦ { w with ip := target.toInt.toNat }
  else throw (some (.invalidJump target ip))

/-- The index of the cell that an address refers to. -/
def cell (address : Int32) (ip : Nat) : Raw Nat := do
  let w ← get
  if 0 ≤ address.toInt ∧ address.toInt < w.memory.size then return address.toInt.toNat
  else throw (some (.invalidAddress address ip))

/-- Replaces the two topmost values by the result of an operation on them. -/
def binary (ip : Nat) (op : Int32 → Int32 → Except Fault Int32) : Raw Unit := do
  let v1 ← pop ip
  let v2 ← pop ip
  match op v2 v1 with
  | .ok v => push v
  | .error f => throw (some f)

/-- Writes a line of output. -/
def write (l : Line) : Raw Unit := do
  let w ← get
  match w.output.write? l with
  | some output => set { w with output }
  | none => throw (some .outputClosed)

/-- Prints the top of the stack, or says that there is none. -/
def print (ip : Nat) : Raw Unit := do
  let w ← get
  if w.top ≤ w.sp then write .emptyStack
  else
    let v ← pop ip
    write (.value v)

/-! ## Instructions -/

/-- Executes an operation without an operand. -/
def operation (code : Array Int32) (ip : Nat) : Operation → Raw Signal
  | .pop => do
    let _ ← pop ip
    return .next
  | .add => do
    binary ip fun v2 v1 ↦ .ok (v2 + v1)
    return .next
  | .sub => do
    binary ip fun v2 v1 ↦ .ok (v2 - v1)
    return .next
  | .mult => do
    binary ip fun v2 v1 ↦ .ok (v2 * v1)
    return .next
  | .div => do
    binary ip (divide ip)
    return .next
  | .storeWord => do
    let address ← pop ip
    let value ← pop ip
    let a ← cell address ip
    store a value
    return .next
  | .loadWord => do
    let address ← pop ip
    let a ← cell address ip
    let v ← index (← get).memory a
    push v
    return .next
  | .jumpSub => do
    let target ← pop ip
    modify fun w ↦ { w with ra := Int32.ofNat w.ip }
    jump code target ip
    return .next
  | .loadRa => do
    push (← get).ra
    return .next
  | .storeRa => do
    let v ← pop ip
    modify fun w ↦ { w with ra := v }
    return .next
  | .loadTm => do
    push (← get).tm
    return .next
  | .storeTm => do
    let v ← pop ip
    modify fun w ↦ { w with tm := v }
    return .next
  | .loadFp => do
    push (← get).fp
    return .next
  | .storeFp => do
    let v ← pop ip
    modify fun w ↦ { w with fp := v }
    return .next
  | .copyFp => do
    modify fun w ↦ { w with fp := w.sp }
    return .next
  | .loadHp => do
    push (← get).hp
    return .next
  | .storeHp => do
    let v ← pop ip
    modify fun w ↦ { w with hp := v }
    return .next
  | .print => do
    print ip
    return .next
  | .halt => return .stop

/-- Executes a jump. -/
def jumpIf (code : Array Int32) (ip : Nat) (j : Jump) : Raw Unit := do
  let target ← operand code ip
  match j with
  | .always => jump code target ip
  | .ifEq =>
    let v1 ← pop ip
    let v2 ← pop ip
    if v2 = v1 then jump code target ip
  | .ifLessEq =>
    let v1 ← pop ip
    let v2 ← pop ip
    if v2 ≤ v1 then jump code target ip

/-- Executes the instruction at `ip`, where there has to be a word. -/
def execute (code : Array Int32) : Raw Signal := do
  let ip := (← get).ip
  let word ← index code ip
  match Opcode.ofWord? word with
  | none => throw (some (.invalidOpcode word ip))
  | some opcode =>
    modify fun w ↦ { w with ip := w.ip + 1 }
    match opcode with
    | .push =>
      let v ← operand code ip
      push v
      return .next
    | .jump j =>
      jumpIf code ip j
      return .next
    | .plain op => operation code ip op

/-! ## Turns and runs -/

/-- The fault that stack and heap have met. -/
def clash? (w : Words) : Option (Option Fault) :=
  if w.sp ≤ w.hp then some (some (.collision w.sp.toInt w.hp)) else none

/-- One turn of the loop. -/
def turn (limit : Option Nat) (code : Array Int32) (w : Words) : Course Words (Option Fault) :=
  if w.ip < code.size then
    match limitReached? limit w.steps with
    | some l => .faulted (some (.stepLimitExceeded l)) w
    | none => .ofResult clash? (execute code { w with steps := w.steps + 1 })
  else .finished w

/-- How far a run has got after some turns. -/
def courseAfter (limit : Option Nat) (code : Array Int32) (n : Nat) (w : Words) :
    Course Words (Option Fault) :=
  .after (turn limit code) n w

/-! ## The two machines -/

/-- The machine in words looks like the other one, and everything in it is in range. -/
structure Pictures (w : Words) (s : State) : Prop where
  /-- The memory has the same size, … -/
  size : w.memory.size = s.memory.size
  /-- … which words can address. -/
  small : s.memory.size < 2 ^ 31
  /-- The cells are the same. -/
  cells : ∀ a < s.memory.size, w.memory[a]? = some (s.memory.get a)
  /-- The stack pointer is the same, … -/
  sp : w.sp.toInt = s.sp
  /-- … and in the memory. -/
  bound : s.sp ≤ s.memory.size
  /-- The counter is the same. -/
  ip : w.ip = s.ip
  /-- The frame pointer is the same. -/
  fp : w.fp = s.fp
  /-- The heap pointer is the same. -/
  hp : w.hp = s.hp
  /-- The return address is the same. -/
  ra : w.ra = s.ra
  /-- The temporary value is the same. -/
  tm : w.tm = s.tm
  /-- The number of instructions is the same. -/
  steps : w.steps = s.steps
  /-- The output is the same. -/
  output : w.output = s.output

/-- A failure of the machine in words is a fault, and not that something is out of range. -/
def IsFault (e : Option Fault) (f : Fault) : Prop := e = some f

/-- A computation with words does the same as another one.  Started in states that look alike it has
the same result, or the same fault, and nothing is out of range. -/
def Mirrors {α : Type} (x : Raw α) (y : Exec α) : Prop :=
  ∀ w s, Pictures w s → Follows Pictures IsFault (x w) (y s)

section Mirrors

variable {α β : Type} {x : Raw α} {y : Exec α} {w : Words} {s : State}

theorem Mirrors.bind {f : α → Raw β} {g : α → Exec β} (hx : Mirrors x y)
    (hf : ∀ a, Mirrors (f a) (g a)) : Mirrors (x >>= f) (y >>= g) :=
  fun w s h ↦ Follows.bind (hx w s h) fun a u v _ huv ↦ hf a u v huv

theorem mirrors_pure (a : α) : Mirrors (pure a) (pure a) := fun _ _ h ↦ .ok h

theorem mirrors_throw (f : Fault) : Mirrors (throw (some f) : Raw α) (throw f) :=
  fun _ _ h ↦ .error rfl h

theorem Mirrors.modify {g : Words → Words} {g' : State → State} {k : Unit → Raw α}
    {k' : Unit → Exec α} (hg : ∀ w s, Pictures w s → Pictures (g w) (g' s))
    (h : Mirrors (k ()) (k' ())) : Mirrors (modify g >>= k) (modify g' >>= k') :=
  fun w s hw ↦ h (g w) (g' s) (hg w s hw)

theorem Mirrors.get {f : Words → Raw α} {g : State → Exec α}
    (h : ∀ w s, Pictures w s → Follows Pictures IsFault (f w w) (g s s)) :
    Mirrors (get >>= f) (get >>= g) := h

/-! ## Nothing is out of range -/

theorem word_eq {i : Int} (h : -2147483648 ≤ i) (h' : i ≤ 2147483647) :
    word i = pure (Int32.ofInt i) := if_pos ⟨h, h'⟩

theorem index_eq {a : Array Int32} {k : Nat} {v : Int32} (h : a[k]? = some v) :
    index a k = pure v := by
  rw [index, if_pos (Int.natCast_nonneg k), Int.toNat_natCast, h]

/-- A cell in range is written. -/
theorem follows_store (h : Pictures w s) {k : Nat} (hk : k < s.memory.size) (v : Int32) :
    Follows Pictures IsFault (store k v w) (.ok () { s with memory := s.memory.set k v }) := by
  have hsize := h.size
  have hstore : store k v w = .ok () { w with memory := w.memory.setIfInBounds k v } := by
    show (if (0 : Int) ≤ k ∧ (k : Int) < w.memory.size then _ else _ : Raw Unit) w = _
    rw [if_pos (by omega), Int.toNat_natCast]
    rfl
  rw [hstore]
  refine .ok { h with size := by simpa using hsize, cells := fun a ha ↦ ?_ }
  have ha' : a < s.memory.size := ha
  rw [Array.getElem?_setIfInBounds, Memory.get_set]
  by_cases hak : k = a
  · rw [if_pos hak, if_pos (by omega), if_pos hak.symm]
  · rw [if_neg hak, if_neg (Ne.symm hak), h.cells a ha']

theorem mirrors_push (v : Int32) : Mirrors (push v) (Exec.push v) := by
  intro w s h
  have hsp := h.sp
  have hsmall := h.small
  have hbound := h.bound
  have hint : (Int32.ofInt (s.sp - 1)).toInt = s.sp - 1 :=
    Int32.toInt_ofInt_of_le (by omega) (by omega)
  have hword : word (w.sp.toInt - 1) = pure (Int32.ofInt (s.sp - 1)) := by
    rw [hsp]
    exact word_eq (by omega) (by omega)
  have hpush : push v w =
      (if Int32.ofInt (s.sp - 1) ≤ w.hp ∨ Int32.ofInt (s.sp - 1) < 0 then
        throw (some (.collision (Int32.ofInt (s.sp - 1)).toInt w.hp))
      else do
        set { w with sp := Int32.ofInt (s.sp - 1) }
        store (Int32.ofInt (s.sp - 1)).toInt v : Raw Unit) w := by
    show (word (w.sp.toInt - 1) >>= _) w = _
    rw [hword]
    rfl
  have hmeets : (Int32.ofInt (s.sp - 1) ≤ w.hp ∨ Int32.ofInt (s.sp - 1) < 0) ↔
      ((s.sp : Int) - 1 ≤ s.hp.toInt ∨ (s.sp : Int) - 1 < 0) := by
    rw [Int32.le_iff_toInt_le, Int32.lt_iff_toInt_lt, hint, h.hp]
    rfl
  rw [hpush, Exec.push_apply]
  by_cases hfull : (s.sp : Int) - 1 ≤ s.hp.toInt ∨ (s.sp : Int) - 1 < 0
  · rw [if_pos (hmeets.2 hfull), if_pos hfull, hint, h.hp]
    exact .error rfl h
  · rw [if_neg (mt hmeets.1 hfull), if_neg hfull]
    have hindex : (Int32.ofInt (s.sp - 1)).toInt = (s.sp - 1 : Nat) := by omega
    have hbelow : Pictures { w with sp := Int32.ofInt (s.sp - 1) } { s with sp := s.sp - 1 } :=
      { h with sp := hindex, bound := Nat.le_trans (Nat.sub_le _ _) hbound }
    show Follows _ _
      (store (Int32.ofInt (s.sp - 1)).toInt v { w with sp := Int32.ofInt (s.sp - 1) }) _
    rw [hindex]
    exact follows_store hbelow (by show s.sp - 1 < s.memory.size; omega) v

/-- Whether the stack is empty. -/
theorem top_le_iff (h : Pictures w s) : w.top ≤ w.sp ↔ s.memory.size ≤ s.sp := by
  have hsmall := h.small
  rw [top, h.size, Int32.le_iff_toInt_le, Int32.toInt_ofNat_of_lt (by omega), h.sp, Int.ofNat_le]

theorem mirrors_pop (ip : Nat) : Mirrors (pop ip) (Exec.pop ip) := by
  intro w s h
  have hsmall := h.small
  rw [Exec.pop_apply]
  show Follows _ _ ((if w.top ≤ w.sp then _ else _ : Raw Int32) w) _
  by_cases hempty : s.memory.size ≤ s.sp
  · rw [if_pos ((top_le_iff h).2 hempty), if_pos hempty]
    exact .error rfl h
  · rw [if_neg (mt (top_le_iff h).1 hempty), if_neg hempty, h.sp,
      index_eq (h.cells s.sp (Nat.lt_of_not_le hempty)), pure_bind, word_eq (by omega) (by omega),
      pure_bind]
    refine .ok { h with sp := ?_, bound := ?_ }
    · exact Int32.toInt_ofInt_of_le (by omega) (by omega)
    · exact Nat.lt_of_not_le hempty

theorem mirrors_operand (code : Array Int32) (ip : Nat) :
    Mirrors (operand code ip) (Exec.operand code ip) := by
  intro w s h
  show Follows _ _ ((match code[w.ip]? with | none => _ | some v => _ : Raw Int32) w)
    ((match code[s.ip]? with | none => _ | some v => _ : Exec Int32) s)
  rw [h.ip]
  cases code[s.ip]? with
  | none => exact .error rfl h
  | some v => exact .ok { h with ip := rfl }

theorem mirrors_jump (code : Array Int32) (target : Int32) (ip : Nat) :
    Mirrors (jump code target ip) (Exec.jump code target ip) := by
  intro w s h
  rw [jump, Exec.jump]
  split
  · exact .ok { h with ip := rfl }
  · exact .error rfl h

theorem mirrors_cell (address : Int32) (ip : Nat) :
    Mirrors (cell address ip) (Exec.cell address ip) := by
  intro w s h
  rw [Exec.cell_apply]
  show Follows _ _
    ((if 0 ≤ address.toInt ∧ address.toInt < w.memory.size then _ else _ : Raw Nat) w) _
  rw [h.size]
  split
  · exact .ok h
  · exact .error rfl h

theorem mirrors_binary (ip : Nat) (op : Int32 → Int32 → Except Fault Int32) :
    Mirrors (binary ip op) (Exec.binary ip op) := by
  refine (mirrors_pop ip).bind fun v1 ↦ (mirrors_pop ip).bind fun v2 ↦ ?_
  cases op v2 v1 with
  | ok v => exact mirrors_push v
  | error f => exact mirrors_throw f

theorem mirrors_write (l : Line) : Mirrors (write l) (Exec.write l) := by
  intro w s h
  rw [Exec.write_apply]
  show Follows _ _ ((match w.output.write? l with | some output => _ | none => _ : Raw Unit) w) _
  rw [h.output]
  cases s.output.write? l with
  | some output => exact .ok { h with output := rfl }
  | none => exact .error rfl h

theorem mirrors_print (ip : Nat) : Mirrors (print ip) (Exec.print ip) := by
  refine .get fun w s h ↦ ?_
  by_cases hempty : s.memory.size ≤ s.sp
  · rw [if_pos ((top_le_iff h).2 hempty), if_pos hempty]
    exact mirrors_write _ w s h
  · rw [if_neg (mt (top_le_iff h).1 hempty), if_neg hempty]
    exact (mirrors_pop ip).bind (fun v ↦ mirrors_write _) w s h

/-! ## Instructions and turns -/

/-- A checked address is that of a cell. -/
theorem lt_of_cell {address : Int32} {ip k : Nat} {t : State}
    (h : Exec.cell address ip s = .ok k t) : k < t.memory.size := by
  rw [Exec.cell_apply] at h
  split at h
  · cases h
    omega
  · cases h

/-- A register is pushed. -/
theorem mirrors_load {f : Words → Int32} {g : State → Int32}
    (hregister : ∀ w s, Pictures w s → f w = g s) :
    Mirrors (get >>= fun w ↦ push (f w) >>= fun _ ↦ pure Signal.next)
      (get >>= fun s ↦ Exec.push (g s) >>= fun _ ↦ pure Signal.next) := by
  refine .get fun w s h ↦ ?_
  rw [hregister w s h]
  exact (mirrors_push _).bind (fun _ ↦ mirrors_pure _) w s h

/-- **Nothing is out of range in an operation.** The stack pointer stays in the memory, and words
can address that. -/
theorem mirrors_operation (code : Array Int32) (ip : Nat) (op : Operation) :
    Mirrors (operation code ip op) (Exec.operation code ip op) := by
  have hpop := mirrors_pop ip
  have hnext : Mirrors (pure Signal.next) (pure Signal.next) := mirrors_pure _
  cases op with
  | pop => exact hpop.bind fun _ ↦ hnext
  | add | sub | mult | div => exact (mirrors_binary ip _).bind fun _ ↦ hnext
  | storeWord =>
    refine hpop.bind fun a ↦ hpop.bind fun v ↦ ?_
    intro w s h
    refine Follows.bind (mirrors_cell a ip w s h) fun k u t hk hu ↦ ?_
    have hstore : Follows Pictures IsFault (store k v u)
        ((modify fun s ↦ { s with memory := s.memory.set k v } : Exec Unit) t) :=
      follows_store hu (lt_of_cell hk) v
    exact Follows.bind hstore fun _ u t _ hu ↦ .ok hu
  | loadWord =>
    refine hpop.bind fun a ↦ ?_
    intro w s h
    refine Follows.bind (mirrors_cell a ip w s h) fun k u t hk hu ↦ ?_
    show Follows _ _ ((index u.memory k >>= _) u) _
    rw [index_eq (hu.cells k (lt_of_cell hk)), pure_bind]
    exact (mirrors_push _).bind (fun _ ↦ hnext) u t hu
  | jumpSub =>
    refine hpop.bind fun a ↦ .modify (fun w s h ↦ ?_) ((mirrors_jump code a ip).bind fun _ ↦ hnext)
    exact { h with ra := congrArg Int32.ofNat h.ip }
  | loadRa => exact mirrors_load fun _ _ h ↦ h.ra
  | loadTm => exact mirrors_load fun _ _ h ↦ h.tm
  | loadFp => exact mirrors_load fun _ _ h ↦ h.fp
  | loadHp => exact mirrors_load fun _ _ h ↦ h.hp
  | storeRa => exact hpop.bind fun v ↦ .modify (fun w s h ↦ { h with ra := rfl }) hnext
  | storeTm => exact hpop.bind fun v ↦ .modify (fun w s h ↦ { h with tm := rfl }) hnext
  | storeFp => exact hpop.bind fun v ↦ .modify (fun w s h ↦ { h with fp := rfl }) hnext
  | storeHp => exact hpop.bind fun v ↦ .modify (fun w s h ↦ { h with hp := rfl }) hnext
  | copyFp =>
    refine .modify (fun w s h ↦ { h with fp := ?_ }) hnext
    have hsmall := h.small
    have hbound := h.bound
    rw [← Int32.toInt_inj, h.sp, Int32.toInt_ofNat_of_lt (by omega)]
  | print => exact (mirrors_print ip).bind fun _ ↦ hnext
  | halt => exact mirrors_pure _

theorem mirrors_jumpIf (code : Array Int32) (ip : Nat) (j : Jump) :
    Mirrors (jumpIf code ip j) (Exec.jumpIf code ip j) := by
  have hpop := mirrors_pop ip
  have htest : ∀ (p : Prop) [Decidable p] (target : Int32),
      Mirrors (if p then jump code target ip else pure ())
        (if p then Exec.jump code target ip else pure ()) := by
    intro p _ target
    split
    · exact mirrors_jump code target ip
    · exact mirrors_pure _
  refine (mirrors_operand code ip).bind fun target ↦ ?_
  cases j with
  | always => exact mirrors_jump code target ip
  | ifEq | ifLessEq => exact hpop.bind fun v1 ↦ hpop.bind fun v2 ↦ htest _ target

/-- **Nothing is out of range in an instruction.** -/
theorem mirrors_execute {code : Array Int32} {v : Int32} (h : Pictures w s)
    (hword : code[s.ip]? = some v) :
    Follows Pictures IsFault (execute code w) (Exec.execute code v s) := by
  have hnext : Mirrors (pure Signal.next) (pure Signal.next) := mirrors_pure _
  have hindex : index code w.ip = pure v := by
    rw [h.ip]
    exact index_eq hword
  show Follows _ _ ((index code w.ip >>= _) w) _
  rw [hindex, pure_bind]
  simp only [Exec.execute, Exec.get_bind, h.ip]
  cases Opcode.ofWord? v with
  | none => exact .error rfl h
  | some opcode =>
    have hstart : Pictures { w with ip := w.ip + 1 } { s with ip := s.ip + 1 } :=
      { h with ip := congrArg (· + 1) h.ip }
    cases opcode with
    | push =>
      exact (mirrors_operand code s.ip).bind (fun v ↦ (mirrors_push v).bind fun _ ↦ hnext) _ _
        hstart
    | jump j => exact (mirrors_jumpIf code s.ip j).bind (fun _ ↦ hnext) _ _ hstart
    | plain op => exact mirrors_operation code s.ip op _ _ hstart

/-- Stack and heap meet in both machines, or in none of them. -/
theorem clash?_pictures (w : Words) (s : State) (h : Pictures w s) :
    (∃ e f, w.clash? = some e ∧ s.clash? = some f ∧ IsFault e f) ∨
      w.clash? = none ∧ s.clash? = none := by
  have hmeets : w.sp ≤ w.hp ↔ (s.sp : Int) ≤ s.hp.toInt := by
    rw [Int32.le_iff_toInt_le, h.sp, h.hp]
  rw [clash?, State.clash?]
  by_cases hclash : (s.sp : Int) ≤ s.hp.toInt
  · rw [if_pos (hmeets.2 hclash), if_pos hclash]
    exact .inl ⟨_, _, rfl, rfl, by rw [h.sp, h.hp]; rfl⟩
  · rw [if_neg (mt hmeets.1 hclash), if_neg hclash]
    exact .inr ⟨rfl, rfl⟩

theorem tracks_turn (limit : Option Nat) (code : Array Int32) (h : Pictures w s) :
    Course.Tracks Pictures IsFault (w.turn limit code) (s.turn limit code).course := by
  rw [turn]
  cases hword : code[s.ip]? with
  | none =>
    have hend : ¬w.ip < code.size := by
      rw [h.ip]
      exact Nat.not_lt_of_le (Array.getElem?_eq_none_iff.1 hword)
    rw [if_neg hend, State.turn, hword]
    exact .finished h
  | some v =>
    have hlt : w.ip < code.size := by
      rw [h.ip]
      exact (Array.getElem?_eq_some_iff.1 hword).1
    rw [if_pos hlt]
    cases hlimit : limitReached? limit s.steps with
    | some l =>
      simp only [State.turn, hword, hlimit, h.steps]
      exact .faulted rfl h
    | none =>
      have hstart : Pictures { w with steps := w.steps + 1 } { s with steps := s.steps + 1 } :=
        { h with steps := congrArg (· + 1) h.steps }
      have hlimit' : limitReached? limit w.steps = none := by
        rw [h.steps]
        exact hlimit
      rw [State.course_turn hword hlimit, hlimit']
      exact Follows.ofResult clash?_pictures (mirrors_execute hstart hword)

/-- **Nothing is out of range in a run**, for any code and however long it goes on. -/
theorem tracks_courseAfter (limit : Option Nat) (code : Array Int32) (n : Nat) (h : Pictures w s) :
    Course.Tracks Pictures IsFault (w.courseAfter limit code n) (s.courseAfter limit code n) :=
  Course.tracks_after h fun _ _ _ _ _ huv ↦ tracks_turn limit code huv

end Mirrors

end Words

end ObjectLet
