/-!
# Memory

The memory of the machine is a row of `size` cells, all of them 0 at first.  Most of them are never
written, whatever the size, so only the written ones are kept: in a binary tree with cell 0 at the
root, the odd cells 1, 3, 5, … as the cells 0, 1, 2, … of the tree on the left, and the even cells
2, 4, 6, … as those of the tree on the right.

`Memory.get_set` is all there is to know about it: a write changes the cell it goes to and no other.
-/

set_option autoImplicit false

namespace ObjectLet

/-! ## Cells -/

/-- Cells that hold 0 unless something was written to them. -/
inductive Cells where
  /-- No cell below here was ever written. -/
  | blank
  /-- A cell with the two halves of what is below it. -/
  | node (value : Int32) (left right : Cells)
deriving DecidableEq

namespace Cells

/-- What a cell holds. -/
def get : Cells → Nat → Int32
  | .blank, _ => 0
  | .node v _ _, 0 => v
  | .node _ l r, a + 1 => if a % 2 = 0 then l.get (a / 2) else r.get (a / 2)

/-- What the root holds. -/
def value : Cells → Int32
  | .blank => 0
  | .node v _ _ => v

/-- The cells below the root on the left. -/
def left : Cells → Cells
  | .blank => .blank
  | .node _ l _ => l

/-- The cells below the root on the right. -/
def right : Cells → Cells
  | .blank => .blank
  | .node _ _ r => r

theorem get_zero (c : Cells) : c.get 0 = c.value := by cases c <;> rfl

theorem get_succ (c : Cells) (a : Nat) :
    c.get (a + 1) = if a % 2 = 0 then c.left.get (a / 2) else c.right.get (a / 2) := by
  cases c with
  | blank => simp [get, left, right]
  | node v l r => rfl

/-- Writes a cell that is at most `depth` steps away from the root.  The depth is only there for the
recursion; a cell further away is not written. -/
def setWithin : Nat → Cells → Nat → Int32 → Cells
  | _, c, 0, v => .node v c.left c.right
  | 0, c, _ + 1, _ => c
  | depth + 1, c, a + 1, v =>
    if a % 2 = 0 then .node c.value (setWithin depth c.left (a / 2) v) c.right
    else .node c.value c.left (setWithin depth c.right (a / 2) v)

/-- Writes a cell. -/
def set (c : Cells) (a : Nat) (v : Int32) : Cells := setWithin a c a v

theorem get_setWithin {depth a : Nat} (h : a ≤ depth) (c : Cells) (v : Int32) (b : Nat) :
    (setWithin depth c a v).get b = if b = a then v else c.get b := by
  induction depth generalizing c a b with
  | zero =>
    obtain rfl : a = 0 := Nat.le_zero.mp h
    cases b with
    | zero => simp [setWithin, get]
    | succ b => rw [get_succ c]; simp [setWithin, get]
  | succ depth ih =>
    cases a with
    | zero =>
      cases b with
      | zero => simp [setWithin, get]
      | succ b => rw [get_succ c]; simp [setWithin, get]
    | succ a =>
      have hle : a / 2 ≤ depth := by omega
      rw [setWithin]
      cases b with
      | zero => split <;> simp [get, get_zero]
      | succ b =>
        rw [get_succ c]
        by_cases hp : a % 2 = 0 <;> by_cases hb : b % 2 = 0
        · have : b / 2 = a / 2 ↔ b = a := by omega
          simp [hp, hb, get, ih hle, this]
        · have : b ≠ a := fun e ↦ hb (e ▸ hp)
          simp [hp, hb, get, this]
        · have : b ≠ a := fun e ↦ hp (e ▸ hb)
          simp [hp, hb, get, this]
        · have : b / 2 = a / 2 ↔ b = a := by omega
          simp [hp, hb, get, ih hle, this]

/-- A write changes the cell it goes to and no other. -/
theorem get_set (c : Cells) (a : Nat) (v : Int32) (b : Nat) :
    (c.set a v).get b = if b = a then v else c.get b :=
  get_setWithin (Nat.le_refl a) c v b

/-- The written cells with their addresses, if cell `i` of the tree has the address
`first + stride * i`. -/
def written (first stride : Nat) : Cells → List (Nat × Int32)
  | .blank => []
  | .node v l r =>
    (first, v) :: (l.written (first + stride) (2 * stride)
      ++ r.written (first + 2 * stride) (2 * stride))

end Cells

/-! ## Memory -/

/-- The memory of a machine. -/
structure Memory where
  /-- How many cells there are. -/
  size : Nat
  /-- What they hold. -/
  cells : Cells
deriving DecidableEq

namespace Memory

/-- Memory in which every cell is 0. -/
def blank (size : Nat) : Memory := ⟨size, .blank⟩

/-- What a cell holds. -/
def get (m : Memory) (a : Nat) : Int32 := m.cells.get a

/-- Writes a cell. -/
def set (m : Memory) (a : Nat) (v : Int32) : Memory := { m with cells := m.cells.set a v }

/-- Sets every cell to 0. -/
def clear (m : Memory) : Memory := blank m.size

/-- The cells that do not hold 0, by address. -/
def nonzero (m : Memory) : List (Nat × Int32) :=
  ((m.cells.written 0 1).filter fun p ↦ p.2 != 0).mergeSort fun p q ↦ p.1 ≤ q.1

@[simp] theorem size_set (m : Memory) (a : Nat) (v : Int32) : (m.set a v).size = m.size := rfl

@[simp] theorem size_clear (m : Memory) : m.clear.size = m.size := rfl

@[simp] theorem get_blank (size a : Nat) : (blank size).get a = 0 := rfl

/-- A write changes the cell it goes to and no other. -/
theorem get_set (m : Memory) (a : Nat) (v : Int32) (b : Nat) :
    (m.set a v).get b = if b = a then v else m.get b :=
  Cells.get_set m.cells a v b

end Memory

end ObjectLet
