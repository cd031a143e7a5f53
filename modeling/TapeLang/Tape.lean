/-!
# The tape

Byte cells indexed from zero. A cell is allocated, with every cell before it,
when an instruction first looks at it; a cell past the allocated ones reads as
zero. Main statements: allocation changes no value (`get_allocate`), and a
write changes one value (`get_set`).
-/

namespace TapeLang

/-- The allocated cells of a tape. -/
structure Tape where
  cells : Array UInt8 := #[]
  deriving DecidableEq

namespace Tape

def size (t : Tape) : Nat := t.cells.size

/-- The value of a cell, zero past the allocated ones. -/
def get (t : Tape) (index : Nat) : UInt8 := t.cells.getD index 0

/-- Allocate the cells up to an index. -/
def allocate (t : Tape) (index : Nat) : Tape :=
  if index < t.cells.size then t
  else ⟨t.cells ++ Array.replicate (index + 1 - t.cells.size) 0⟩

/-- Write a cell, allocating up to it. -/
def set (t : Tape) (index : Nat) (value : UInt8) : Tape :=
  ⟨(t.allocate index).cells.setIfInBounds index value⟩

/-- A new tape has no cells. -/
@[simp] theorem size_empty : ({} : Tape).size = 0 := rfl

/-- A new tape reads as zero. -/
@[simp] theorem get_empty (index : Nat) : ({} : Tape).get index = 0 := by
  simp [get]

/-- Allocation ends past the index and frees nothing. -/
theorem size_allocate (t : Tape) (index : Nat) :
    (t.allocate index).size = max t.size (index + 1) := by
  unfold allocate size
  split
  · omega
  · simp only [Array.size_append, Array.size_replicate]
    omega

/-- Allocation changes no value. -/
@[simp] theorem get_allocate (t : Tape) (index j : Nat) :
    (t.allocate index).get j = t.get j := by
  unfold allocate get
  split
  · rfl
  · simp only [Array.getD_eq_getD_getElem?, Array.getElem?_append, Array.getElem?_replicate]
    split
    · rfl
    · rename_i h
      rw [Array.getElem?_eq_none (Nat.le_of_not_lt h)]
      split <;> rfl

/-- A second allocation changes nothing. -/
@[simp] theorem allocate_allocate (t : Tape) (index : Nat) :
    (t.allocate index).allocate index = t.allocate index := by
  have hsize : index < (t.allocate index).cells.size := by
    have := size_allocate t index
    unfold size at this
    omega
  rw [allocate, if_pos hsize]

/-- A write allocates up to its cell. -/
theorem size_set (t : Tape) (index : Nat) (value : UInt8) :
    (t.set index value).size = max t.size (index + 1) := by
  rw [← size_allocate]
  simp [set, size]

/-- A write changes the value of its cell and of no other. -/
theorem get_set (t : Tape) (index : Nat) (value : UInt8) (j : Nat) :
    (t.set index value).get j = if j = index then value else t.get j := by
  have hsize := size_allocate t index
  unfold size at hsize
  rw [← get_allocate t index j]
  simp only [set, get, Array.getD_eq_getD_getElem?, Array.getElem?_setIfInBounds]
  by_cases h : j = index
  · subst h
    have hj : j < (t.allocate j).cells.size := by omega
    simp [hj]
  · simp [h, Ne.symm h]

end Tape

end TapeLang
