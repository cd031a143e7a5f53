import TapeLang.Instruction

/-!
# Transition tables

A table holds for each pair of cell values a word of instructions that takes a
cell from the first value to the second. A word may end to the right of where
it started, so it is meant for a cell with only zeros to its right.
-/

namespace TapeLang.Transition

/-- A sequence of instructions. -/
abbrev Word := Array Instruction

/-- Every value of a cell, increasing. -/
def allValues : List UInt8 := (List.range 256).map UInt8.ofNat

/-- The words that start at one value, one for each value they lead to. -/
abbrev Row := Vector Word 256

namespace Row

/-- The word that leads to a value. -/
def word (r : Row) (target : UInt8) : Word := r[target.toFin]

def setWord (r : Row) (target : UInt8) (w : Word) : Row := Vector.set r target.toNat w target.toNat_lt

/-- A replaced word is found in its place, and every other word stays where it was. -/
theorem word_setWord (r : Row) (target : UInt8) (w : Word) (other : UInt8) :
    (r.setWord target w).word other = if other = target then w else r.word other := by
  simp [word, setWord, Vector.getElem_set, UInt8.toNat_inj, eq_comm]

end Row

/-- A row for each value a word can start at. -/
structure Table where
  rows : Vector Row 256

namespace Table

def row (t : Table) (start : UInt8) : Row := t.rows[start.toFin]

def setRow (t : Table) (start : UInt8) (r : Row) : Table :=
  ⟨t.rows.set start.toNat r start.toNat_lt⟩

/-- The word that takes a cell from one value to another. -/
def word (t : Table) (start target : UInt8) : Word := (t.row start).word target

def cost (t : Table) (start target : UInt8) : Nat := (t.word start target).size

def ofFn (f : UInt8 → UInt8 → Word) : Table where
  rows := Vector.ofFn fun start ↦ Vector.ofFn fun target ↦
    f (UInt8.ofNat start.val) (UInt8.ofNat target.val)

/-- A replaced row is found in its place, and every other row stays where it was. -/
theorem row_setRow (t : Table) (start : UInt8) (r : Row) (other : UInt8) :
    (t.setRow start r).row other = if other = start then r else t.row other := by
  simp [row, setRow, Vector.getElem_set, UInt8.toNat_inj, eq_comm]

/-- The words of a table are those it was made of. -/
@[simp] theorem word_ofFn (f : UInt8 → UInt8 → Word) (start target : UInt8) :
    (ofFn f).word start target = f start target := by
  simp [word, row, Row.word, ofFn]

end Table

/-- The shortest signed distance between two values modulo 256. Half the way around keeps the sign of the
difference. -/
def distance (start target : UInt8) : Int :=
  let d : Int := target.toNat - start.toNat
  if 128 < d then d - 256 else if d < -128 then d + 256 else d

/-- Increments or decrements over the distance between two values. -/
def unaryWord (start target : UInt8) : Word :=
  let d := distance start target
  Array.replicate d.natAbs (if 0 ≤ d then .increment else .decrement)

def Table.unary : Table := .ofFn unaryWord

/-- The words of the unary table. -/
@[simp] theorem Table.word_unary (start target : UInt8) :
    Table.unary.word start target = unaryWord start target :=
  word_ofFn unaryWord start target

/-- A unary word is as long as the distance it covers. -/
theorem size_unaryWord (start target : UInt8) :
    (unaryWord start target).size = (distance start target).natAbs := by
  simp [unaryWord]

/-- Figures over all words of a table. -/
structure Summary where
  /-- The greatest number of instructions of a word. -/
  longest : Nat := 0
  /-- The number of instructions of all words together. -/
  total : Nat := 0
  /-- The number of words that hold a loop. -/
  withLoop : Nat := 0

def Summary.add (s : Summary) (w : Word) : Summary where
  longest := max s.longest w.size
  total := s.total + w.size
  withLoop := if w.contains .loopStart then s.withLoop + 1 else s.withLoop

def Table.summary (t : Table) : Summary :=
  t.rows.foldl (fun s (r : Row) ↦ r.foldl Summary.add s) {}

end TapeLang.Transition
