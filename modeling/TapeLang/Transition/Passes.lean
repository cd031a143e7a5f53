import TapeLang.Transition.LoopCount
import TapeLang.Transition.Table

/-!
# Shortening a table

A pass has two parts. The first offers to each row the loops that move a value
into the next cell with a factor; the second offers to each pair of values the
words that go over a third value. An offer is taken only if it is strictly
shorter. The table in use is the unary one after two passes.
-/

namespace TapeLang.Transition

/-- A loop that moves the value of its cell into the next one: in each round it changes its own cell by `outer`
in its direction, and the next cell by `inner` the other way. -/
structure MultiplyLoop where
  /-- The direction of the loop's own cell. -/
  direction : Direction
  /-- The change of the loop's own cell in one round. -/
  outer : Nat
  /-- The change of the next cell in one round. -/
  inner : Nat
  deriving DecidableEq

namespace MultiplyLoop

/-- The number of instructions of the loop. -/
def size (l : MultiplyLoop) : Nat := l.outer + l.inner + 5

/-- The loop as a word that ends on the next cell. -/
def word (l : MultiplyLoop) : Word :=
  let (own, next) : Instruction × Instruction := match l.direction with
    | .down => (.decrement, .increment)
    | .up => (.increment, .decrement)
  #[.loopStart] ++ Array.replicate l.outer own ++ #[.right] ++ Array.replicate l.inner next ++
    #[.left, .loopEnd, .right]

/-- The word is as long as it is said to be. -/
theorem size_word (l : MultiplyLoop) : l.word.size = l.size := by
  obtain ⟨direction, outer, inner⟩ := l
  cases direction <;> simp [word, size] <;> omega

/-- The value of a next cell that was zero, after a number of rounds. -/
def landing (l : MultiplyLoop) (rounds : Nat) : UInt8 :=
  let moved := UInt8.ofNat (l.inner * rounds)
  match l.direction with
  | .down => moved
  | .up => 0 - moved

end MultiplyLoop

/-- The factors tried in loops. -/
def factors : List Nat := List.range' 1 39

/-- The factors without a common divisor with `outer`. -/
def coprimeFactors (outer : Nat) : List Nat := factors.filter fun inner ↦ Nat.gcd outer inner = 1

/-- The loops that end when started on a value, each with the value it leads to: by the outer factor, then by the
inner one, and the decrementing loop before the incrementing one. -/
def landings (start : UInt8) : List (MultiplyLoop × UInt8) :=
  factors.flatMap fun outer ↦
    let down := roundsToZero start (UInt8.ofNat outer) .down
    let up := roundsToZero start (UInt8.ofNat outer) .up
    let land (direction : Direction) (inner : Nat) (rounds : Option Nat) :=
      let l : MultiplyLoop := ⟨direction, outer, inner⟩
      (rounds.map fun n ↦ (l, l.landing n)).toList
    (coprimeFactors outer).flatMap fun inner ↦ land .down inner down ++ land .up inner up

namespace Row

/-- Take a loop for the value it leads to if it is shorter than the word there. -/
def offer (r : Row) (candidate : MultiplyLoop × UInt8) : Row :=
  if candidate.1.size < (r.word candidate.2).size then r.setWord candidate.2 candidate.1.word
  else r

/-- Take every shorter loop into the row of a value. -/
def discoverLoops (start : UInt8) (r : Row) : Row := (landings start).foldl offer r

/-- Go on from a first word with the words of a row, wherever that is shorter. -/
def via (r : Row) (first : Word) (onward : Row) : Row :=
  Vector.zipWith (fun present next ↦
    if first.size + next.size < present.size then first ++ next else present) r onward

/-- Each word of the new row is the shorter one, and the present one if both are equally long. -/
theorem word_via (r : Row) (first : Word) (onward : Row) (target : UInt8) :
    (r.via first onward).word target =
      if first.size + (onward.word target).size < (r.word target).size then
        first ++ onward.word target
      else r.word target := by
  simp [word, via]

end Row

namespace Table

/-- Take every shorter loop into every row. -/
def discoverLoops (t : Table) : Table where
  rows := t.rows.mapFinIdx fun start r _ ↦ Row.discoverLoops (UInt8.ofNat start) r

/-- The row of a value after trying every value in between, in increasing order. -/
def relaxedRow (t : Table) (start : UInt8) : Row :=
  allValues.foldl (fun (r : Row) between ↦ r.via (r.word between) (t.row between)) (t.row start)

/-- Relax the row of one value. -/
def relaxRow (t : Table) (start : UInt8) : Table := t.setRow start (t.relaxedRow start)

/-- Relax the rows in increasing order; a later row goes over rows already relaxed. -/
def relax (t : Table) : Table := allValues.foldl relaxRow t

def pass (t : Table) : Table := t.discoverLoops.relax

/-- The unary table after a number of passes. -/
def afterPasses : Nat → Table
  | 0 => unary
  | n + 1 => (afterPasses n).pass

end Table

/-- The number of passes made for the table in use. -/
def passes : Nat := 2

/-- The table in use, built when it is first needed. -/
def standardTable : Thunk Table := Thunk.mk fun _ ↦ Table.afterPasses passes

end TapeLang.Transition
