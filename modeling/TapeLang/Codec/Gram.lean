import TapeLang.Instruction

/-!
# Grams

A gram is a word of two, three or four instructions. The grams are enumerated
by a depth-first walk through the tree of words: the walk keeps the path to the
word it is at, and notes the path at the wanted depth.
-/

namespace TapeLang.Codec

/-- A walk through the tree of words. -/
structure Walk where
  /-- The words noted so far. -/
  found : Array (List Instruction) := #[]
  /-- The path from the root to the present word. -/
  path : Array Instruction := #[]
  deriving DecidableEq

namespace Walk

/-- Go down one branch. -/
def enter (w : Walk) (i : Instruction) : Walk := { w with path := w.path.push i }

/-- Go back up one branch. -/
def leave (w : Walk) : Walk := { w with path := w.path.pop }

/-- Note the present word. -/
def mark (w : Walk) : Walk := { w with found := w.found.push w.path.toList }

/-- Note every word `depth` branches below the present one, and come back to it. -/
def visit : Nat → Walk → Walk
  | 0, w => w.mark
  | depth + 1, w => Instruction.all.foldl (fun w i ↦ (visit depth (w.enter i)).leave) w

end Walk

def minGram : Nat := 2

def maxGram : Nat := 4

def gramLengths : List Nat := List.range' minGram (maxGram + 1 - minGram)

/-- Every gram: the shorter ones first, and grams of one length in the order of the alphabet. -/
@[irreducible] def grams : Array (List Instruction) :=
  (gramLengths.foldl (fun w n ↦ Walk.visit n w) ({} : Walk)).found

end TapeLang.Codec
