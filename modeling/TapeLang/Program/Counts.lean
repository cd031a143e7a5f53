import TapeLang.Program

/-!
# Counts over a program

How often each instruction occurs, and how deep the loops are nested.
-/

namespace TapeLang

namespace Program

/-- The number of occurrences of each instruction, in the order of the alphabet. -/
def histogram (p : Program) : List (Instruction × Nat) :=
  Instruction.all.map fun i ↦ (i, p.code.count i)

/-- The nesting reached so far. -/
structure Nesting where
  /-- The number of loops around the next instruction. -/
  depth : Nat := 0
  /-- The greatest depth so far. -/
  deepest : Nat := 0

/-- Pass one instruction. A closing bracket outside every loop changes nothing. -/
def Nesting.next (n : Nesting) : Instruction → Nesting
  | .loopStart => ⟨n.depth + 1, max n.deepest (n.depth + 1)⟩
  | .loopEnd => ⟨n.depth - 1, n.deepest⟩
  | _ => n

/-- The greatest number of loops around one instruction. -/
def maxLoopDepth (p : Program) : Nat :=
  (p.code.foldl Nesting.next {}).deepest

end Program

end TapeLang
