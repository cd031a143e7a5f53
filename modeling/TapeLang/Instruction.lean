/-!
# Instructions

The eight instructions of the tape language and their one-character symbols.
Main statement: `ofSymbol?_eq_some_iff`, a character names an instruction
exactly when it is that instruction's symbol.
-/

namespace TapeLang

/-- One instruction of the tape language, in the order of the alphabet. -/
inductive Instruction where
  /-- Add one to the current cell, modulo 256. -/
  | increment
  /-- Subtract one from the current cell, modulo 256. -/
  | decrement
  /-- Move the pointer one cell to the left, stopping at the first cell. -/
  | left
  /-- Move the pointer one cell to the right. -/
  | right
  /-- Enter the loop if the current cell is not zero, else skip it. -/
  | loopStart
  /-- Repeat the loop if the current cell is not zero, else leave it. -/
  | loopEnd
  | output
  /-- Read one byte of input into the current cell. -/
  | input
  deriving DecidableEq, Repr, Inhabited

namespace Instruction

/-- Every instruction once, in the order of the alphabet. -/
def all : List Instruction :=
  [increment, decrement, left, right, loopStart, loopEnd, output, input]

/-- The position of an instruction in `all`. -/
def index : Instruction → Nat
  | increment => 0
  | decrement => 1
  | left => 2
  | right => 3
  | loopStart => 4
  | loopEnd => 5
  | output => 6
  | input => 7

/-- The character that stands for an instruction in a program text. -/
def symbol : Instruction → Char
  | increment => '+'
  | decrement => '-'
  | left => '<'
  | right => '>'
  | loopStart => '['
  | loopEnd => ']'
  | output => '.'
  | input => ','

/-- The instruction a character stands for; every other character is commentary. -/
def ofSymbol? : Char → Option Instruction
  | '+' => some increment
  | '-' => some decrement
  | '<' => some left
  | '>' => some right
  | '[' => some loopStart
  | ']' => some loopEnd
  | '.' => some output
  | ',' => some input
  | _ => none

/-- Whether a character stands for an instruction. -/
def isSymbol (c : Char) : Bool := (ofSymbol? c).isSome

/-- Every instruction is listed. -/
theorem mem_all (i : Instruction) : i ∈ all := by
  cases i <;> decide

/-- Reading a symbol gives back its instruction. -/
@[simp] theorem ofSymbol?_symbol (i : Instruction) : ofSymbol? i.symbol = some i := by
  cases i <;> rfl

/-- A character names an instruction exactly when it is its symbol. -/
theorem ofSymbol?_eq_some_iff {c : Char} {i : Instruction} :
    ofSymbol? c = some i ↔ c = i.symbol := by
  constructor
  · intro h
    unfold ofSymbol? at h
    split at h <;> simp_all <;> subst h <;> rfl
  · rintro rfl
    exact ofSymbol?_symbol i

/-- Different instructions have different symbols. -/
theorem symbol_inj {i j : Instruction} : i.symbol = j.symbol ↔ i = j :=
  ⟨fun h ↦ by simpa [h] using (ofSymbol?_symbol i).symm, congrArg symbol⟩

end Instruction

end TapeLang
