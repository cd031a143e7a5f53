import TapeLang.Transition.Table
import TapeLang.Program
import TapeLang.Binary64

/-!
# Programs that print a text

For each character of a text the encoder appends a word that brings the current
cell to the character's byte, and an output instruction. It has two words to
choose from: move to a new cell and start from zero, or go on from the byte
printed last. It takes the shorter one, and the new cell if both are equally
long. The pointer never ends to the left of where it was, so the cells to its
right are always zero.
-/

namespace TapeLang.Encoder

open Transition

/-- The word that prepares a byte in a new cell. -/
def freshWord (t : Table) (byte : UInt8) : Word := #[.right] ++ t.word 0 byte

/-- The word that prepares a byte after another one was printed. -/
def nextWord (t : Table) (last byte : UInt8) : Word :=
  if t.cost 0 byte + 1 ≤ t.cost last byte then freshWord t byte else t.word last byte

/-- One of the two words is taken. -/
theorem nextWord_eq_or (t : Table) (last byte : UInt8) :
    nextWord t last byte = freshWord t byte ∨ nextWord t last byte = t.word last byte := by
  unfold nextWord
  split
  · exact Or.inl rfl
  · exact Or.inr rfl

/-- The word that is taken is the shorter one. -/
theorem size_nextWord (t : Table) (last byte : UInt8) :
    (nextWord t last byte).size = min (freshWord t byte).size (t.word last byte).size := by
  have hfresh : (freshWord t byte).size = t.cost 0 byte + 1 := by
    rw [freshWord, Array.size_append, Nat.add_comm]
    rfl
  unfold nextWord
  split
  · next hle =>
    rw [← hfresh] at hle
    exact (Nat.min_eq_left hle).symm
  · next hgt =>
    rw [← hfresh] at hgt
    exact (Nat.min_eq_right (Nat.le_of_not_ge hgt)).symm

/-- Append to a word what prints the bytes, the last byte printed being given. -/
def appendBytes (t : Table) : Word → UInt8 → List UInt8 → Word
  | w, _, [] => w
  | w, last, byte :: rest => appendBytes t ((w ++ nextWord t last byte).push .output) byte rest

/-- A program that prints a text, the low byte of each character. -/
def encode (t : Table) (text : List Char) : Program :=
  ⟨appendBytes t #[] 0 (text.map Char.toUInt8)⟩

/-- The sizes of a text and of the program that prints it. -/
structure Stats where
  /-- The number of characters of the text. -/
  textLength : Nat
  /-- The number of bytes of the program's text. -/
  codeLength : Nat

namespace Stats

/-- Compare a text with a program's text. -/
def ofTexts (text program : String) : Stats where
  textLength := text.length
  codeLength := program.utf8ByteSize

/-- The length of the program for one character of the text; an empty text counts as one character. -/
def ratio (s : Stats) : Binary64 := .ofQuotient s.codeLength (max s.textLength 1)

end Stats

end TapeLang.Encoder
