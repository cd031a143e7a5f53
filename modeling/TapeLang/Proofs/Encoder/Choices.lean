import TapeLang.Encoder
import Mathlib.Algebra.GroupWithZero.Nat
import TapeLang.Proofs.Transition.Shortening

/-!
# Choices of the encoder

A text may be written with any choice between a new cell and the current one for
each of its bytes. Whatever was chosen, the next byte goes on from the same last
byte, so no choice changes what the later ones cost, and the program that takes
the shorter word each time is the shortest of all
(`encoded_program_is_shortest_choice`). With the table in use it is no longer than
the way from byte to byte around the circle of values.
-/

namespace TapeLang.Encoder

open Transition

/-- Where a byte is prepared. -/
inductive Choice where
  /-- In a new cell, from zero. -/
  | fresh
  /-- In the current cell, from the byte printed last. -/
  | current
  deriving DecidableEq

/-- The word that prepares a byte in the chosen cell. -/
def Choice.word (t : Table) (last byte : UInt8) : Choice → Word
  | fresh => #[.right] ++ t.word 0 byte
  | current => t.word last byte

/-- What prints bytes after a last one, each in the cell that is chosen for it. -/
def written (t : Table) : UInt8 → List (UInt8 × Choice) → Word
  | _, [] => #[]
  | last, (byte, choice) :: rest => (choice.word t last byte).push .output ++ written t byte rest

/-- The way between two values around the circle of values, in the shorter direction. -/
def circularDistance (a b : UInt8) : Nat := min (b - a).toNat (a - b).toNat

variable {t : Table} {choices : List Choice} {bytes : List UInt8}

/-! ### One byte -/

/-- The word for a byte is the one of some choice. -/
theorem exists_choice (t : Table) (last byte : UInt8) :
    ∃ choice : Choice, nextWord t last byte = choice.word t last byte := by
  rcases nextWord_eq_or t last byte with hfresh | hcurrent
  · exact ⟨.fresh, hfresh⟩
  · exact ⟨.current, hcurrent⟩

/-- No choice has a shorter word for the byte. -/
theorem size_nextWord_le (t : Table) (last byte : UInt8) (choice : Choice) :
    (nextWord t last byte).size ≤ (choice.word t last byte).size := by
  rw [size_nextWord]
  cases choice with
  | fresh => exact Nat.min_le_left _ _
  | current => exact Nat.min_le_right _ _

/-! ### All bytes -/

/-- The encoder writes the bytes with some choice for each of them. -/
theorem exists_choices (t : Table) (w : Word) (last : UInt8) (bytes : List UInt8) :
    ∃ choices : List Choice, choices.length = bytes.length ∧
      appendBytes t w last bytes = w ++ written t last (bytes.zip choices) := by
  induction bytes generalizing w last with
  | nil => exact ⟨[], rfl, Array.append_empty.symm⟩
  | cons byte rest ih =>
    obtain ⟨choice, hchoice⟩ := exists_choice t last byte
    obtain ⟨choices, hlength, hrest⟩ := ih ((w ++ nextWord t last byte).push .output) byte
    refine ⟨choice :: choices, congrArg (· + 1) hlength, ?_⟩
    rw [appendBytes, hrest, List.zip_cons_cons, written, hchoice, ← Array.append_push,
      Array.append_assoc]

/-- No choices lead to a shorter program: the byte behind the next one goes on from the same byte after every
choice. -/
theorem size_appendBytes_le (t : Table) (w : Word) (last : UInt8)
    (hlength : choices.length = bytes.length) :
    (appendBytes t w last bytes).size ≤ w.size + (written t last (bytes.zip choices)).size := by
  induction bytes generalizing choices w last with
  | nil => exact Nat.le_add_right _ _
  | cons byte rest ih =>
    cases choices with
    | nil => contradiction
    | cons choice choices =>
      have hbyte := size_nextWord_le t last byte choice
      have hrest := ih ((w ++ nextWord t last byte).push .output) byte
        (Nat.succ.inj hlength)
      rw [Array.size_push, Array.size_append] at hrest
      rw [appendBytes, List.zip_cons_cons, written, Array.size_append, Array.size_push]
      omega

/-! ### Distances -/

theorem natAbs_distance (a b : UInt8) : (distance a b).natAbs = circularDistance a b := by
  have ha := a.toNat_lt
  have hb := b.toNat_lt
  rw [circularDistance, UInt8.toNat_sub, UInt8.toNat_sub]
  unfold distance
  dsimp only
  split
  · omega
  · split <;> omega

/-- Words no longer than the distances they cover make up a program no longer than the way from byte to byte, with one
output for each. -/
theorem size_appendBytes_le_distances (h : ∀ a b, t.cost a b ≤ circularDistance a b) (w : Word)
    (last : UInt8) (bytes : List UInt8) :
    (appendBytes t w last bytes).size ≤
      w.size + (List.zipWith (fun a b ↦ 1 + circularDistance a b) (last :: bytes) bytes).sum := by
  induction bytes generalizing w last with
  | nil => exact Nat.le_add_right _ _
  | cons byte rest ih =>
    have hbyte : (nextWord t last byte).size ≤ circularDistance last byte :=
      Nat.le_trans (size_nextWord_le t last byte .current) (h last byte)
    have hrest := ih ((w ++ nextWord t last byte).push .output) byte
    rw [Array.size_push, Array.size_append] at hrest
    rw [appendBytes, List.zipWith_cons_cons, List.sum_cons]
    omega

/-- The encoder finds the shortest of the programs that print a text with a choice of the cell for each of its
characters: its own program is one of them, and no other one is shorter. With the table in use the program has at most
one instruction for each character and the circular distance from each byte to the next one, beginning at zero. -/
theorem encoded_program_is_shortest_choice (t : Table) (text : List Char) :
    let bytes := text.map Char.toUInt8
    let program (choices : Vector Choice text.length) : Program :=
      ⟨written t 0 (bytes.zip choices.toList)⟩
    (∃ choices, encode t text = program choices) ∧
      (∀ choices, (encode t text).size ≤ (program choices).size) ∧
      (encode standardTable.get text).size ≤
        (List.zipWith (fun last byte ↦ 1 + circularDistance last byte) (0 :: bytes) bytes).sum := by
  intro bytes program
  have hbytes : bytes.length = text.length := List.length_map _
  refine ⟨?_, ?_, ?_⟩
  · obtain ⟨choices, hlength, hencode⟩ := exists_choices t #[] 0 bytes
    refine ⟨⟨choices.toArray, hlength.trans hbytes⟩, ?_⟩
    rw [encode, hencode, Array.empty_append]
    rfl
  · intro choices
    have hlength : choices.toList.length = bytes.length := by rw [Vector.length_toList, hbytes]
    have hle := size_appendBytes_le t #[] 0 hlength
    rwa [Array.size_empty, Nat.zero_add] at hle
  · have hcost (a b : UInt8) : standardTable.get.cost a b ≤ circularDistance a b := by
      rw [get_standardTable, ← natAbs_distance]
      exact Table.cost_afterPasses_le passes a b
    have hle := size_appendBytes_le_distances hcost #[] 0 bytes
    rwa [Array.size_empty, Nat.zero_add] at hle

end TapeLang.Encoder
