import TapeLang.Encoder
import TapeLang.Proofs.Transition.Shapes

/-!
# Layout of encoded programs

An encoded program consists of the shaped words of its table, moves to the right
and outputs. So its brackets are balanced, its loops are not nested and hold every
move to the left, and it has an output for each character and no input
(`encoded_programs_are_regular`).
-/

namespace TapeLang.Encoder

open Transition

variable {t : Table} {w : Word} {i : Instruction}

/-- A program with one output for each of `n` characters, laid out without nested loops and without moves to the left
outside of a loop. -/
structure Regular (p : Program) (n : Nat) : Prop where
  /-- Its text holds nothing but the program. -/
  text_ofText : (Program.ofText p.text).text = p.text
  /-- Every bracket has a partner. -/
  unmatched_eq : p.unmatched = []
  /-- No loop lies inside another one. -/
  maxLoopDepth_le : p.maxLoopDepth ≤ 1
  /-- Nothing is read. -/
  input_notMem : .input ∉ p.code
  /-- There is one output for each character. -/
  count_output : p.code.count .output = n
  /-- A move to the left stands between two brackets that are partners. -/
  left_inside : ∀ i, p.get? i = some .left →
    ∃ j k, p.partners.getD j none = some k ∧ j < i ∧ i < k

/-- What is appended for bytes is shallow if the words of the table are. -/
theorem shallow_appendBytes (ht : ∀ a b, Shallow (t.word a b)) (h : Shallow w) (last : UInt8)
    (bytes : List UInt8) : Shallow (appendBytes t w last bytes) := by
  induction bytes generalizing w last with
  | nil => exact h
  | cons byte rest ih =>
    have hnext : Shallow (nextWord t last byte) := by
      rcases nextWord_eq_or t last byte with heq | heq
      · rw [heq]
        exact (shallow_basic .right Basic.noConfusion).append (ht 0 byte)
      · rw [heq]
        exact ht last byte
    have houtput : Shallow #[.output] := shallow_basic .output Basic.noConfusion
    apply ih
    rw [← Array.append_singleton]
    exact (h.append hnext).append houtput

/-- Of the instructions that no word of the table holds the encoder appends only moves to the right and, for each byte,
one output. -/
theorem count_appendBytes (ht : ∀ a b, i ∉ t.word a b) (hi : i ≠ .right) (w : Word) (last : UInt8)
    (bytes : List UInt8) :
    (appendBytes t w last bytes).count i =
      w.count i + if i = .output then bytes.length else 0 := by
  induction bytes generalizing w last with
  | nil =>
    rw [List.length_nil, ite_self]
    rfl
  | cons byte rest ih =>
    have hnext : (nextWord t last byte).count i = 0 := by
      rw [Array.count_eq_zero]
      rcases nextWord_eq_or t last byte with heq | heq
      · rw [heq, freshWord, Array.mem_append, not_or]
        exact ⟨by simpa using hi, ht 0 byte⟩
      · rw [heq]
        exact ht last byte
    rw [appendBytes, ih, Array.count_push, Array.count_append, hnext, List.length_cons]
    by_cases ho : i = .output
    · subst ho
      simp only [beq_self_eq_true, ↓reduceIte]
      omega
    · rw [if_neg ho, if_neg ho, if_neg (by simpa using Ne.symm ho)]

/-- The program of a shallow word matches its brackets, nests no loops and moves to the left only inside of them. -/
theorem regular_of_shallow {p : Program} {n : Nat} (h : Shallow p.code) (hinput : .input ∉ p.code)
    (houtput : p.code.count .output = n) : Regular p n := by
  obtain ⟨b, hcode, hb⟩ := h
  constructor
  case text_ofText => rw [Program.ofText_text]
  case unmatched_eq => exact unmatched_eq_nil hcode
  case maxLoopDepth_le =>
    rw [Block.maxLoopDepth_eq hcode]
    exact hb.depth_le
  case input_notMem => exact hinput
  case count_output => exact houtput
  case left_inside =>
    intro i hi
    have hspells : p.Spells 0 b.code := by
      rw [hcode]
      exact p.spells_toList
    have hlt : i < 0 + b.code.length := by
      rw [hcode, Nat.zero_add]
      exact Program.lt_size_of_get? hi
    obtain ⟨j, k, hpair, hji, hik⟩ :=
      Block.exists_pair_around (a := .left) hspells (Nat.zero_le i) hlt hi hb.left_notMem
    exact ⟨j, k, (Program.partners_loopStart hpair.get?_start).mpr hpair, hji, hik⟩

/-- After any number of passes every entry is made of increments, decrements and multiply loops whose factors are less
than 40 and have no common divisor, and an entry is empty exactly if it leads back to its first value. Every program
that is encoded with such a table is regular. -/
theorem encoded_programs_are_regular (passes : Nat) :
    (∀ a b, Shaped ((Table.afterPasses passes).word a b)) ∧
      (∀ a b, (Table.afterPasses passes).word a b = #[] ↔ a = b) ∧
      ∀ text, Regular (encode (Table.afterPasses passes) text) text.length := by
  refine ⟨shaped_afterPasses passes, fun a b ↦ word_afterPasses_eq_empty_iff passes,
    fun text ↦ ?_⟩
  have hsilent (a b : UInt8) := silent_afterPasses passes a b
  have hcount {i : Instruction} (ht : ∀ a b, i ∉ (Table.afterPasses passes).word a b)
      (hi : i ≠ .right) :
      (encode (Table.afterPasses passes) text).code.count i =
        if i = .output then text.length else 0 := by
    have happend := count_appendBytes ht hi #[] 0 (text.map Char.toUInt8)
    rwa [Array.count_empty, Nat.zero_add, List.length_map] at happend
  apply regular_of_shallow
  · exact shallow_appendBytes (fun a b ↦ (shaped_afterPasses passes a b).shallow)
      Shaped.empty.shallow 0 _
  · rw [← Array.count_eq_zero]
    exact hcount (fun a b h ↦ (hsilent a b _ h).1 rfl) Instruction.noConfusion
  · exact hcount (fun a b h ↦ (hsilent a b _ h).2 rfl) Instruction.noConfusion

end TapeLang.Encoder
