import TapeLang.Program
import TapeLang.Proofs.Codec.Runs
import Mathlib.Algebra.Order.BigOperators.Group.List
import Mathlib.Algebra.Order.Group.Nat

/-!
# Unpacking a packed text

Unpacking gives each gram back from its token. The characters that packing left
as they were come back too, except those that are tokens themselves: these are
taken for grams, and the text grows. All symbols are tokens, so a text comes
back exactly if no run of symbols leaves one over and no other character is a
token (`roundTrip_exact_iff`).
-/

namespace TapeLang.Codec

/-- Unpacking one character. -/
theorem decompress_singleton (c : Char) : decompress [c] = (gram? c).getD [c] := by
  simp [decompress]

@[simp] theorem decompress_append (s t : List Char) :
    decompress (s ++ t) = decompress s ++ decompress t := List.flatMap_append

/-- A gram comes back from its token. -/
theorem decompress_packPiece_of_isSome {w : List Char} (h : (token? w).isSome) :
    decompress (packPiece w) = w := by
  obtain ⟨c, hc⟩ := Option.isSome_iff_exists.mp h
  rw [packPiece_of_some hc, decompress_singleton, gram?_eq_some_iff_token?.mpr hc,
    Option.getD_some]

/-- A character that packing leaves comes back exactly if it is no token. -/
theorem decompress_packPiece_singleton_iff {c : Char} :
    decompress (packPiece [c]) = [c] ↔ ¬IsToken c := by
  rw [packPiece_of_none (token?_singleton c), decompress_singleton, ← gram?_eq_none_iff]
  cases hgram : gram? c with
  | none => simp
  | some w =>
    have hw : w ≠ [c] := by
      rintro rfl
      rw [gram?_eq_some_iff_token?, token?_singleton] at hgram
      contradiction
    simp [hw]

/-- Unpacking never makes a text shorter. -/
theorem length_le_decompress (text : List Char) : text.length ≤ (decompress text).length := by
  induction text with
  | nil => exact Nat.zero_le _
  | cons c rest ih =>
    have hc : 1 ≤ (decompress [c]).length := by
      rw [decompress_singleton]
      cases hgram : gram? c with
      | none => exact Nat.le_refl 1
      | some w =>
        exact Nat.le_trans (by decide) (isSome_token?_iff.mp (isSome_token?_of_gram? hgram)).2.1
    rw [← List.singleton_append, decompress_append, List.length_append, List.length_append]
    exact Nat.add_le_add hc ih

/-- No piece comes back shorter. -/
theorem length_le_decompress_packPiece {text w : List Char} (hw : w ∈ pieces text) :
    w.length ≤ (decompress (packPiece w)).length := by
  obtain hgram | ⟨c, -, rfl⟩ := isGram_or_singleton_of_mem_pieces hw
  · exact Nat.le_of_eq (congrArg List.length (decompress_packPiece_of_isSome hgram)).symm
  · rw [packPiece_of_none (token?_singleton c)]
    exact length_le_decompress [c]

/-- A packed text unpacks piece by piece. -/
theorem decompress_compress_eq (text : List Char) :
    decompress (compress text) = (pieces text).flatMap fun w ↦ decompress (packPiece w) := by
  rw [compress_eq_flatMap_pieces, decompress, List.flatMap_assoc]
  rfl

/-- If no word gets shorter, a concatenation of words stays the same only if each word does. -/
theorem flatMap_eq_flatten_iff {α : Type} {f : List α → List α} {l : List (List α)}
    (h : ∀ w ∈ l, w.length ≤ (f w).length) :
    l.flatMap f = l.flatten ↔ ∀ w ∈ l, f w = w := by
  constructor
  · intro heq
    induction l with
    | nil => simp
    | cons w rest ih =>
      obtain ⟨hw, hrest⟩ := List.forall_mem_cons.mp h
      have hlonger : rest.flatten.length ≤ (rest.flatMap f).length := by
        rw [List.length_flatten, List.length_flatMap]
        exact List.sum_le_sum hrest
      -- neither part gets shorter and their sum stays the same, so the two concatenations split alike
      rw [List.flatMap_cons, List.flatten_cons] at heq
      have hsum := congrArg List.length heq
      rw [List.length_append, List.length_append] at hsum
      obtain ⟨hfront, hback⟩ := List.append_inj heq (by omega)
      exact List.forall_mem_cons.mpr ⟨hfront, ih hrest hback⟩
  · intro hsame
    rw [List.flatMap_congr hsame, List.flatMap_id']

/-- A text comes back exactly if no character that packing leaves is a token. -/
theorem decompress_compress_iff_pieces {text : List Char} :
    decompress (compress text) = text ↔ ∀ c, [c] ∈ pieces text → ¬IsToken c := by
  have hlonger : ∀ w ∈ pieces text, w.length ≤ (decompress (packPiece w)).length :=
    fun w hw ↦ length_le_decompress_packPiece hw
  have hpieces := flatMap_eq_flatten_iff hlonger
  rw [← decompress_compress_eq, flatten_pieces] at hpieces
  rw [hpieces]
  constructor
  · intro h c hc
    exact decompress_packPiece_singleton_iff.mp (h [c] hc)
  · intro h w hw
    obtain hgram | ⟨c, -, rfl⟩ := isGram_or_singleton_of_mem_pieces hw
    · exact decompress_packPiece_of_isSome hgram
    · exact decompress_packPiece_singleton_iff.mpr (h c hw)

/-! ## Symbols alone -/

/-- Symbols come back exactly if none is left over. -/
theorem IsCode.decompress_compress_iff {code : List Char} (hcode : IsCode code) :
    decompress (compress code) = code ↔ code.length % maxGram ≠ 1 := by
  rw [decompress_compress_iff_pieces]
  constructor
  · intro h hlength
    obtain ⟨init, last, hsplit, -⟩ := exists_concat_of_length_mod hlength
    have hlast : code.getLast? = some last := by rw [hsplit, List.getLast?_concat]
    have hsymbol := hcode last (List.mem_of_getLast? hlast)
    exact h last (hcode.singleton_mem_pieces_iff.mpr ⟨hlength, hlast⟩) (isToken_of_isSymbol hsymbol)
  · intro hlength c hc
    exact absurd hc (hcode.singleton_notMem_pieces hlength c)

/-- A symbol left over comes back as the gram whose token it is. -/
theorem IsCode.decompress_compress_concat {init w : List Char} {last : Char} (hinit : IsCode init)
    (hfull : init.length % maxGram = 0) (hw : token? w = some last) :
    decompress (compress (init ++ [last])) = init ++ w := by
  have hback := hinit.decompress_compress_iff.mpr (ne_of_eq_of_ne hfull Nat.zero_ne_one)
  rw [decompress_compress_eq] at hback
  rw [decompress_compress_eq, hinit.pieces_concat hfull, List.flatMap_append, hback,
    List.flatMap_singleton, packPiece_of_none (token?_singleton last), decompress_singleton,
    gram?_eq_some_iff_token?.mpr hw, Option.getD_some]

theorem isCode_symbols (p : Program) : IsCode p.symbols := isCode_iff.mpr ⟨p.toList, rfl⟩

theorem length_symbols (p : Program) : p.symbols.length = p.size := by
  rw [Program.symbols, List.length_map, Program.length_toList]

/-! ## Any text -/

/-- A text comes back exactly if no run of symbols leaves one over and no other character is a token. -/
theorem decompress_compress_iff {text : List Char} :
    decompress (compress text) = text ↔
      (∀ run, MaximalRun run text → run.length % maxGram ≠ 1) ∧
        ∀ c ∈ text, ¬Instruction.isSymbol c → ¬IsToken c := by
  rw [decompress_compress_iff_pieces]
  constructor
  · intro h
    constructor
    · intro run hrun
      rw [← hrun.isCode.decompress_compress_iff, decompress_compress_iff_pieces]
      exact fun c hc ↦ h c (hrun.mem_pieces hc)
    · exact fun c hc hother ↦ h c (singleton_mem_pieces hc hother)
  · rintro ⟨hruns, hothers⟩ c hc
    obtain ⟨hmem, hother⟩ | ⟨run, hrun, hlength, -⟩ := singleton_mem_pieces_iff.mp hc
    · exact hothers c hmem hother
    · exact absurd hlength (hruns run hrun)

/-- A packed text unpacks to itself exactly if no run of symbols has one symbol over behind its grams and no other
character is a token. For a program its length decides. If one instruction is over, the others come back as they were,
and in its place the two whose token is its symbol. -/
theorem roundTrip_exact_iff :
    (∀ text : List Char,
      decompress (compress text) = text ↔
        (∀ run, MaximalRun run text → run.length % 4 ≠ 1) ∧
          ∀ c ∈ text, ¬Instruction.isSymbol c → ¬IsToken c) ∧
    ∀ p : Program,
      (decompress (compress p.symbols) = p.symbols ↔ p.size % 4 ≠ 1) ∧
      (p.size % 4 = 1 →
        ∃ (init : List Instruction) (last a b : Instruction),
          p.toList = init ++ [last] ∧ token? [a.symbol, b.symbol] = some last.symbol ∧
            decompress (compress p.symbols) =
              init.map Instruction.symbol ++ [a.symbol, b.symbol]) := by
  refine ⟨fun text ↦ decompress_compress_iff, fun p ↦ ⟨?_, fun hsize ↦ ?_⟩⟩
  · rw [(isCode_symbols p).decompress_compress_iff, length_symbols]
    rfl
  · obtain ⟨init, last, hsplit, hfull⟩ := exists_concat_of_length_mod (l := p.toList) hsize
    obtain ⟨a, b, hab⟩ := exists_token?_eq_symbol last
    refine ⟨init, last, a, b, hsplit, hab, ?_⟩
    rw [Program.symbols, hsplit, List.map_append, List.map_singleton]
    refine (isCode_iff.mpr ⟨init, rfl⟩).decompress_compress_concat ?_ hab
    rwa [List.length_map]

/-- Of five increments the last one comes back as the word whose token is the plus sign. -/
theorem roundTrip_of_five_increments :
    (Program.ofList (List.replicate 5 .increment)).size % 4 = 1 ∧
      decompress (compress (Program.ofList (List.replicate 5 .increment)).symbols) =
        ['+', '+', '+', '+', '-', '>'] := by
  have hsize : (Program.ofList (List.replicate 5 .increment)).size % 4 = 1 := by decide
  obtain ⟨init, last, a, b, hsplit, hab, hback⟩ := (roundTrip_exact_iff.2 _).2 hsize
  have hparts : List.replicate 4 Instruction.increment ++ [.increment] = init ++ [last] := hsplit
  obtain ⟨rfl, hlast⟩ := List.append_inj' hparts rfl
  obtain rfl := List.singleton_inj.mp hlast
  have hplus : token? ['-', '>'] = some '+' := token?_eq_some_of_mem_shortPairs (by decide +kernel)
  have hgram : [a.symbol, b.symbol] = ['-', '>'] := by
    rw [← gram?_eq_some_iff_token?] at hab hplus
    exact Option.some.inj (hab.symm.trans hplus)
  refine ⟨hsize, ?_⟩
  rw [hback, hgram]
  rfl

end TapeLang.Codec
