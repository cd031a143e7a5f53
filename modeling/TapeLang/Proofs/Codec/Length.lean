import Mathlib.Algebra.GroupWithZero.Nat
import Mathlib.Order.Bounds.Defs
import TapeLang.Proofs.Codec.Runs
import TapeLang.Proofs.Codec.Segmentation

/-!
# The length of a packed text

A packed text has a character for each piece, and the pieces can be counted: one
for each character that is no symbol, and one for each four symbols of a run or
part of four (`length_pieces`). No way to cut the text into grams and single
characters has fewer parts, so a packed text is as short as grams can make it.

Main statement: `packed_length_is_least`.
-/

namespace TapeLang.Codec

variable {text more run code : List Char}

/-! ## The runs of a text -/

/-- The runs of symbols of a text, from left to right. -/
def symbolRuns (text : List Char) : List (List Char) :=
  (text.splitOnP fun c ↦ !Instruction.isSymbol c).filter (· ≠ [])

@[simp] theorem symbolRuns_nil : symbolRuns [] = [] := rfl

/-- Symbols alone are one run. -/
theorem IsCode.symbolRuns_eq (h : IsCode code) (hne : code ≠ []) : symbolRuns code = [code] := by
  have hsplit : code.splitOnP (fun c ↦ !Instruction.isSymbol c) = [code] :=
    List.splitOnP_eq_singleton fun c hc ↦ by rw [h c hc, Bool.not_true]
  rw [symbolRuns, hsplit, List.filter_singleton, decide_eq_true hne]
  rfl

/-- A character that is no symbol ends a run and belongs to none. -/
theorem symbolRuns_append_cons {c : Char} (hc : ¬Instruction.isSymbol c) (text more : List Char) :
    symbolRuns (text ++ c :: more) = symbolRuns text ++ symbolRuns more := by
  have hsep : (!Instruction.isSymbol c) = true := by simpa using hc
  rw [symbolRuns, List.splitOnP_append_cons text more hsep, List.filter_append]
  rfl

theorem symbolRuns_cons {c : Char} (hc : ¬Instruction.isSymbol c) (rest : List Char) :
    symbolRuns (c :: rest) = symbolRuns rest :=
  symbolRuns_append_cons hc [] rest

/-- Texts that are apart have their runs for themselves. -/
theorem Apart.symbolRuns_append (h : Apart text more) :
    symbolRuns (text ++ more) = symbolRuns text ++ symbolRuns more := by
  rcases List.eq_nil_or_concat' text with rfl | ⟨init, c, rfl⟩
  · rfl
  cases more with
  | nil => rw [List.append_nil, symbolRuns_nil, List.append_nil]
  | cons d rest =>
    by_cases hc : Instruction.isSymbol c
    · have hd : ¬Instruction.isSymbol d :=
        fun hd ↦ h c List.getLast?_concat d rfl ⟨hc, hd⟩
      rw [symbolRuns_append_cons hd, symbolRuns_cons hd]
    · rw [List.append_assoc, List.singleton_append, symbolRuns_append_cons hc,
        symbolRuns_append_cons hc, symbolRuns_nil, List.append_nil]

/-- The runs listed are the maximal ones. -/
theorem mem_symbolRuns_iff : run ∈ symbolRuns text ↔ MaximalRun run text := by
  constructor
  · intro h
    induction text using runs_induction (p := (Instruction.isSymbol ·)) with
    | nil => contradiction
    | other c rest hother ih =>
      have hapart : Apart [c] rest := apart_of_getLast (by simpa using hother)
      rw [symbolRuns_cons hother] at h
      exact (ih h).append_left hapart
    | run front rest hne hfront hrest ih =>
      have hapart : Apart front rest := apart_of_head hrest
      rw [hapart.symbolRuns_append, IsCode.symbolRuns_eq hfront hne, List.singleton_append] at h
      rcases List.mem_cons.mp h with rfl | h
      · exact ⟨hne, hfront, [], rest, rfl, by simp, hrest⟩
      · exact (ih h).append_left hapart
  · intro h
    obtain ⟨before, after, rfl, hbefore, hafter⟩ := h.split
    rw [List.append_assoc, (apart_of_getLast hbefore).symbolRuns_append,
      (apart_of_head hafter).symbolRuns_append, h.isCode.symbolRuns_eq h.ne_nil]
    simp

/-! ## Counting pieces -/

/-- Symbols are cut into fours, and what is left over is one piece more. -/
theorem IsCode.length_pieces (h : IsCode code) :
    (pieces code).length = (code.length + 3) / 4 := by
  fun_induction pieces code with
  | case1 => rfl
  | case2 c rest n ih =>
    have hdrop : rest.drop (n - 1) = (c :: rest).drop n := drop_pieceLength c rest
    have hn : n = max 1 (min maxGram (c :: rest).length) := by
      rw [← h.lead_eq]
      rfl
    rw [hdrop] at ih ⊢
    have hpos : 0 < (c :: rest).length := Nat.succ_pos _
    rw [List.length_cons, ih (h.drop n), List.length_drop]
    simp only [maxGram] at hn
    omega

/-- A text has a piece for each character that is no symbol, and for each four symbols of a run or part of four. -/
theorem length_pieces (text : List Char) :
    (pieces text).length = text.countP (fun c ↦ !Instruction.isSymbol c) +
      ((symbolRuns text).map fun run ↦ (run.length + 3) / 4).sum := by
  induction text using runs_induction (p := (Instruction.isSymbol ·)) with
  | nil => simp
  | other c rest hother ih =>
    have hapart : Apart [c] rest := apart_of_getLast (by simpa using hother)
    have hcount : (c :: rest).countP (fun c ↦ !Instruction.isSymbol c) =
        rest.countP (fun c ↦ !Instruction.isSymbol c) + 1 := by simp [hother]
    rw [symbolRuns_cons hother, hcount, ← List.singleton_append, hapart.pieces_append,
      pieces_singleton, List.singleton_append, List.length_cons, ih]
    omega
  | run front rest hne hfront hrest ih =>
    have hapart : Apart front rest := apart_of_head hrest
    have hnone : front.countP (fun c ↦ !Instruction.isSymbol c) = 0 :=
      List.countP_eq_zero.mpr fun c hc ↦ by simp [hfront c hc]
    rw [hapart.pieces_append, hapart.symbolRuns_append, IsCode.symbolRuns_eq hfront hne,
      List.length_append, IsCode.length_pieces hfront, ih, List.countP_append, hnone,
      List.singleton_append, List.map_cons, List.sum_cons]
    omega

/-! ## Cuts -/

/-- A way to cut a text into pieces, each a single character or two to four symbols. -/
structure Cut (text : List Char) (parts : List (List Char)) : Prop where
  flatten_eq : parts.flatten = text
  part : ∀ w ∈ parts, (∃ c, w = [c]) ∨ IsCode w ∧ 2 ≤ w.length ∧ w.length ≤ 4

/-- A gram is a word of two to four symbols. -/
theorem isPart_iff {w : List Char} :
    IsPart w ↔ (∃ c, w = [c]) ∨ IsCode w ∧ 2 ≤ w.length ∧ w.length ≤ 4 := by
  rw [IsPart, isSome_token?_iff, or_comm]
  rfl

theorem cut_pieces (text : List Char) : Cut text (pieces text) := by
  refine ⟨flatten_pieces text, fun w hw ↦ isPart_iff.mp ?_⟩
  exact (isGram_or_singleton_of_mem_pieces hw).imp_right fun ⟨c, _, hc⟩ ↦ ⟨c, hc⟩

/-- Every text can be cut into its characters. -/
theorem cut_singletons (text : List Char) : Cut text (text.map fun c ↦ [c]) := by
  refine ⟨by rw [← List.flatMap_def, List.flatMap_singleton'], fun w hw ↦ ?_⟩
  obtain ⟨c, -, rfl⟩ := List.mem_map.mp hw
  exact Or.inl ⟨c, rfl⟩

/-- A packed text has a character for each character that is no symbol and for each four symbols of a maximal run or
part of four. That is the least number of pieces into which the text can be cut, and no more than it has characters. -/
theorem packed_length_is_least (text : List Char) :
    (∀ run, run ∈ symbolRuns text ↔ MaximalRun run text) ∧
      (compress text).length = text.countP (fun c ↦ !Instruction.isSymbol c) +
          ((symbolRuns text).map fun run ↦ (run.length + 3) / 4).sum ∧
      IsLeast {n | ∃ parts, Cut text parts ∧ parts.length = n} (compress text).length ∧
      (compress text).length ≤ text.length := by
  have hleast (parts : List (List Char)) (h : Cut text parts) :
      (compress text).length ≤ parts.length := by
    rw [length_compress, ← h.flatten_eq]
    exact length_pieces_flatten_le fun w hw ↦ isPart_iff.mpr (h.part w hw)
  refine ⟨fun run ↦ mem_symbolRuns_iff, ?_, ⟨?_, ?_⟩, ?_⟩
  · exact (length_compress text).trans (length_pieces text)
  · exact ⟨pieces text, cut_pieces text, (length_compress text).symm⟩
  · rintro n ⟨parts, hcut, rfl⟩
    exact hleast parts hcut
  · have hsingles := hleast (text.map fun c ↦ [c]) (cut_singletons text)
    rwa [List.length_map] at hsingles

end TapeLang.Codec
