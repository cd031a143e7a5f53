import TapeLang.Proofs.Codec.Pieces

/-!
# The fewest pieces

Cutting off the longest gram in front of a text leaves the fewest pieces. The
reason is that a text has no fewer pieces than what is left of it behind any
number of characters (`length_pieces_drop_le`), and the first piece is at least
as long as any gram in front. So no way to put a text together from grams and
single characters takes fewer parts than the text has pieces
(`length_pieces_flatten_le`).
-/

namespace TapeLang.Codec

def IsPart (w : List Char) : Prop := (token? w).isSome ∨ ∃ c, w = [c]

/-- No gram and no single character in front of a text is longer than its first piece. -/
theorem IsPart.length_le_pieceLength {w : List Char} (h : IsPart w) (more : List Char) :
    w.length ≤ pieceLength (w ++ more) := by
  unfold pieceLength
  obtain hgram | ⟨c, rfl⟩ := h
  · obtain ⟨hcode, -, hmax⟩ := isSome_token?_iff.mp hgram
    have hlead := hcode.length_le_lead_append more
    omega
  · exact Nat.le_max_left 1 _

/-- The pieces behind the first character are no more than all pieces. -/
theorem length_pieces_tail_le (text : List Char) :
    (pieces text.tail).length ≤ (pieces text).length := by
  fun_induction pieces text with
  | case1 => simp
  | case2 c rest n ih =>
    rw [List.tail_cons, List.length_cons]
    by_cases hrest : rest = []
    · simp [hrest]
    have hn : n = max 1 (min maxGram (lead (c :: rest))) := rfl
    have hm : pieceLength rest = max 1 (min maxGram (lead rest)) := rfl
    have hpieces := congrArg List.length (pieces_of_ne_nil hrest)
    rw [List.length_cons] at hpieces
    rw [lead_cons] at hn
    simp only [maxGram] at hn hm
    by_cases hone : n = 1
    · simp [hone]
    split at hn
    · -- The first piece of `rest` ends where the one of the text ends, or one character behind if both have four.
      by_cases hsame : pieceLength rest = n - 1
      · exact Nat.le_of_eq (by rw [hpieces, hsame])
      · have hnext : pieceLength rest = n - 1 + 1 := by omega
        rw [hpieces, hnext, ← List.drop_drop, List.drop_one]
        exact Nat.succ_le_succ ih
    · omega

/-- What is left of a text behind some characters has no more pieces than the text. -/
theorem length_pieces_drop_le (text : List Char) (n : Nat) :
    (pieces (text.drop n)).length ≤ (pieces text).length := by
  induction n with
  | zero => exact Nat.le_refl _
  | succ n ih =>
    rw [← List.drop_drop, List.drop_one]
    exact Nat.le_trans (length_pieces_tail_le _) ih

/-- A gram or a single character in front makes at most one piece more. -/
theorem IsPart.length_pieces_append_le {w : List Char} (h : IsPart w) (more : List Char) :
    (pieces (w ++ more)).length ≤ (pieces more).length + 1 := by
  by_cases hne : w ++ more = []
  · simp [hne]
  have hdrop : (w ++ more).drop (pieceLength (w ++ more)) =
      more.drop (pieceLength (w ++ more) - w.length) := by
    rw [List.drop_append, List.drop_eq_nil_of_le (h.length_le_pieceLength more), List.nil_append]
  rw [pieces_of_ne_nil hne, List.length_cons, hdrop]
  exact Nat.succ_le_succ (length_pieces_drop_le more _)

/-- A text put together from grams and single characters has no more pieces than these parts. -/
theorem length_pieces_flatten_le {parts : List (List Char)} (h : ∀ w ∈ parts, IsPart w) :
    (pieces parts.flatten).length ≤ parts.length := by
  induction parts with
  | nil => simp
  | cons w rest ih =>
    obtain ⟨hw, hrest⟩ := List.forall_mem_cons.mp h
    rw [List.flatten_cons, List.length_cons]
    exact Nat.le_trans (hw.length_pieces_append_le _) (Nat.succ_le_succ (ih hrest))

/-- A packed text has a character for each piece. -/
theorem length_compress (text : List Char) : (compress text).length = (pieces text).length := by
  have hone : ∀ w ∈ pieces text, (packPiece w).length = 1 := by
    intro w hw
    obtain hgram | ⟨c, -, rfl⟩ := isGram_or_singleton_of_mem_pieces hw
    · obtain ⟨c, hc⟩ := Option.isSome_iff_exists.mp hgram
      rw [packPiece_of_some hc, List.length_singleton]
    · rw [packPiece_of_none (token?_singleton c), List.length_singleton]
  rw [compress_eq_flatMap_pieces, List.length_flatMap, List.map_congr_left hone]
  simp

end TapeLang.Codec
