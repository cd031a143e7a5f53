import TapeLang.Codec
import TapeLang.Proofs.Codec.Tokens

/-!
# The pieces of a text

Packing cuts a text into pieces: a gram where a text begins with two symbols or
more, as long a gram as there is, and a single character everywhere else
(`pieces`). Each gram gives way to its token and each single character stays
(`compress_eq_flatMap_pieces`). No piece reaches across a place where a symbol
does not meet a symbol, so the two sides of such a place are cut independently
of each other (`Apart.pieces_append`); inside a run of symbols that holds behind
each multiple of the longest grams (`IsCode.pieces_append_of_dvd`).
-/

namespace TapeLang.Codec

/-- The number of symbols a text begins with. -/
def lead (text : List Char) : Nat := (text.takeWhile Instruction.isSymbol).length

/-- The length of the piece in front of a text. -/
def pieceLength (text : List Char) : Nat := max 1 (min maxGram (lead text))

/-- The pieces of a text, from left to right. -/
def pieces : List Char → List (List Char)
  | [] => []
  | c :: rest =>
    let n := pieceLength (c :: rest)
    (c :: rest).take n :: pieces (rest.drop (n - 1))
termination_by text => text.length
decreasing_by simp only [List.length_cons, List.length_drop]; omega

/-- What packing makes of one piece. -/
def packPiece (w : List Char) : List Char := (token? w).elim w fun c ↦ [c]

/-! ## The piece in front -/

theorem lead_cons (c : Char) (rest : List Char) :
    lead (c :: rest) = if Instruction.isSymbol c then lead rest + 1 else 0 := by
  unfold lead
  rw [List.takeWhile_cons]
  split <;> simp

theorem lead_eq_zero {text : List Char} (h : ∀ c ∈ text.head?, ¬Instruction.isSymbol c) :
    lead text = 0 := by
  cases text with
  | nil => rfl
  | cons c rest => rw [lead_cons, if_neg (h c rfl)]

theorem lead_le_length (text : List Char) : lead text ≤ text.length :=
  (List.takeWhile_sublist _).length_le

theorem one_le_pieceLength (text : List Char) : 1 ≤ pieceLength text := Nat.le_max_left 1 _

theorem pieceLength_le_length {text : List Char} (h : text ≠ []) :
    pieceLength text ≤ text.length := by
  have hlead := lead_le_length text
  have hpos := List.length_pos_iff.mpr h
  unfold pieceLength
  omega

/-- The first `n` characters are symbols exactly if the text begins with `n` symbols at least. -/
theorem isCode_take_iff {text : List Char} {n : Nat} (h : n ≤ text.length) :
    IsCode (text.take n) ↔ n ≤ lead text := by
  induction text generalizing n with
  | nil =>
    have hn : n = 0 := Nat.le_zero.mp h
    simp [hn, IsCode]
  | cons c rest ih =>
    cases n with
    | zero => simp [IsCode]
    | succ n =>
      have hrest : (∀ d ∈ rest.take n, Instruction.isSymbol d) ↔ n ≤ lead rest :=
        ih (Nat.le_of_succ_le_succ h)
      rw [List.take_succ_cons, IsCode, List.forall_mem_cons, hrest, lead_cons]
      split
      · next hc => simp [hc]
      · next hc => simp [hc]

/-- A text begins with a gram of `n` characters exactly if it begins with `n` symbols. -/
theorem tokenOfFront?_eq (text : List Char) (n : Nat) :
    tokenOfFront? text n =
      if n ≤ lead text then (token? (text.take n)).map (·, n) else none := by
  have hlead := lead_le_length text
  have htake : (text.take n).length = n ↔ n ≤ text.length := by
    rw [List.length_take]
    omega
  simp only [tokenOfFront?, htake]
  by_cases hlong : n ≤ text.length
  · rw [if_pos hlong]
    split
    · rfl
    · next hshort =>
      have hnone : token? (text.take n) = none := by
        rw [← Option.not_isSome_iff_eq_none, isSome_token?_iff, isCode_take_iff hlong]
        exact fun h ↦ hshort h.1
      rw [hnone, Option.map_none]
  · rw [if_neg hlong, if_neg (by omega)]

/-- Two symbols or more in front of a text begin with a gram. -/
theorem isSome_token?_take {text : List Char} {n : Nat} (hmin : minGram ≤ n) (hmax : n ≤ maxGram)
    (hn : n ≤ lead text) : (token? (text.take n)).isSome := by
  have hlong : n ≤ text.length := Nat.le_trans hn (lead_le_length text)
  rw [isSome_token?_iff, isCode_take_iff hlong, List.length_take, Nat.min_eq_left hlong]
  exact ⟨hn, hmin, hmax⟩

/-- The piece in front is a gram exactly if it has more than one character. -/
theorem isSome_token?_front {text : List Char} (h : text ≠ []) :
    (token? (text.take (pieceLength text))).isSome ↔ pieceLength text ≠ 1 := by
  have hlong := pieceLength_le_length h
  rw [isSome_token?_iff, isCode_take_iff hlong, List.length_take, Nat.min_eq_left hlong]
  simp only [pieceLength, minGram, maxGram]
  omega

/-- The longest gram in front of a text is its first piece. -/
theorem longestToken?_eq (text : List Char) :
    longestToken? text =
      (token? (text.take (pieceLength text))).map (·, pieceLength text) := by
  have hlengths : gramLengths.reverse = [4, 3, 2] := rfl
  have hgram {n : Nat} (hmin : 2 ≤ n) (hmax : n ≤ 4) (hn : n ≤ lead text) :
      ∃ c, token? (text.take n) = some c :=
    Option.isSome_iff_exists.mp (isSome_token?_take hmin hmax hn)
  simp only [longestToken?, hlengths, List.findSome?_cons, List.findSome?_nil, tokenOfFront?_eq]
  by_cases h4 : 4 ≤ lead text
  · have hlength : pieceLength text = 4 := by unfold pieceLength maxGram; omega
    obtain ⟨c, hc⟩ := hgram (by omega) (by omega) h4
    simp [hlength, h4, hc]
  by_cases h3 : 3 ≤ lead text
  · have hlength : pieceLength text = 3 := by unfold pieceLength maxGram; omega
    obtain ⟨c, hc⟩ := hgram (by omega) (by omega) h3
    simp [hlength, h4, h3, hc]
  by_cases h2 : 2 ≤ lead text
  · have hlength : pieceLength text = 2 := by unfold pieceLength maxGram; omega
    obtain ⟨c, hc⟩ := hgram (by omega) (by omega) h2
    simp [hlength, h4, h3, h2, hc]
  · have hlength : pieceLength text = 1 := by unfold pieceLength maxGram; omega
    have hnone : token? (text.take 1) = none := by
      rw [← Option.not_isSome_iff_eq_none, isSome_token?_iff, List.length_take, minGram]
      omega
    simp [hlength, h4, h3, h2, hnone]

/-! ## All pieces -/

theorem drop_pieceLength (c : Char) (rest : List Char) :
    rest.drop (pieceLength (c :: rest) - 1) = (c :: rest).drop (pieceLength (c :: rest)) := by
  rw [← Nat.sub_add_cancel (one_le_pieceLength (c :: rest)), List.drop_succ_cons,
    Nat.add_sub_cancel]

/-- The piece in front, then the pieces of what is left. -/
theorem pieces_of_ne_nil {text : List Char} (h : text ≠ []) :
    pieces text =
      text.take (pieceLength text) :: pieces (text.drop (pieceLength text)) := by
  obtain ⟨c, rest, rfl⟩ := List.exists_cons_of_ne_nil h
  rw [pieces, drop_pieceLength]

theorem packPiece_of_some {w : List Char} {c : Char} (h : token? w = some c) :
    packPiece w = [c] := by
  rw [packPiece, h, Option.elim_some]

theorem packPiece_of_none {w : List Char} (h : token? w = none) : packPiece w = w := by
  rw [packPiece, h, Option.elim_none]

/-- Packing a text packs each of its pieces. -/
theorem compress_eq_flatMap_pieces (text : List Char) :
    compress text = (pieces text).flatMap packPiece := by
  unfold compress
  fun_induction pieces text with
  | case1 => rw [packWith, List.flatMap_nil]
  | case2 c rest n ih =>
    have hlongest : longestToken? (c :: rest) = (token? ((c :: rest).take n)).map (·, n) :=
      longestToken?_eq (c :: rest)
    have hgram : (token? ((c :: rest).take n)).isSome ↔ n ≠ 1 :=
      isSome_token?_front (List.cons_ne_nil c rest)
    rw [packWith, hlongest, List.flatMap_cons, ← ih]
    cases htoken : token? ((c :: rest).take n) with
    | some token => simp [packPiece_of_some htoken]
    | none =>
      -- a piece without a token is a single character, so both sides go on behind it
      have hn : n = 1 := by simpa [htoken] using hgram
      have hfront : (c :: rest).take n = [c] := by rw [hn]; rfl
      rw [packPiece_of_none htoken, hfront]
      simp [hn]

@[simp] theorem pieces_nil : pieces [] = [] := by rw [pieces]

@[simp] theorem pieces_singleton (c : Char) : pieces [c] = [[c]] := by
  have hlength : pieceLength [c] = 1 :=
    Nat.le_antisymm (pieceLength_le_length (List.cons_ne_nil c [])) (one_le_pieceLength [c])
  rw [pieces_of_ne_nil (List.cons_ne_nil c []), hlength]
  simp

/-- The pieces make up the text. -/
@[simp] theorem flatten_pieces (text : List Char) : (pieces text).flatten = text := by
  fun_induction pieces text with
  | case1 => rfl
  | case2 c rest n ih =>
    have hdrop : rest.drop (n - 1) = (c :: rest).drop n := drop_pieceLength c rest
    rw [List.flatten_cons, ih, hdrop, List.take_append_drop]

/-- A piece is a gram or a single character. -/
theorem isGram_or_singleton_of_mem_pieces {text w : List Char} (h : w ∈ pieces text) :
    (token? w).isSome ∨ ∃ c ∈ text, w = [c] := by
  fun_induction pieces text with
  | case1 => contradiction
  | case2 c rest n ih =>
    have hgram : (token? ((c :: rest).take n)).isSome ↔ n ≠ 1 :=
      isSome_token?_front (List.cons_ne_nil c rest)
    obtain rfl | h := List.mem_cons.mp h
    · by_cases hn : n = 1
      · exact .inr ⟨c, List.mem_cons_self, by rw [hn]; rfl⟩
      · exact .inl (hgram.mpr hn)
    · refine (ih h).imp_right ?_
      rintro ⟨d, hd, rfl⟩
      exact ⟨d, List.mem_cons_of_mem _ (List.mem_of_mem_drop hd), rfl⟩

/-! ## Cutting a text in two -/

/-- No symbol at the end of the first text meets a symbol at the start of the second. -/
def Apart (text more : List Char) : Prop :=
  ∀ c ∈ text.getLast?, ∀ d ∈ more.head?, ¬(Instruction.isSymbol c ∧ Instruction.isSymbol d)

theorem Apart.drop {text more : List Char} (h : Apart text more) (n : Nat) :
    Apart (text.drop n) more := by
  intro c hc
  rw [List.getLast?_drop] at hc
  split at hc
  · contradiction
  · exact h c hc

/-- What follows a text apart from it does not change the symbols in front. -/
theorem Apart.lead_append {text more : List Char} (h : Apart text more) (htext : text ≠ []) :
    lead (text ++ more) = lead text := by
  induction text with
  | nil => contradiction
  | cons c rest ih =>
    rw [List.cons_append, lead_cons, lead_cons]
    split
    · next hc =>
      cases rest with
      | nil =>
        have hmore : lead more = 0 := by
          refine lead_eq_zero fun d hd hsymbol ↦ ?_
          exact h c rfl d hd ⟨hc, hsymbol⟩
        rw [List.nil_append, hmore]
        rfl
      | cons d rest => rw [ih (h.drop 1) (List.cons_ne_nil d rest)]
    · rfl

/-- Texts that are apart are cut independently of each other. -/
theorem Apart.pieces_append {text more : List Char} (h : Apart text more) :
    pieces (text ++ more) = pieces text ++ pieces more := by
  fun_induction pieces text with
  | case1 => rfl
  | case2 c rest n ih =>
    have htext : c :: rest ≠ [] := List.cons_ne_nil c rest
    have hle : n ≤ (c :: rest).length := pieceLength_le_length htext
    have hlength : pieceLength (c :: rest ++ more) = n := by
      rw [pieceLength, h.lead_append htext]
      rfl
    have hdrop : rest.drop (n - 1) = (c :: rest).drop n := drop_pieceLength c rest
    rw [hdrop] at ih ⊢
    rw [pieces_of_ne_nil (List.append_ne_nil_of_left_ne_nil htext more), hlength,
      List.take_append_of_le_length hle, List.drop_append_of_le_length hle, ih (h.drop n),
      List.cons_append]

/-! ## The pieces of a run of symbols -/

theorem IsCode.length_le_lead_append {code : List Char} (h : IsCode code) (more : List Char) :
    code.length ≤ lead (code ++ more) := by
  rwa [← isCode_take_iff (by simp), List.take_left]

theorem IsCode.lead_eq {code : List Char} (h : IsCode code) : lead code = code.length := by
  refine Nat.le_antisymm (lead_le_length code) ?_
  simpa using h.length_le_lead_append []

theorem IsCode.drop {code : List Char} (h : IsCode code) (n : Nat) : IsCode (code.drop n) :=
  fun c hc ↦ h c (List.mem_of_mem_drop hc)

/-- Symbols that fill their grams are cut independently of the text that follows. -/
theorem IsCode.pieces_append_of_dvd {code : List Char} (hcode : IsCode code)
    (hdvd : maxGram ∣ code.length) (more : List Char) :
    pieces (code ++ more) = pieces code ++ pieces more := by
  fun_induction pieces code with
  | case1 => rfl
  | case2 c rest n ih =>
    have htext : c :: rest ≠ [] := List.cons_ne_nil c rest
    have hfour : maxGram ≤ (c :: rest).length := Nat.le_of_dvd (Nat.succ_pos _) hdvd
    have hn : n = maxGram := by
      simp only [n, pieceLength, hcode.lead_eq, maxGram] at hfour ⊢
      omega
    have hlead : maxGram ≤ lead (c :: rest ++ more) :=
      Nat.le_trans hfour (hcode.length_le_lead_append more)
    have hlength : pieceLength (c :: rest ++ more) = n := by
      rw [pieceLength, hn, Nat.min_eq_left hlead]
      rfl
    have hdrop : rest.drop (n - 1) = (c :: rest).drop n := drop_pieceLength c rest
    rw [hdrop] at ih ⊢
    rw [pieces_of_ne_nil (List.append_ne_nil_of_left_ne_nil htext more), hlength,
      List.take_append_of_le_length (by omega), List.drop_append_of_le_length (by omega),
      ih (hcode.drop n) ?_, List.cons_append]
    rw [List.length_drop, hn]
    exact Nat.dvd_sub hdvd (Nat.dvd_refl _)

/-- A list with one element over ends in that element, behind elements that fill their grams. -/
theorem exists_concat_of_length_mod {α : Type} {l : List α} (h : l.length % maxGram = 1) :
    ∃ init last, l = init ++ [last] ∧ init.length % maxGram = 0 := by
  have hne : l ≠ [] := by
    rintro rfl
    contradiction
  obtain ⟨init, last, rfl⟩ := (List.eq_nil_or_concat' l).resolve_left hne
  refine ⟨init, last, rfl, ?_⟩
  rw [List.length_append, List.length_singleton] at h
  unfold maxGram at h ⊢
  omega

/-- A symbol behind symbols that fill their grams is a piece of its own. -/
theorem IsCode.pieces_concat {init : List Char} (hinit : IsCode init)
    (hfull : init.length % maxGram = 0) (last : Char) :
    pieces (init ++ [last]) = pieces init ++ [[last]] := by
  rw [hinit.pieces_append_of_dvd (Nat.dvd_of_mod_eq_zero hfull), pieces_singleton]

/-- Symbols are cut into grams, unless one is left over. -/
theorem IsCode.isSome_token?_pieces_iff {code : List Char} (hcode : IsCode code) :
    (∀ w ∈ pieces code, (token? w).isSome) ↔ code.length % maxGram ≠ 1 := by
  fun_induction pieces code with
  | case1 => simp [maxGram]
  | case2 c rest n ih =>
    have hgram : (token? ((c :: rest).take n)).isSome ↔ n ≠ 1 :=
      isSome_token?_front (List.cons_ne_nil c rest)
    have hdrop : rest.drop (n - 1) = (c :: rest).drop n := drop_pieceLength c rest
    have hn : n = max 1 (min maxGram (c :: rest).length) := by
      rw [← hcode.lead_eq]
      rfl
    rw [hdrop] at ih ⊢
    rw [List.forall_mem_cons, hgram, ih (hcode.drop n), List.length_drop]
    have hpos : 0 < (c :: rest).length := Nat.succ_pos _
    simp only [maxGram] at hn ⊢
    omega

end TapeLang.Codec
