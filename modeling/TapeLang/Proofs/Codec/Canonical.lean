import TapeLang.Proofs.Codec.RoundTrip
import TapeLang.Proofs.Codec.Segmentation
import Mathlib.Data.List.Chain

/-!
# The canonical packed text

Unpacking a text and packing it again gives a canonical text for what it stands
for. A token stays in its place exactly if nothing is fused with it: it stands
for a gram of the greatest length, or no token follows (`compress_decompress_cons_iff`).
So the texts that stay the same are those where tokens that follow each other
are sealed off by their length (`Sealed`), which is a condition on each run of
tokens (`sealed_iff_runs`). What packing makes of an unpacked text is such a text
(`sealed_compress`), and it is never longer than the text it comes from.
-/

namespace TapeLang.Codec

def IsFullToken (c : Char) : Prop := ∃ w, gram? c = some w ∧ w.length = maxGram

/-- Where a token follows a token, the first one stands for a gram of the greatest length. -/
def Sealed (text : List Char) : Prop :=
  text.IsChain fun c d ↦ IsToken c → IsToken d → IsFullToken c

theorem sealed_cons {c : Char} {rest : List Char} :
    Sealed (c :: rest) ↔
      (∀ d ∈ rest.head?, IsToken c → IsToken d → IsFullToken c) ∧ Sealed rest :=
  List.isChain_cons

/-! ## Runs of tokens -/

/-- In tokens alone all but the last one are of the greatest length. -/
theorem sealed_iff_of_forall_isToken {run : List Char} (h : ∀ c ∈ run, IsToken c) :
    Sealed run ↔ ∀ c ∈ run.dropLast, IsFullToken c := by
  induction run with
  | nil => simp [Sealed]
  | cons c rest ih =>
    obtain ⟨hc, hrest⟩ := List.forall_mem_cons.mp h
    rw [sealed_cons, ih hrest]
    cases rest with
    | nil => simp
    | cons d rest =>
      have hd : IsToken d := hrest d List.mem_cons_self
      rw [List.dropLast_cons_of_ne_nil (List.cons_ne_nil d rest), List.forall_mem_cons]
      simp [hc, hd]

/-- A text is sealed exactly if each of its runs of tokens is. -/
theorem sealed_iff_forall_runOf {text : List Char} :
    Sealed text ↔ ∀ run, RunOf IsToken run text → Sealed run := by
  constructor
  · intro h run hrun
    obtain ⟨before, after, rfl, -, -⟩ := hrun.split
    exact h.infix ⟨before, after, rfl⟩
  · intro h
    induction text using runs_induction (p := IsToken) with
    | nil => exact .nil
    | other c rest hc ih =>
      refine sealed_cons.mpr ⟨fun _ _ htoken ↦ absurd htoken hc, ih fun run hrun ↦ ?_⟩
      have hapart : ∀ d ∈ [c].getLast?, ∀ e ∈ rest.head?, ¬(IsToken d ∧ IsToken e) := by simp [hc]
      exact h run (hrun.append_left hapart)
    | run front rest hne hfront hrest ih =>
      have hapart : ∀ c ∈ front.getLast?, ∀ d ∈ rest.head?, ¬(IsToken c ∧ IsToken d) :=
        fun _ _ d hd hboth ↦ hrest d hd hboth.2
      have hback : Sealed rest := ih fun run hrun ↦ h run (hrun.append_left hapart)
      refine List.isChain_append.mpr ⟨h front ?_, hback, fun c hc d hd _ htoken ↦ ?_⟩
      · exact ⟨hne, hfront, [], rest, rfl, by simp, hrest⟩
      · exact absurd htoken (hrest d hd)

/-- The sealed texts, by their runs of tokens. -/
theorem sealed_iff_runs {text : List Char} :
    Sealed text ↔ ∀ run, RunOf IsToken run text → ∀ c ∈ run.dropLast, IsFullToken c := by
  rw [sealed_iff_forall_runOf]
  exact forall₂_congr fun run hrun ↦ sealed_iff_of_forall_isToken hrun.forall_mem

/-! ## Packing what was unpacked -/

/-- What a character stands for in a packed text: its gram, or itself if it is no token. -/
theorem isPart_decompress_singleton (c : Char) : IsPart (decompress [c]) := by
  rw [decompress_singleton]
  cases hgram : gram? c with
  | none => exact .inr ⟨c, rfl⟩
  | some w => exact .inl (isSome_token?_of_gram? hgram)

/-- What a character stands for is packed to the character. -/
theorem packPiece_decompress_singleton (c : Char) : packPiece (decompress [c]) = [c] := by
  rw [decompress_singleton]
  cases hgram : gram? c with
  | none => exact packPiece_of_none (token?_singleton c)
  | some w => exact packPiece_of_some (gram?_eq_some_iff_token?.mp hgram)

/-- Symbols in front add to the symbols a text begins with. -/
theorem IsCode.lead_append {code : List Char} (h : IsCode code) (more : List Char) :
    lead (code ++ more) = code.length + lead more := by
  unfold lead
  rw [List.takeWhile_append_of_pos h, List.length_append]

/-- An unpacked text begins with a symbol exactly if the packed text begins with a token. -/
theorem lead_decompress_ne_zero_iff {text : List Char} :
    lead (decompress text) ≠ 0 ↔ ∃ d ∈ text.head?, IsToken d := by
  cases text with
  | nil => simp [decompress, lead]
  | cons c rest =>
    rw [← List.singleton_append, decompress_append, decompress_singleton]
    cases hgram : gram? c with
    | none =>
      have hc : ¬IsToken c := gram?_eq_none_iff.mp hgram
      have hother : ¬Instruction.isSymbol c := fun h ↦ hc (isToken_of_isSymbol h)
      simp [lead_cons, hc, hother]
    | some w =>
      have hc : IsToken c := ⟨w, gram?_eq_some_iff_token?.mp hgram⟩
      obtain ⟨hcode, hmin, -⟩ := isSome_token?_iff.mp (isSome_token?_of_gram? hgram)
      rw [Option.getD_some, hcode.lead_append]
      simp only [minGram] at hmin
      exact iff_of_true (by omega) ⟨c, rfl, hc⟩

/-- The first piece of an unpacked text is what the first character stands for, unless that is fused with what
follows. -/
theorem pieceLength_decompress_cons_iff {c : Char} {rest : List Char} :
    pieceLength (decompress (c :: rest)) = (decompress [c]).length ↔
      ∀ d ∈ rest.head?, IsToken c → IsToken d → IsFullToken c := by
  rw [← List.singleton_append, decompress_append, decompress_singleton, pieceLength]
  cases hgram : gram? c with
  | none =>
    have hc : ¬IsToken c := gram?_eq_none_iff.mp hgram
    have hother : ¬Instruction.isSymbol c := fun h ↦ hc (isToken_of_isSymbol h)
    simp [lead_cons, hc, hother]
  | some w =>
    have hc : IsToken c := ⟨w, gram?_eq_some_iff_token?.mp hgram⟩
    have hfull : IsFullToken c ↔ w.length = maxGram := by simp [IsFullToken, hgram]
    obtain ⟨hcode, hmin, hmax⟩ := isSome_token?_iff.mp (isSome_token?_of_gram? hgram)
    have hlength : max 1 (min maxGram (w.length + lead (decompress rest))) = w.length ↔
        (lead (decompress rest) ≠ 0 → w.length = maxGram) := by
      simp only [minGram, maxGram] at hmin hmax ⊢
      omega
    rw [Option.getD_some, hcode.lead_append, hlength, lead_decompress_ne_zero_iff, hfull]
    constructor
    · intro h d hd _ htoken
      exact h ⟨d, hd, htoken⟩
    · rintro h ⟨d, hd, htoken⟩
      exact h d hd hc htoken

/-- A packed text begins with what packing makes of the first piece. -/
theorem compress_of_ne_nil {text : List Char} (h : text ≠ []) :
    compress text =
      packPiece (text.take (pieceLength text)) ++ compress (text.drop (pieceLength text)) := by
  rw [compress_eq_flatMap_pieces, pieces_of_ne_nil h, List.flatMap_cons,
    ← compress_eq_flatMap_pieces]

/-- A character comes back in its place exactly if it is not fused with what follows. -/
theorem compress_decompress_cons_iff {c : Char} {rest : List Char} :
    compress (decompress (c :: rest)) = c :: rest ↔
      (∀ d ∈ rest.head?, IsToken c → IsToken d → IsFullToken c) ∧
        compress (decompress rest) = rest := by
  have hsplit : decompress (c :: rest) = decompress [c] ++ decompress rest := decompress_append [c] rest
  have hne : decompress (c :: rest) ≠ [] :=
    List.ne_nil_of_length_pos (Nat.lt_of_lt_of_le (Nat.succ_pos _) (length_le_decompress (c :: rest)))
  rw [← pieceLength_decompress_cons_iff, compress_of_ne_nil hne]
  by_cases hlength : pieceLength (decompress (c :: rest)) = (decompress [c]).length
  · rw [hlength, hsplit, List.take_left, List.drop_left, packPiece_decompress_singleton]
    simp
  · -- The first piece is longer than what `c` stands for, so it is a gram with another token.
    refine iff_of_false (fun heq ↦ hlength ?_) (fun h ↦ hlength h.1)
    have hle : (decompress [c]).length ≤ pieceLength (decompress (c :: rest)) := by
      rw [hsplit]
      exact (isPart_decompress_singleton c).length_le_pieceLength _
    have hpos : 1 ≤ (decompress [c]).length := length_le_decompress [c]
    have hgram := (isSome_token?_front hne).mpr (by omega)
    obtain ⟨token, htoken⟩ := Option.isSome_iff_exists.mp hgram
    rw [packPiece_of_some htoken, List.singleton_append, List.cons.injEq] at heq
    rw [heq.1, ← gram?_eq_some_iff_token?] at htoken
    rw [decompress_singleton, htoken, Option.getD_some, List.length_take,
      Nat.min_eq_left (pieceLength_le_length hne)]

/-- The texts that unpacking and packing leave as they are. -/
theorem compress_decompress_iff_sealed {text : List Char} :
    compress (decompress text) = text ↔ Sealed text := by
  induction text with
  | nil => simp [decompress, compress, packWith, Sealed]
  | cons c rest ih => rw [compress_decompress_cons_iff, sealed_cons, ih]

/-! ## Packing seals -/

theorem lead_drop {text : List Char} {n : Nat} (h : n ≤ lead text) :
    lead (text.drop n) = lead text - n := by
  have hcode : IsCode (text.take n) :=
    (isCode_take_iff (Nat.le_trans h (lead_le_length text))).mpr h
  have hsplit := hcode.lead_append (text.drop n)
  rw [List.take_append_drop, List.length_take,
    Nat.min_eq_left (Nat.le_trans h (lead_le_length text))] at hsplit
  omega

/-- A text that begins with no symbol keeps its first character when it is packed. -/
theorem head?_compress {text : List Char} (h : lead text = 0) :
    (compress text).head? = text.head? := by
  cases text with
  | nil => simp [compress, packWith]
  | cons c rest =>
    have hlength : pieceLength (c :: rest) = 1 := by simp [pieceLength, h]
    rw [compress_of_ne_nil (List.cons_ne_nil c rest), hlength, List.take_succ_cons, List.take_zero,
      packPiece_of_none (token?_singleton c)]
    rfl

/-- A token in front of a text that is packed comes from a symbol, if the text has no tokens but symbols. -/
theorem lead_ne_zero_of_isToken {text : List Char}
    (h : ∀ c ∈ text, IsToken c → Instruction.isSymbol c) {e : Char} (he : e ∈ (compress text).head?)
    (htoken : IsToken e) : lead text ≠ 0 := by
  intro hlead
  rw [head?_compress hlead] at he
  cases text with
  | nil => simp at he
  | cons c rest =>
    obtain rfl : c = e := Option.some.inj he
    have hc : Instruction.isSymbol c := h c List.mem_cons_self htoken
    simp [lead_cons, hc] at hlead

/-- Packing seals a text that has no tokens but symbols. -/
theorem sealed_compress {text : List Char} (h : ∀ c ∈ text, IsToken c → Instruction.isSymbol c) :
    Sealed (compress text) := by
  rw [compress_eq_flatMap_pieces]
  fun_induction pieces text with
  | case1 => exact .nil
  | case2 c rest n ih =>
    have htext : c :: rest ≠ [] := List.cons_ne_nil c rest
    have hdrop : rest.drop (n - 1) = (c :: rest).drop n := drop_pieceLength c rest
    have hgram : (token? ((c :: rest).take n)).isSome ↔ n ≠ 1 := isSome_token?_front htext
    have hn : n = max 1 (min maxGram (lead (c :: rest))) := rfl
    rw [hdrop] at ih ⊢
    have hrest : ∀ d ∈ (c :: rest).drop n, IsToken d → Instruction.isSymbol d :=
      fun d hd ↦ h d (List.mem_of_mem_drop hd)
    specialize ih hrest
    rw [List.flatMap_cons]
    rw [← compress_eq_flatMap_pieces] at ih ⊢
    cases htoken : token? ((c :: rest).take n) with
    | none =>
      -- A piece without a token is one character; it is no token, or no symbol follows it.
      have hone : n = 1 := by simpa [htoken] using hgram
      have hfront : (c :: rest).take n = [c] := by rw [hone]; rfl
      rw [hfront] at htoken
      rw [hfront, packPiece_of_none htoken, List.singleton_append, sealed_cons]
      refine ⟨fun e he hc hetoken ↦ ?_, ih⟩
      have hlead := lead_ne_zero_of_isToken hrest he hetoken
      have hsymbol : Instruction.isSymbol c := h c List.mem_cons_self hc
      rw [lead_cons, if_pos hsymbol] at hn
      rw [hone, List.drop_succ_cons, List.drop_zero] at hlead
      simp only [maxGram] at hn
      omega
    | some token =>
      -- A piece with a token is a gram; it has the greatest length, or no symbol follows it.
      rw [packPiece_of_some htoken, List.singleton_append, sealed_cons]
      refine ⟨fun e he _ hetoken ↦ ?_, ih⟩
      have hlead := lead_ne_zero_of_isToken hrest he hetoken
      have hone : n ≠ 1 := hgram.mp (by rw [htoken, Option.isSome_some])
      refine ⟨_, gram?_eq_some_iff_token?.mpr htoken, ?_⟩
      rw [List.length_take, Nat.min_eq_left (pieceLength_le_length htext)]
      simp only [maxGram] at hn ⊢
      rw [lead_drop (by omega)] at hlead
      omega

/-- The tokens in an unpacked text are symbols. -/
theorem isSymbol_of_mem_decompress {text : List Char} :
    ∀ c ∈ decompress text, IsToken c → Instruction.isSymbol c := by
  intro c hc htoken
  obtain ⟨d, -, hd⟩ := List.mem_flatMap.mp hc
  cases hgram : gram? d with
  | none =>
    rw [hgram, Option.getD_none, List.mem_singleton] at hd
    exact absurd (hd ▸ htoken) (gram?_eq_none_iff.mp hgram)
  | some w =>
    rw [hgram, Option.getD_some] at hd
    exact (isSome_token?_iff.mp (isSome_token?_of_gram? hgram)).1 c hd

/-- Packing an unpacked text makes it no longer than it was. -/
theorem length_compress_decompress_le (text : List Char) :
    (compress (decompress text)).length ≤ text.length := by
  have hparts : decompress text = (text.map fun c ↦ decompress [c]).flatten := by
    simp [decompress, List.flatMap_def]
  have hlength : (text.map fun c ↦ decompress [c]).length = text.length := List.length_map _
  rw [length_compress, hparts, ← hlength]
  refine length_pieces_flatten_le fun w hw ↦ ?_
  obtain ⟨c, -, rfl⟩ := List.mem_map.mp hw
  exact isPart_decompress_singleton c

/-- Unpacking and packing again makes a text canonical. It leaves a text as it is exactly if in each run of tokens all
but the last stand for grams of four symbols; it changes nothing more when it is done again; and no text gets longer. -/
theorem repacked_text_is_canonical :
    (∀ text : List Char,
      compress (decompress text) = text ↔
        ∀ run, RunOf IsToken run text →
          ∀ c ∈ run.dropLast, ∃ w, gram? c = some w ∧ w.length = 4) ∧
    (∀ text : List Char,
      compress (decompress (compress (decompress text))) = compress (decompress text)) ∧
    ∀ text : List Char, (compress (decompress text)).length ≤ text.length := by
  refine ⟨fun text ↦ ?_, fun text ↦ ?_, length_compress_decompress_le⟩
  · rw [compress_decompress_iff_sealed, sealed_iff_runs]
    rfl
  · exact compress_decompress_iff_sealed.mpr (sealed_compress isSymbol_of_mem_decompress)

/-- Two blanks are a run of tokens. Each stands for two increments, so the first one is fused with the second. -/
theorem two_blanks_are_repacked :
    RunOf IsToken [' ', ' '] [' ', ' '] ∧ compress (decompress [' ', ' ']) ≠ [' ', ' '] := by
  have hgram : gram? ' ' = some ['+', '+'] :=
    gram?_eq_some_iff_token?.mpr (token?_eq_some_of_mem_shortPairs (by decide +kernel))
  have htoken : IsToken ' ' := isToken_iff_isSome_gram?.mpr (by rw [hgram, Option.isSome_some])
  have hrun : RunOf IsToken [' ', ' '] [' ', ' '] :=
    ⟨by decide, by simpa using htoken, [], [], rfl, by simp, by simp⟩
  refine ⟨hrun, fun hsame ↦ ?_⟩
  obtain ⟨w, hw, hlength⟩ :=
    (repacked_text_is_canonical.1 [' ', ' ']).mp hsame _ hrun ' ' List.mem_cons_self
  obtain rfl : ['+', '+'] = w := Option.some.inj (hgram.symm.trans hw)
  contradiction

end TapeLang.Codec
