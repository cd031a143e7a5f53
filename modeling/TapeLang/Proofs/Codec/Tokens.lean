import TapeLang.Codec.Tokens
import TapeLang.Proofs.Codec.Grams
import Mathlib.Data.List.Nodup

/-!
# The pairing of grams and tokens

The token characters have increasing code points, so no character is the token
of two grams, and there are more of them than grams. The two maps therefore
hold the same pairs (`token?_eq_some_iff`, `gram?_eq_some_iff`). A text has a
token exactly if it is made of two to four instruction symbols
(`isSome_token?_iff`), and the symbols of the instructions are tokens
themselves (`exists_token?_eq_symbol`).
-/

namespace TapeLang.Codec

/-! ## Token characters -/

def codePoints : List Nat := codePointBlocks.flatMap codePointsOf

theorem mem_codePointsOf {block : Nat × Nat} {n : Nat} :
    n ∈ codePointsOf block ↔ block.1 ≤ n ∧ n ≤ block.2 := by
  rw [codePointsOf, List.mem_range'_1]
  omega

/-- The code points are listed in increasing order. -/
theorem pairwise_codePoints : codePoints.Pairwise (· < ·) := by
  have hblocks : codePointBlocks.Pairwise fun b b' ↦ b.2 < b'.1 := by decide
  rw [codePoints, List.pairwise_flatMap]
  constructor
  · intro block _
    exact List.pairwise_lt_range'
  · refine hblocks.imp fun {block block'} hlt n hn n' hn' ↦ ?_
    rw [mem_codePointsOf] at hn hn'
    omega

/-- All of them are below the surrogates. -/
theorem lt_surrogates_of_mem_codePoints {n : Nat} (h : n ∈ codePoints) : n < 0xD800 := by
  have hblocks : ∀ block ∈ codePointBlocks, block.2 < 0xD800 := by decide
  obtain ⟨block, hblock, hn⟩ := List.mem_flatMap.mp h
  exact Nat.lt_of_le_of_lt (mem_codePointsOf.mp hn).2 (hblocks block hblock)

/-- The token characters are the characters of these code points. -/
theorem map_toNat_tokenChars : tokenChars.map Char.toNat = codePoints := by
  rw [tokenChars, ← codePoints, List.map_map]
  apply List.map_congr_left (g := id) _ |>.trans (List.map_id codePoints)
  intro n hn
  have hvalid : n.isValidChar := .inl (lt_surrogates_of_mem_codePoints hn)
  rw [Function.comp_apply, Char.ofNat, dif_pos hvalid]
  rfl

/-- The token characters are listed in increasing order. -/
theorem pairwise_tokenChars : tokenChars.Pairwise fun c c' ↦ c.toNat < c'.toNat := by
  have h := pairwise_codePoints
  rwa [← map_toNat_tokenChars, List.pairwise_map] at h

theorem nodup_tokenChars : tokenChars.Nodup := by
  refine pairwise_tokenChars.imp fun hlt heq ↦ ?_
  exact Nat.lt_irrefl _ (heq ▸ hlt)

/-- There is a token character for each gram. -/
theorem length_grams_le_length_tokenChars : grams.toList.length ≤ tokenChars.length := by
  have hlength : tokenChars.length = (codePointBlocks.map fun b ↦ b.2 + 1 - b.1).sum := by
    simp only [tokenChars, codePointsOf, List.length_map, List.length_flatMap,
      List.length_range']
  rw [hlength, length_grams]
  decide

/-! ## Pairs -/

theorem map_fst_tokenPairs :
    tokenPairs.map Prod.fst = grams.toList.map (·.map Instruction.symbol) := by
  rw [tokenPairs, List.map_fst_zip]
  rw [List.length_map]
  exact length_grams_le_length_tokenChars

/-- No text is paired twice. -/
theorem nodup_fst_tokenPairs : (tokenPairs.map Prod.fst).Nodup := by
  rw [map_fst_tokenPairs]
  refine nodup_grams.map ?_
  exact List.map_injective_iff.mpr fun _ _ h ↦ Instruction.symbol_inj.mp h

/-- The tokens are the first token characters. -/
theorem map_snd_tokenPairs :
    tokenPairs.map Prod.snd = tokenChars.take grams.toList.length := by
  have hlength := length_grams_le_length_tokenChars
  rw [tokenPairs, List.zip_eq_zip_take_min, List.length_map, Nat.min_eq_left hlength,
    List.map_snd_zip]
  rw [List.length_take, List.length_take, List.length_map]
  omega

/-- No character is paired twice. -/
theorem nodup_snd_tokenPairs : (tokenPairs.map Prod.snd).Nodup := by
  rw [map_snd_tokenPairs]
  exact nodup_tokenChars.sublist (List.take_sublist _ _)

section Maps

variable {α β : Type} [BEq α] [LawfulBEq α] [Hashable α]

/-- A map made from pairs with different keys holds just these pairs. -/
theorem getElem?_ofList_eq_some_iff {pairs : List (α × β)} (hkeys : (pairs.map Prod.fst).Nodup)
    {a : α} {b : β} : (Std.HashMap.ofList pairs)[a]? = some b ↔ (a, b) ∈ pairs := by
  have hpairs : pairs.Pairwise fun p q ↦ (p.1 == q.1) = false := by
    refine (List.pairwise_map.mp hkeys).imp fun hne ↦ ?_
    exact beq_eq_false_iff_ne.mpr hne
  have hmem {b : β} (h : (a, b) ∈ pairs) : (Std.HashMap.ofList pairs)[a]? = some b :=
    Std.HashMap.getElem?_ofList_of_mem (beq_self_eq_true a) hpairs h
  constructor
  · intro h
    by_cases ha : (pairs.map Prod.fst).contains a
    · obtain ⟨⟨_, b'⟩, hb', rfl⟩ := List.mem_map.mp (List.contains_iff_mem.mp ha)
      rw [hmem hb'] at h
      rwa [← Option.some.inj h]
    · rw [Std.HashMap.getElem?_ofList_of_contains_eq_false (Bool.eq_false_iff.mpr ha)] at h
      contradiction
  · exact hmem

end Maps

/-- A text has the token it is paired with. -/
theorem token?_eq_some_iff {w : List Char} {c : Char} :
    token? w = some c ↔ (w, c) ∈ tokenPairs := by
  unfold token? tokenMaps
  exact getElem?_ofList_eq_some_iff nodup_fst_tokenPairs

/-- A token stands for the text it is paired with. -/
theorem gram?_eq_some_iff {w : List Char} {c : Char} :
    gram? c = some w ↔ (w, c) ∈ tokenPairs := by
  have hkeys : ((tokenPairs.map Prod.swap).map Prod.fst).Nodup := by
    rw [List.map_map]
    exact nodup_snd_tokenPairs
  unfold gram? tokenMaps
  refine (getElem?_ofList_eq_some_iff hkeys).trans ?_
  simp

/-- The two maps are inverse to each other. -/
theorem gram?_eq_some_iff_token? {w : List Char} {c : Char} :
    gram? c = some w ↔ token? w = some c := by
  rw [gram?_eq_some_iff, token?_eq_some_iff]

/-- The text a token stands for has a token. -/
theorem isSome_token?_of_gram? {w : List Char} {c : Char} (h : gram? c = some w) :
    (token? w).isSome := by
  rw [gram?_eq_some_iff_token?.mp h, Option.isSome_some]

/-! ## What has a token -/

/-- A text made of instruction symbols only. -/
def IsCode (w : List Char) : Prop := ∀ c ∈ w, Instruction.isSymbol c

/-- A text made of symbols is written by instructions. -/
theorem isCode_iff {w : List Char} :
    IsCode w ↔ ∃ code : List Instruction, w = code.map Instruction.symbol := by
  constructor
  · intro h
    induction w with
    | nil => exact ⟨[], rfl⟩
    | cons c rest ih =>
      obtain ⟨hc, hrest⟩ := List.forall_mem_cons.mp h
      obtain ⟨i, hi⟩ := Option.isSome_iff_exists.mp hc
      obtain ⟨code, rfl⟩ := ih hrest
      exact ⟨i :: code, by rw [List.map_cons, Instruction.ofSymbol?_eq_some_iff.mp hi]⟩
  · rintro ⟨code, rfl⟩ c hc
    obtain ⟨i, -, rfl⟩ := List.mem_map.mp hc
    rw [Instruction.isSymbol, Instruction.ofSymbol?_symbol, Option.isSome_some]

/-- Two to four instruction symbols have a token, and no other text has one. -/
theorem isSome_token?_iff {w : List Char} :
    (token? w).isSome ↔ IsCode w ∧ minGram ≤ w.length ∧ w.length ≤ maxGram := by
  have hpairs : (token? w).isSome ↔ w ∈ tokenPairs.map Prod.fst := by
    simp [Option.isSome_iff_exists, token?_eq_some_iff]
  rw [hpairs, map_fst_tokenPairs, isCode_iff]
  constructor
  · intro h
    obtain ⟨code, hcode, rfl⟩ := List.mem_map.mp h
    rw [List.length_map]
    exact ⟨⟨code, rfl⟩, mem_grams.mp hcode⟩
  · rintro ⟨⟨code, rfl⟩, hlength⟩
    rw [List.length_map] at hlength
    exact List.mem_map_of_mem (mem_grams.mpr hlength)

/-- A single character has no token. -/
theorem token?_singleton (c : Char) : token? [c] = none := by
  rw [← Option.not_isSome_iff_eq_none, isSome_token?_iff, List.length_singleton, minGram]
  omega

def IsToken (c : Char) : Prop := ∃ w, token? w = some c

theorem isToken_iff_isSome_gram? {c : Char} : IsToken c ↔ (gram? c).isSome := by
  simp only [IsToken, Option.isSome_iff_exists, gram?_eq_some_iff_token?]

/-- A character that is no token stands for no text. -/
theorem gram?_eq_none_iff {c : Char} : gram? c = none ↔ ¬IsToken c := by
  rw [isToken_iff_isSome_gram?, Option.isSome_iff_ne_none, not_not]

/-- A line end is no token: the blocks begin behind the control characters. -/
theorem not_isToken_newline : ¬IsToken '\n' := by
  rintro ⟨w, hw⟩
  have hpair : ('\n' : Char) ∈ tokenPairs.map Prod.snd :=
    List.mem_map_of_mem (f := Prod.snd) (token?_eq_some_iff.mp hw)
  rw [map_snd_tokenPairs] at hpair
  have hpoint : ('\n' : Char).toNat ∈ codePoints := by
    rw [← map_toNat_tokenChars]
    exact List.mem_map_of_mem (List.mem_of_mem_take hpair)
  obtain ⟨block, hblock, hn⟩ := List.mem_flatMap.mp hpoint
  have hstart : ∀ block ∈ codePointBlocks, ('\n' : Char).toNat < block.1 := by decide
  exact Nat.not_le_of_lt (hstart block hblock) (mem_codePointsOf.mp hn).1

/-! ## The symbols as tokens -/

/-- The first block begins with a code point for each of the 64 shortest grams. -/
theorem range'_prefix_codePoints : List.range' 32 64 <+: codePoints := by
  have hblock : codePointsOf (32, 126) = List.range' 32 64 ++ List.range' 96 31 := by
    rw [List.range'_append_1]
    rfl
  have hcons : codePoints = codePointsOf (32, 126) ++ codePointBlocks.tail.flatMap codePointsOf := by
    rw [codePoints, ← List.flatMap_cons]
    rfl
  rw [hcons, hblock, List.append_assoc]
  exact List.prefix_append _ _

/-- The words of two symbols, paired with the characters from the space on. -/
def shortPairs : List (List Char × Char) :=
  ((words 2).map (·.map Instruction.symbol)).zip ((List.range' 32 64).map Char.ofNat)

theorem token?_eq_some_of_mem_shortPairs {w : List Char} {c : Char} (h : (w, c) ∈ shortPairs) :
    token? w = some c := by
  obtain ⟨moreChars, hchars⟩ : (List.range' 32 64).map Char.ofNat <+: tokenChars :=
    range'_prefix_codePoints.map Char.ofNat
  rw [token?_eq_some_iff, tokenPairs, ← hchars, toList_grams, List.append_assoc, List.map_append,
    List.zip_append (by rfl)]
  exact List.mem_append_left _ h

/-- The symbol of each instruction is the token of a word of two: the symbols lie between the space and the
underscore. -/
theorem exists_token?_eq_symbol (i : Instruction) :
    ∃ a b : Instruction, token? [a.symbol, b.symbol] = some i.symbol := by
  have hpair : ∃ a ∈ Instruction.all, ∃ b ∈ Instruction.all,
      ([a.symbol, b.symbol], i.symbol) ∈ shortPairs := by
    cases i <;> decide +kernel
  obtain ⟨a, -, b, -, hab⟩ := hpair
  exact ⟨a, b, token?_eq_some_of_mem_shortPairs hab⟩

/-- Every symbol is a token. -/
theorem isToken_of_isSymbol {c : Char} (h : Instruction.isSymbol c) : IsToken c := by
  obtain ⟨i, hi⟩ := Option.isSome_iff_exists.mp h
  obtain ⟨a, b, hab⟩ := exists_token?_eq_symbol i
  rw [Instruction.ofSymbol?_eq_some_iff.mp hi]
  exact ⟨_, hab⟩

end TapeLang.Codec
