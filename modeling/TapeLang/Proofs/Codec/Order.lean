import Mathlib.Data.List.Lex
import TapeLang.Proofs.Codec.Tokens

/-!
# The order of the tokens

The grams are listed in an order of their own: the shorter ones first, and grams
of one length as the alphabet orders them (`pairwise_grams`). The token characters
are listed in the order of their code points. So a token comes before another
exactly if its gram does (`toNat_lt_iff_precedes`), and when the maps are filled no
entry is put in the place of another.

Main statement: `tokens_number_the_grams`.
-/

namespace TapeLang.Codec

variable {v w : List Instruction} {c d : Char}

/-! ## The order of the grams -/

/-- The order of words of one length: the first instruction in which they differ decides, by its place in the
alphabet. -/
def AlphabetLT : List Instruction → List Instruction → Prop :=
  List.Lex fun i j ↦ i.index < j.index

/-- A word comes before the longer ones, and before those of its length that the alphabet puts behind it. -/
def Precedes (v w : List Instruction) : Prop :=
  v.length < w.length ∨ v.length = w.length ∧ AlphabetLT v w

instance : Std.Asymm AlphabetLT :=
  have : Std.Asymm fun i j : Instruction ↦ i.index < j.index := ⟨fun _ _ ↦ Nat.lt_asymm⟩
  inferInstanceAs (Std.Asymm (List.Lex _))

instance : Std.Asymm Precedes where
  asymm v w := by
    rintro (hlt | ⟨heq, hlt⟩) (hgt | ⟨heq', hgt⟩)
    · exact Nat.lt_asymm hlt hgt
    · omega
    · omega
    · exact Std.Asymm.asymm v w hlt hgt

/-- The words of one length are listed as the alphabet orders them. -/
theorem pairwise_words (n : Nat) : (words n).Pairwise AlphabetLT := by
  induction n with
  | zero => exact List.pairwise_singleton _ _
  | succ n ih =>
    rw [words, List.pairwise_flatMap]
    constructor
    · intro i _
      exact List.pairwise_map.mpr (ih.imp .cons)
    · have hall : Instruction.all.Pairwise fun i j ↦ i.index < j.index := by decide
      refine hall.imp fun hij v hv w hw ↦ ?_
      obtain ⟨_, -, rfl⟩ := List.mem_map.mp hv
      obtain ⟨_, -, rfl⟩ := List.mem_map.mp hw
      exact .rel hij

private theorem pairwise_precedes_words (n : Nat) : (words n).Pairwise Precedes := by
  refine (pairwise_words n).imp_of_mem fun {v w} hv hw hlt ↦ Or.inr ⟨?_, hlt⟩
  rw [mem_words.mp hv, mem_words.mp hw]

/-- The grams are listed in their order. -/
theorem pairwise_grams : grams.toList.Pairwise Precedes := by
  have hlonger {m n : Nat} (hmn : m < n) : ∀ v ∈ words m, ∀ w ∈ words n, Precedes v w := by
    intro v hv w hw
    rw [← mem_words.mp hv, ← mem_words.mp hw] at hmn
    exact Or.inl hmn
  rw [toList_grams, List.pairwise_append, List.pairwise_append]
  refine ⟨⟨pairwise_precedes_words 2, pairwise_precedes_words 3, hlonger (by decide)⟩,
    pairwise_precedes_words 4, fun v hv ↦ ?_⟩
  rcases List.mem_append.mp hv with hv | hv
  · exact hlonger (by decide) v hv
  · exact hlonger (by decide) v hv

/-! ## The order of the tokens -/

/-- In a list in strict order the places of two entries are ordered as the entries are. -/
theorem rel_iff_lt {α : Type} {R : α → α → Prop} [Std.Asymm R] {l : List α} {i j : Nat} {a b : α}
    (h : l.Pairwise R) (hi : l[i]? = some a) (hj : l[j]? = some b) : R a b ↔ i < j := by
  obtain ⟨hlti, rfl⟩ := List.getElem?_eq_some_iff.mp hi
  obtain ⟨hltj, rfl⟩ := List.getElem?_eq_some_iff.mp hj
  rw [List.pairwise_iff_getElem] at h
  constructor
  · intro hab
    rcases Nat.lt_trichotomy i j with hlt | rfl | hgt
    · exact hlt
    · exact absurd hab (Std.Asymm.asymm _ _ hab)
    · exact absurd hab (Std.Asymm.asymm _ _ (h j i hltj hlti hgt))
  · exact h i j hlti hltj

/-- A gram and its token stand at the same place of their lists. -/
theorem exists_place (h : token? (w.map Instruction.symbol) = some c) :
    ∃ i : Nat, grams.toList[i]? = some w ∧ codePoints[i]? = some c.toNat := by
  obtain ⟨i, hi⟩ := List.mem_iff_getElem?.mp (token?_eq_some_iff.mp h)
  obtain ⟨hgram, hchar⟩ := List.getElem?_zip_eq_some.mp hi
  refine ⟨i, ?_, ?_⟩
  · rw [List.getElem?_map, Option.map_eq_some_iff] at hgram
    obtain ⟨w', hw', heq⟩ := hgram
    rw [hw', List.map_injective_iff.mpr (fun _ _ ↦ Instruction.symbol_inj.mp) heq]
  · rw [← map_toNat_tokenChars, List.getElem?_map, hchar, Option.map_some]

/-- A token has the smaller code point exactly if its gram comes first. -/
theorem toNat_lt_iff_precedes (hv : token? (v.map Instruction.symbol) = some c)
    (hw : token? (w.map Instruction.symbol) = some d) : c.toNat < d.toNat ↔ Precedes v w := by
  obtain ⟨i, hvi, hci⟩ := exists_place hv
  obtain ⟨j, hwj, hdj⟩ := exists_place hw
  have : Std.Asymm fun m n : Nat ↦ m < n := ⟨fun _ _ ↦ Nat.lt_asymm⟩
  rw [rel_iff_lt pairwise_codePoints hci hdj, rel_iff_lt pairwise_grams hvi hwj]

/-! ## Filling the maps -/

/-- When a pair is put into the maps, neither of them has an entry in its place. -/
theorem notMem_ofPairs {front rest : List (List Char × Char)} {text : List Char}
    (h : tokenPairs = front ++ (text, c) :: rest) :
    text ∉ (Tokens.ofPairs front).tokens ∧ c ∉ (Tokens.ofPairs front).grams := by
  have hfst := nodup_fst_tokenPairs
  have hsnd := nodup_snd_tokenPairs
  rw [h, List.map_append, List.map_cons, List.nodup_append] at hfst hsnd
  unfold Tokens.ofPairs
  rw [Std.HashMap.mem_ofList, Std.HashMap.mem_ofList, List.contains_iff_mem, List.contains_iff_mem,
    List.map_map]
  constructor
  · exact fun hmem ↦ hfst.2.2 text hmem text List.mem_cons_self rfl
  · exact fun hmem ↦ hsnd.2.2 c hmem c List.mem_cons_self rfl

/-- Each gram has one token and each token stands for one gram; the texts with a token are those of two to four
symbols. The tokens have increasing code points in the order of the grams. There are enough token characters, and
no entry of the maps is overwritten when they are filled. -/
theorem tokens_number_the_grams :
    (∀ (text : List Char) (c : Char), token? text = some c ↔ gram? c = some text) ∧
      (∀ text : List Char, (token? text).isSome ↔
        IsCode text ∧ 2 ≤ text.length ∧ text.length ≤ 4) ∧
      (∀ (v w : List Instruction) (c d : Char),
        token? (v.map Instruction.symbol) = some c → token? (w.map Instruction.symbol) = some d →
          (c.toNat < d.toNat ↔ Precedes v w)) ∧
      grams.size ≤ tokenChars.length ∧
      ∀ (front rest : List (List Char × Char)) (text : List Char) (c : Char),
        tokenPairs = front ++ (text, c) :: rest →
          text ∉ (Tokens.ofPairs front).tokens ∧ c ∉ (Tokens.ofPairs front).grams := by
  refine ⟨fun text c ↦ gram?_eq_some_iff_token?.symm, fun text ↦ isSome_token?_iff,
    fun v w c d ↦ toNat_lt_iff_precedes, length_grams_le_length_tokenChars,
    fun front rest text c ↦ notMem_ofPairs⟩

/-- The last word of two, written by commas, has a smaller token than the first word of three, and its pair is new when
it is put into the maps. -/
theorem tokens_number_two_commas_before_three_increments :
    token? [',', ','] = some '_' ∧
      (∃ d, token? ['+', '+', '+'] = some d ∧ ('_' : Char).toNat < d.toNat) ∧
      ∃ front rest, tokenPairs = front ++ ([',', ','], '_') :: rest ∧
        [',', ','] ∉ (Tokens.ofPairs front).tokens ∧ '_' ∉ (Tokens.ofPairs front).grams := by
  have hcommas : token? [',', ','] = some '_' :=
    token?_eq_some_of_mem_shortPairs (by decide +kernel)
  obtain ⟨-, hcover, horder, -, hnew⟩ := tokens_number_the_grams
  have hthree : IsCode ['+', '+', '+'] := isCode_iff.mpr ⟨List.replicate 3 .increment, rfl⟩
  obtain ⟨d, hd⟩ := Option.isSome_iff_exists.mp ((hcover _).mpr ⟨hthree, by decide, by decide⟩)
  obtain ⟨front, rest, hsplit⟩ := List.append_of_mem (token?_eq_some_iff.mp hcommas)
  refine ⟨hcommas, ⟨d, hd, ?_⟩, front, rest, hsplit, hnew front rest _ _ hsplit⟩
  exact (horder [.input, .input] (List.replicate 3 .increment) '_' d hcommas hd).mpr
    (Or.inl (by decide))

end TapeLang.Codec
