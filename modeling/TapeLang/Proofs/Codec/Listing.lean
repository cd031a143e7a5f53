import Mathlib.Data.Nat.Digits.Lemmas
import TapeLang.Proofs.Codec.Order

/-!
# Listing the words behind a path

A walk notes the words of one length that begin with its path. They are numbered
by what they add to the path, each instruction a digit in base 8 (`map_numeral_words`),
so the word at a place of the list can be read off the place (`map_index_eq_digits`).

The depth of a walk is what the path lacks of the length. A listing that is given
the length instead, and looks at the path in every call, comes to an end, and lists
the same words behind any texts (`Listing.extend_eq`). With a path that is too long it
does not (`Listing.extend_eq_none`).

Main statement: `walk_lists_words_behind_path`.
-/

namespace TapeLang.Codec

/-! ## Words as numbers -/

/-- The number that a word stands for in base 8: an instruction is a digit by its place in the alphabet. -/
def numeral (w : List Instruction) : Nat := Nat.ofDigits 8 (w.map Instruction.index).reverse

theorem numeral_cons (i : Instruction) (w : List Instruction) :
    numeral (i :: w) = 8 ^ w.length * i.index + numeral w := by
  rw [numeral, List.map_cons, List.reverse_cons, Nat.ofDigits_append, Nat.ofDigits_singleton,
    List.length_reverse, List.length_map, Nat.add_comm]
  rfl

-- Counting up to a product in equal parts.
private theorem range_mul (a b : Nat) :
    List.range (b * a) = (List.range a).flatMap fun j ↦ (List.range b).map (b * j + ·) := by
  induction a with
  | zero => rfl
  | succ a ih =>
    rw [Nat.mul_succ, List.range_add, List.range_succ, List.flatMap_append, ih,
      List.flatMap_singleton]

/-- The words of one length are listed as the numbers that they stand for. -/
theorem map_numeral_words (n : Nat) : (words n).map numeral = List.range (8 ^ n) := by
  induction n with
  | zero => rfl
  | succ n ih =>
    have hall : List.range 8 = Instruction.all.map Instruction.index := rfl
    have hbranch (i : Instruction) : ((words n).map (i :: ·)).map numeral =
        (List.range (8 ^ n)).map (8 ^ n * i.index + ·) := by
      rw [← ih, List.map_map, List.map_map]
      apply List.map_congr_left
      intro w hw
      rw [← mem_words.mp hw]
      exact numeral_cons i w
    rw [Nat.pow_succ, range_mul, hall, List.flatMap_map, words, List.map_flatMap]
    simp only [hbranch]

/-- A word is made of the digits of its number, with as many zeros in front as it takes. -/
theorem map_index_eq_digits (w : List Instruction) :
    w.map Instruction.index = (Nat.digitsAppend 8 w.length (numeral w)).reverse := by
  have hdigits : ∀ d ∈ (w.map Instruction.index).reverse, d < 8 := by
    intro d hd
    obtain ⟨i, -, rfl⟩ := List.mem_map.mp (List.mem_reverse.mp hd)
    cases i <;> decide
  have hlength : (w.map Instruction.index).reverse.length = w.length := by
    rw [List.length_reverse, List.length_map]
  have hinverse := (Nat.setInvOn_digitsAppend_ofDigits (by decide : 1 < 8) w.length).1
    ⟨hlength, hdigits⟩
  rw [numeral, hinverse, List.reverse_reverse]

/-- The word at a place of the list has the digits of the place. -/
theorem map_index_of_getElem? {n i : Nat} {w : List Instruction} (h : (words n)[i]? = some w) :
    w.map Instruction.index = (Nat.digitsAppend 8 n i).reverse := by
  have hnumeral : ((words n).map numeral)[i]? = some (numeral w) := by
    rw [List.getElem?_map, h, Option.map_some]
  rw [map_numeral_words, List.getElem?_eq_some_iff] at hnumeral
  obtain ⟨hlt, hi⟩ := hnumeral
  rw [map_index_eq_digits, mem_words.mp (List.mem_of_getElem? h), ← hi, List.getElem_range]

/-! ## Listing by the length of the path -/

/-- Texts that are listed, and the text that the next ones begin with. -/
structure Listing where
  /-- What is listed so far. It need not be made of symbols. -/
  texts : List (List Char)
  /-- What the next texts begin with. -/
  front : List Char

namespace Listing

/-- Put a symbol behind the front. -/
def enter (l : Listing) (i : Instruction) : Listing := { l with front := l.front ++ [i.symbol] }

/-- Take away the last symbol of the front. -/
def leave (l : Listing) : Listing := { l with front := l.front.dropLast }

def mark (l : Listing) : Listing := { l with texts := l.texts ++ [l.front] }

/-- List every text of `len` symbols that begins with the front, and come back to the front. A call looks for itself
whether the front has the length. There is no answer if calls are nested more than `fuel` deep. -/
def extend (len : Nat) : Nat → Listing → Option Listing
  | 0, _ => none
  | fuel + 1, l =>
    if l.front.length = len then some l.mark
    else Instruction.all.foldlM (fun l i ↦ (extend len fuel (l.enter i)).map leave) l

variable {len fuel depth : Nat} {path : List Instruction} {texts : List (List Char)}

/-- Words that lead on from a path are listed, and the path is in front. -/
private def behind (texts : List (List Char)) (path : List Instruction)
    (ws : List (List Instruction)) : Listing where
  texts := texts ++ (ws.map (path ++ ·)).map (·.map Instruction.symbol)
  front := path.map Instruction.symbol

-- The calls for each branch in turn, for any of the branches.
private theorem foldlM_extend
    (ih : ∀ (i : Instruction) (texts : List (List Char)),
      extend len fuel ⟨texts, (path ++ [i]).map Instruction.symbol⟩ =
        some (behind texts (path ++ [i]) (words depth)))
    (branches : List Instruction) (texts : List (List Char)) :
    branches.foldlM (fun l i ↦ (extend len fuel (l.enter i)).map leave)
        ⟨texts, path.map Instruction.symbol⟩ =
      some (behind texts path (branches.flatMap fun i ↦ (words depth).map (i :: ·))) := by
  induction branches generalizing texts with
  | nil => simp [behind]
  | cons i rest ihRest =>
    have henter : enter ⟨texts, path.map Instruction.symbol⟩ i =
        ⟨texts, (path ++ [i]).map Instruction.symbol⟩ := by
      rw [enter, List.map_append]
      rfl
    have hbranch : (behind texts (path ++ [i]) (words depth)).leave =
        behind texts path ((words depth).map (i :: ·)) := by
      simp [behind, leave, Function.comp_def]
    have hrest := ihRest (behind texts path ((words depth).map (i :: ·))).texts
    rw [List.foldlM_cons, henter, ih, Option.map_some, hbranch, Option.bind_eq_bind,
      Option.bind_some]
    refine hrest.trans ?_
    simp [behind]

/-- A listing comes to an end, with calls nested no deeper than the path lacks symbols. It keeps what is listed, adds
the words of the length that begin with the path, and gives the path back. -/
theorem extend_eq (hlen : path.length + depth = len) (hfuel : depth < fuel)
    (texts : List (List Char)) :
    extend len fuel ⟨texts, path.map Instruction.symbol⟩ =
      some ⟨texts ++ ((words depth).map (path ++ ·)).map (·.map Instruction.symbol),
        path.map Instruction.symbol⟩ := by
  induction depth generalizing fuel path texts with
  | zero =>
    obtain ⟨fuel, rfl⟩ := Nat.exists_eq_add_one_of_ne_zero (Nat.ne_of_gt hfuel)
    have hdone : (path.map Instruction.symbol).length = len := by rwa [List.length_map]
    rw [extend, if_pos hdone]
    simp [mark, words]
  | succ depth ih =>
    obtain ⟨fuel, rfl⟩ := Nat.exists_eq_add_one_of_ne_zero (Nat.ne_of_gt (Nat.zero_lt_of_lt hfuel))
    have hgoes : (path.map Instruction.symbol).length ≠ len := by
      rw [List.length_map]
      omega
    rw [extend, if_neg hgoes]
    refine foldlM_extend (fun i texts ↦ ih ?_ (Nat.lt_of_succ_lt_succ hfuel) texts) _ texts
    rw [List.length_append, List.length_singleton]
    omega

/-- A path that is longer than the texts wanted grows in every call. -/
theorem extend_eq_none {l : Listing} (h : len < l.front.length) (fuel : Nat) :
    extend len fuel l = none := by
  induction fuel generalizing l with
  | zero => rfl
  | succ fuel ih =>
    have hnext : extend len fuel (l.enter .increment) = none := by
      apply ih
      rw [enter, List.length_append]
      exact Nat.lt_add_right _ h
    rw [extend, if_neg (Nat.ne_of_gt h), Instruction.all, List.foldlM_cons, hnext]
    rfl

end Listing

/-! ## The words behind a path -/

/-- The words of one length that begin with a path. -/
theorem mem_map_append_words {path v : List Instruction} {len : Nat} (h : path.length ≤ len) :
    v ∈ (words (len - path.length)).map (path ++ ·) ↔ v.length = len ∧ path <+: v := by
  rw [List.mem_map]
  constructor
  · rintro ⟨w, hw, rfl⟩
    rw [List.length_append, mem_words.mp hw]
    exact ⟨Nat.add_sub_cancel' h, List.prefix_append path w⟩
  · rintro ⟨hlength, w, rfl⟩
    rw [List.length_append] at hlength
    refine ⟨w, mem_words.mpr ?_, rfl⟩
    omega

/-- A walk, and a listing by the length of the path, add the words of the length that begin with the path, each once and
in the order of the alphabet: a power of 8, as high as the path lacks symbols. The word at place `i` continues the path
with the digits of `i` in base 8. What was noted before is kept, and the path is the same as before. -/
theorem walk_lists_words_behind_path (len : Nat) (w : Walk) (h : w.path.size ≤ len) :
    ∃ ws : List (List Instruction),
      Walk.visit (len - w.path.size) w = { found := w.found ++ ws.toArray, path := w.path } ∧
      (∀ (texts : List (List Char)) (fuel : Nat), len - w.path.size < fuel →
        Listing.extend len fuel ⟨texts, w.path.toList.map Instruction.symbol⟩ =
          some ⟨texts ++ ws.map (·.map Instruction.symbol),
            w.path.toList.map Instruction.symbol⟩) ∧
      (∀ v, v ∈ ws ↔ v.length = len ∧ w.path.toList <+: v) ∧
      ws.Nodup ∧ ws.Pairwise AlphabetLT ∧
      ws.length = 8 ^ (len - w.path.size) ∧
      ∀ i v, ws[i]? = some v → v.map Instruction.index =
        w.path.toList.map Instruction.index ++ (Nat.digitsAppend 8 (len - w.path.size) i).reverse := by
  have hsize : w.path.toList.length = w.path.size := Array.length_toList
  refine ⟨(words (len - w.path.size)).map (w.path.toList ++ ·), Walk.visit_eq _ w,
    fun texts fuel hfuel ↦ ?_, fun v ↦ ?_, ?_, ?_, ?_, fun i v hv ↦ ?_⟩
  · refine Listing.extend_eq ?_ hfuel texts
    omega
  · rw [← hsize] at h ⊢
    exact mem_map_append_words h
  · exact (nodup_words _).map (List.append_right_injective _)
  · exact List.pairwise_map.mpr ((pairwise_words _).imp fun hlt ↦ List.Lex.append_left _ hlt _)
  · rw [List.length_map, length_words]
  · rw [List.getElem?_map, Option.map_eq_some_iff] at hv
    obtain ⟨u, hu, rfl⟩ := hv
    rw [List.map_append, map_index_of_getElem? hu]

/-- Of the words of three that begin with a right move the one at place ten goes on with the digits of 12, which is ten
in base 8. A text that was listed before is kept, though it is no program. -/
theorem walk_lists_words_behind_right_move :
    let w : Walk := { found := #[[.output]], path := #[.right] }
    ∃ ws : List (List Instruction),
      Walk.visit 2 w = { found := #[[.output]] ++ ws.toArray, path := #[.right] } ∧
      Listing.extend 3 3 ⟨[['x']], ['>']⟩ =
        some ⟨['x'] :: ws.map (·.map Instruction.symbol), ['>']⟩ ∧
      ws.length = 64 ∧ ∃ v, ws[10]? = some v ∧ v.map Instruction.index = [3, 1, 2] := by
  intro w
  obtain ⟨ws, hvisit, hextend, -, -, -, hlength, hplace⟩ :=
    walk_lists_words_behind_path 3 w (by decide)
  have hlt : 10 < ws.length := by
    rw [hlength]
    decide
  have hten : ws[10]? = some ws[10] := List.getElem?_eq_getElem hlt
  refine ⟨ws, hvisit, hextend [['x']] 3 (by decide), hlength, ws[10], hten, ?_⟩
  rw [hplace 10 _ hten]
  rfl

end TapeLang.Codec
