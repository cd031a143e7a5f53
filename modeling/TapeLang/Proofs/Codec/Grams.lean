import TapeLang.Codec.Gram
import Mathlib.Algebra.Group.Nat.Defs
import Mathlib.Data.List.Nodup

/-!
# The enumeration of the grams

The words of one length in the order of the alphabet, by recursion on the
length. The walk through the tree of words notes just these below the word it
starts from, and comes back (`Walk.visit_eq`), so the grams are the words of
two, three and four instructions, each once (`mem_grams`, `nodup_grams`).
-/

namespace TapeLang.Codec

/-- The words of `n` instructions, in the order of the alphabet. -/
def words : Nat → List (List Instruction)
  | 0 => [[]]
  | n + 1 => Instruction.all.flatMap fun i ↦ (words n).map (i :: ·)

/-- A list of instructions is a word of its length. -/
theorem mem_words {n : Nat} {w : List Instruction} : w ∈ words n ↔ w.length = n := by
  induction n generalizing w with
  | zero => simp [words]
  | succ n ih =>
    rw [words, List.mem_flatMap]
    constructor
    · rintro ⟨i, -, hw⟩
      obtain ⟨rest, hrest, rfl⟩ := List.mem_map.mp hw
      rw [List.length_cons, ih.mp hrest]
    · intro hlength
      obtain ⟨i, rest, rfl⟩ := List.exists_cons_of_length_eq_add_one hlength
      refine ⟨i, Instruction.mem_all i, List.mem_map_of_mem (ih.mpr ?_)⟩
      exact Nat.succ.inj hlength

theorem length_words (n : Nat) : (words n).length = 8 ^ n := by
  induction n with
  | zero => rfl
  | succ n ih =>
    have hall : Instruction.all.length = 8 := rfl
    simp only [words, List.length_flatMap, List.length_map, ih, List.map_const', hall]
    rw [List.sum_replicate_nat, Nat.pow_succ, Nat.mul_comm]

/-- No word is listed twice. -/
theorem nodup_words (n : Nat) : (words n).Nodup := by
  induction n with
  | zero => exact List.nodup_singleton []
  | succ n ih =>
    rw [words, List.nodup_flatMap]
    constructor
    · intro i _
      exact ih.map fun _ _ h ↦ (List.cons.inj h).2
    · have hall : Instruction.all.Nodup := by decide
      refine hall.imp fun {i j} hij ↦ ?_
      intro w hi hj
      obtain ⟨_, -, rfl⟩ := List.mem_map.mp hi
      obtain ⟨_, -, heq⟩ := List.mem_map.mp hj
      exact hij (List.cons.inj heq).1.symm

namespace Walk

-- The walk below each branch in turn, for any of the branches.
private theorem foldl_visit {depth : Nat}
    (ih : ∀ w : Walk, visit depth w =
      { w with found := w.found ++ ((words depth).map (w.path.toList ++ ·)).toArray })
    (branches : List Instruction) (w : Walk) :
    branches.foldl (fun w i ↦ (visit depth (w.enter i)).leave) w =
      { w with
        found := w.found ++ ((branches.flatMap fun i ↦ (words depth).map (i :: ·)).map
          (w.path.toList ++ ·)).toArray } := by
  induction branches generalizing w with
  | nil => simp
  | cons i rest ihRest =>
    have hbranch : (visit depth (w.enter i)).leave =
        { w with found := w.found ++
          (((words depth).map (i :: ·)).map (w.path.toList ++ ·)).toArray } := by
      rw [ih]
      simp [enter, leave, Function.comp_def]
    rw [List.foldl_cons, hbranch, ihRest, List.flatMap_cons, List.map_append]
    simp

/-- A walk notes the words that lead on from the present one, and comes back. -/
theorem visit_eq (depth : Nat) (w : Walk) :
    visit depth w =
      { w with found := w.found ++ ((words depth).map (w.path.toList ++ ·)).toArray } := by
  induction depth generalizing w with
  | zero => simp [visit, mark, words]
  | succ depth ih => exact foldl_visit ih Instruction.all w

end Walk

/-- The grams are the words of two, three and four instructions. -/
theorem toList_grams : grams.toList = words 2 ++ words 3 ++ words 4 := by
  have hlengths : gramLengths = [2, 3, 4] := rfl
  unfold grams
  rw [hlengths]
  simp [Walk.visit_eq]

/-- A word is a gram exactly if it has two, three or four instructions. -/
theorem mem_grams {w : List Instruction} :
    w ∈ grams.toList ↔ minGram ≤ w.length ∧ w.length ≤ maxGram := by
  simp only [toList_grams, List.mem_append, mem_words, minGram, maxGram]
  omega

/-- No gram is listed twice. -/
theorem nodup_grams : grams.toList.Nodup := by
  rw [toList_grams, List.nodup_append, List.nodup_append]
  refine ⟨⟨nodup_words 2, nodup_words 3, ?_⟩, nodup_words 4, ?_⟩
  · rintro v hv w hw rfl
    rw [mem_words] at hv hw
    omega
  · rintro v hv w hw rfl
    rw [List.mem_append, mem_words, mem_words] at hv
    rw [mem_words] at hw
    omega

/-- The number of grams. -/
theorem length_grams : grams.toList.length = 64 + 512 + 4096 := by
  simp only [toList_grams, List.length_append, length_words, Nat.reducePow, Nat.reduceAdd]

end TapeLang.Codec
