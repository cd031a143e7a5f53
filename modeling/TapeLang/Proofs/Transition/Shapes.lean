import TapeLang.Proofs.Structured.Nesting
import TapeLang.Proofs.Transition.Discovery
import TapeLang.Proofs.Transition.Shortening

/-!
# Shapes of words

The words of a table built by passes are made of increments, decrements and
multiply loops, one behind the other (`shaped_afterPasses`), and a word is empty
just where there is nothing to change (`word_afterPasses_eq_empty_iff`). Such a word
has balanced brackets, no loop inside another one, and moves to the left only inside
a loop (`Shaped.shallow`).
-/

namespace TapeLang

/-- No loop of the block lies inside another one, and outside of them nothing moves to the left. -/
structure Block.Shallow (b : Block) : Prop where
  depth_le : b.depth ≤ 1
  left_notMem : Basic.left ∉ b.outside

/-- The word is the code of a shallow block. -/
def Transition.Shallow (w : Transition.Word) : Prop :=
  ∃ b : Block, b.code = w.toList ∧ b.Shallow

namespace Transition

/-- Increments, decrements and multiply loops with factors that are tried, one behind the other. -/
inductive Shaped : Word → Prop where
  | empty : Shaped #[]
  | change (direction : Direction) {rest : Word} (shaped : Shaped rest) :
    Shaped (#[direction.basic.instruction] ++ rest)
  | loop {l : MultiplyLoop} (admissible : l.Admissible) {rest : Word} (shaped : Shaped rest) :
    Shaped (l.word ++ rest)

example : Program.text ⟨MultiplyLoop.word ⟨.down, 2, 3⟩⟩ = "[-->+++<]>" := by decide

example : Program.text ⟨MultiplyLoop.word ⟨.up, 1, 2⟩⟩ = "[+>--<]>" := by decide

variable {w w' : Word} {a b : UInt8}

/-! ### Shaped words -/

theorem Shaped.append (h : Shaped w) (h' : Shaped w') : Shaped (w ++ w') := by
  induction h with
  | empty => rwa [Array.empty_append]
  | change direction _ ih =>
    rw [Array.append_assoc]
    exact .change direction ih
  | loop admissible _ ih =>
    rw [Array.append_assoc]
    exact .loop admissible ih

theorem shaped_replicate (direction : Direction) (n : Nat) :
    Shaped (Array.replicate n direction.basic.instruction) := by
  induction n with
  | zero => exact .empty
  | succ n ih =>
    rw [Nat.add_comm, ← Array.replicate_append_replicate]
    exact .change direction ih

theorem shaped_unaryWord (start target : UInt8) : Shaped (unaryWord start target) := by
  unfold unaryWord
  dsimp only
  split
  · exact shaped_replicate .up _
  · exact shaped_replicate .down _

/-- Every entry of a table built by passes is made of increments, decrements and multiply loops. -/
theorem shaped_afterPasses (n : Nat) (start target : UInt8) :
    Shaped ((Table.afterPasses n).word start target) := by
  refine afterPasses_induction (Q := fun w _ _ ↦ Shaped w) shaped_unaryWord ?_ Shaped.append n
    start target
  rintro start ⟨l, value⟩ hcandidate
  have hadmissible := (mem_landings_iff.mp hcandidate).admissible
  have hshaped := Shaped.loop hadmissible .empty
  rwa [Array.append_empty] at hshaped

/-! ### Empty words -/

theorem eq_of_distance_eq_zero (h : distance a b = 0) : a = b := by
  have ha := a.toNat_lt
  have hb := b.toNat_lt
  rw [← UInt8.toNat_inj]
  unfold distance at h
  dsimp only at h
  split at h
  · omega
  · split at h <;> omega

theorem distance_self (a : UInt8) : distance a a = 0 := by
  unfold distance
  dsimp only
  rw [Int.sub_self, if_neg (by decide), if_neg (by decide)]

/-- An entry is empty exactly if it leads back to its first value. -/
theorem word_afterPasses_eq_empty_iff (n : Nat) :
    (Table.afterPasses n).word a b = #[] ↔ a = b := by
  constructor
  · refine afterPasses_induction (Q := fun w a b ↦ w = #[] → a = b) ?_ ?_ ?_ n a b
    · intro start target hempty
      apply eq_of_distance_eq_zero
      rw [← Int.natAbs_eq_zero, ← size_unaryWord, hempty]
      rfl
    · rintro start ⟨l, value⟩ - hempty
      have hsize : l.word.size = 0 := congrArg Array.size hempty
      rw [l.size_word, MultiplyLoop.size] at hsize
      contradiction
    · intro w w' a e b hfirst hsecond hempty
      obtain ⟨rfl, rfl⟩ := Array.append_eq_empty_iff.mp hempty
      exact (hfirst rfl).trans (hsecond rfl)
  · rintro rfl
    have hcost := Table.cost_afterPasses_le n a a
    rw [distance_self] at hcost
    exact Array.eq_empty_of_size_eq_zero (Nat.le_zero.mp hcost)

/-! ### Shallow words -/

theorem Shallow.append (h : Shallow w) (h' : Shallow w') : Shallow (w ++ w') := by
  obtain ⟨b, hcode, hb⟩ := h
  obtain ⟨b', hcode', hb'⟩ := h'
  refine ⟨b.append b', ?_, ?_, ?_⟩
  · rw [Block.code_append, hcode, hcode', Array.toList_append]
  · rw [Block.depth_append]
    exact Nat.max_le.mpr ⟨hb.depth_le, hb'.depth_le⟩
  · rw [Block.outside_append, List.mem_append]
    exact fun h ↦ h.elim hb.left_notMem hb'.left_notMem

/-- A basic instruction alone is shallow, if it does not move to the left. -/
theorem shallow_basic (a : Basic) (h : a ≠ .left) : Shallow #[a.instruction] := by
  refine ⟨.basic a .done, rfl, Nat.zero_le 1, ?_⟩
  rw [Block.outside, Block.outside, List.mem_singleton]
  exact Ne.symm h

theorem MultiplyLoop.shallow_word (l : MultiplyLoop) : Shallow l.word := by
  refine ⟨l.block, l.code_block, ?_, ?_⟩
  · have hbody : l.body.depth = 0 := by
      rw [body, Block.depth_append, Block.depth_times, Block.depth, Block.depth_append,
        Block.depth_times]
      rfl
    rw [block, Block.depth, hbody]
    exact Nat.le_refl 1
  · rw [block, Block.outside, Block.outside, Block.outside, List.mem_singleton]
    exact Basic.noConfusion

/-- A shaped word is the code of a shallow block. -/
theorem Shaped.shallow (h : Shaped w) : Shallow w := by
  induction h with
  | empty => exact ⟨.done, rfl, Nat.zero_le 1, List.not_mem_nil⟩
  | change direction _ ih =>
    apply Shallow.append (shallow_basic _ _) ih
    cases direction <;> exact Basic.noConfusion
  | @loop l _ _ _ ih => exact l.shallow_word.append ih

end Transition

end TapeLang
