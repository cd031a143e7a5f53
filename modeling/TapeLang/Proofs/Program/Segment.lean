import TapeLang.Proofs.Program.Matching

/-!
# Balanced segments

Part of a program whose brackets are balanced matches them for itself. Whatever
stands in front of it, its open brackets lie on those that were open before
(`Segment.openAt_eq`), and whatever stands behind it, its pairs are pairs of the
whole program (`Segment.pair`).
-/

namespace TapeLang.Program

variable {p s : Program} {pre post : List Instruction} {i j k : Nat}

/-- A program holds a balanced one between other code. -/
structure Segment (p : Program) (pre : List Instruction) (s : Program) (post : List Instruction) :
    Prop where
  code_eq : p.toList = pre ++ s.toList ++ post
  balanced : s.unmatched = []

namespace Segment

variable (h : p.Segment pre s post)
include h

/-- The instructions of the segment stand in the program, shifted. -/
theorem get?_eq (hk : k < s.size) : p.get? (pre.length + k) = s.get? k := by
  have hlast : k < s.toList.length := hk
  rw [get?_eq_toList, get?_eq_toList, h.code_eq, List.append_assoc,
    List.getElem?_append_right (Nat.le_add_right _ _), Nat.add_sub_cancel_left,
    List.getElem?_append_left hlast]

theorem size_eq : p.size = pre.length + s.size + post.length := by
  rw [← length_toList, h.code_eq]
  simp [Nat.add_assoc]

/-- Inside the segment something is open in front of every closing bracket. -/
theorem openAt_ne_nil (hend : s.get? k = some .loopEnd) : s.openAt k ≠ [] := by
  intro hnil
  have hstray := stray_mem_unmatched_iff.mpr ⟨hend, hnil⟩
  simp [h.balanced] at hstray

/-- At its end everything is closed. -/
theorem openAt_size : s.openAt s.size = [] := by
  apply List.eq_nil_iff_forall_not_mem.mpr
  intro i hi
  have hopen := unclosed_mem_unmatched_iff.mpr hi
  simp [h.balanced] at hopen

/-- An opening bracket is closed inside the segment. -/
theorem exists_pair (hstart : s.get? i = some .loopStart) : ∃ j, s.Pair i j := by
  apply Classical.byContradiction
  intro hnone
  have hopen := mem_openAt_of_unpaired hstart (lt_size_of_get? hstart)
    fun j hj ↦ hnone ⟨j, hj⟩
  simp [h.openAt_size] at hopen

/-- The brackets open inside the segment are its own, shifted, on those open in front of it. -/
theorem openAt_eq (hk : k ≤ s.size) :
    p.openAt (pre.length + k) = (s.openAt k).map (pre.length + ·) ++ p.openAt pre.length := by
  induction k with
  | zero => rfl
  | succ k ih =>
    have ih := ih (Nat.le_of_lt hk)
    have hget := h.get?_eq hk
    rw [← Nat.add_assoc]
    cases hi : s.get? k with
    | none =>
      have := get?_eq_none_iff.mp hi
      omega
    | some i =>
      rw [hi] at hget
      by_cases hs : i = .loopStart
      · subst hs
        rw [openAt_succ_loopStart hget, openAt_succ_loopStart hi, ih]
        rfl
      by_cases he : i = .loopEnd
      · subst he
        rw [openAt_succ_loopEnd hget, openAt_succ_loopEnd hi, ih, List.map_tail,
          List.tail_append_of_ne_nil]
        -- No closing bracket of the segment reaches those open in front of it.
        simpa using h.openAt_ne_nil hi
      · rw [openAt_succ_of_ne hget hs he, openAt_succ_of_ne hi hs he, ih]

/-- The pairs of the segment are pairs of the program. -/
theorem pair (hpair : s.Pair i j) : p.Pair (pre.length + i) (pre.length + j) := by
  obtain ⟨hend, outer, hopen⟩ := hpair
  have hj := lt_size_of_get? hend
  refine ⟨(h.get?_eq hj).trans hend, outer.map (pre.length + ·) ++ p.openAt pre.length, ?_⟩
  rw [h.openAt_eq (Nat.le_of_lt hj), hopen]
  rfl

end Segment

end TapeLang.Program
