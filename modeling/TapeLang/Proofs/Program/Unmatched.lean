import Mathlib.Data.List.Sort
import TapeLang.Proofs.Program.DyckWords

/-!
# The report on unmatched brackets

The report on a program and its table of partners come from two passes of their
own, which class every bracket alike: the report holds the brackets without an
entry in the table. The order follows from the stack, which lists the open
brackets from right to left (`sortedGT_openAt`). Nothing is left to report
exactly if the brackets form a Dyck word (`unmatched_eq_nil_iff_balanced`).

Main statement: `unmatched_lists_unpaired_brackets`.
-/

namespace TapeLang.Program

variable {p : Program} {i j : Nat} {bracket : Instruction}

/-- The positions of one kind of bracket that have no entry in the table of partners, from left to right. -/
def unpaired (p : Program) (bracket : Instruction) : List Nat :=
  (List.range p.size).filter fun i ↦ p.get? i = some bracket ∧ p.partners[i]? = some none

theorem mem_unpaired :
    i ∈ p.unpaired bracket ↔ p.get? i = some bracket ∧ p.partners[i]? = some none := by
  rw [unpaired, List.mem_filter, List.mem_range, decide_eq_true_iff, and_iff_right_iff_imp]
  exact fun h ↦ lt_size_of_get? h.1

theorem sortedLT_unpaired (p : Program) (bracket : Instruction) :
    (p.unpaired bracket).SortedLT :=
  (List.pairwise_lt_range.filter _).sortedLT

/-- The stack lists the open brackets from right to left. -/
theorem sortedGT_openAt (p : Program) (n : Nat) : (p.openAt n).SortedGT := by
  induction n using Nat.strongRecOn with
  | ind n ih =>
    cases ho : p.openAt n with
    | nil => exact List.Pairwise.nil.sortedGT
    | cons o below =>
      obtain ⟨-, hlt, rfl⟩ := openAt_eq_cons ho
      refine (List.Pairwise.cons (fun i hi ↦ ?_) (ih o hlt).pairwise).sortedGT
      exact (mem_openAt hi).2

/-! ### What is reported -/

/-- Inside the program a position has no entry if it has no partner. -/
private theorem partners_eq_none_iff (hi : i < p.size) :
    p.partners[i]? = some none ↔ p.partners.getD i none = none := by
  have hlt : i < p.partners.size := Nat.lt_of_lt_of_eq hi (size_partners p).symm
  rw [Array.getD_eq_getD_getElem?, Array.getElem?_eq_getElem hlt, Option.some.injEq,
    Option.getD_some]

/-- The strays are the closing brackets without an entry. -/
theorem filter_isStray_eq_unpaired (p : Program) :
    (List.range p.size).filter p.isStray = p.unpaired .loopEnd := by
  refine List.filter_congr fun i hi ↦ decide_eq_decide.mpr (and_congr_right fun hend ↦ ?_)
  rw [partners_eq_none_iff (List.mem_range.mp hi), ← stray_mem_unmatched_iff_partner hend,
    stray_mem_unmatched_iff, and_iff_right hend]

/-- The brackets open at the end are the opening brackets without an entry. -/
theorem openAt_size_eq_unpaired (p : Program) :
    p.openAt p.size = (p.unpaired .loopStart).reverse := by
  refine List.SortedGT.eq_reverse_of_mem_iff_of_sortedLT (fun i ↦ ?_) (sortedGT_openAt p p.size)
    (sortedLT_unpaired p .loopStart)
  rw [mem_unpaired]
  constructor
  · intro hopen
    obtain ⟨hstart, hlt⟩ := mem_openAt hopen
    rw [partners_eq_none_iff hlt, ← unclosed_mem_unmatched_iff_partner hstart]
    exact ⟨hstart, unclosed_mem_unmatched_iff.mpr hopen⟩
  · rintro ⟨hstart, hnone⟩
    rw [partners_eq_none_iff (lt_size_of_get? hstart),
      ← unclosed_mem_unmatched_iff_partner hstart] at hnone
    exact unclosed_mem_unmatched_iff.mp hnone

/-- Behind a stray closing bracket nothing is open that was opened in front of it. -/
theorem lt_of_stray (hstray : ⟨']', i⟩ ∈ p.unmatched) (hopen : ⟨'[', j⟩ ∈ p.unmatched) :
    i < j := by
  obtain ⟨hend, hnil⟩ := stray_mem_unmatched_iff.mp hstray
  rw [unclosed_mem_unmatched_iff] at hopen
  have hstart := (mem_openAt hopen).1
  rcases Nat.lt_trichotomy i j with hlt | rfl | hgt
  · exact hlt
  · have := hend.symm.trans hstart
    contradiction
  · have hstill := mem_openAt_of_le hgt (Nat.le_of_lt (lt_size_of_get? hend)) hopen
    rw [hnil] at hstill
    contradiction

theorem nodup_unmatched (p : Program) : p.unmatched.Nodup := by
  rw [unmatched_eq, filter_isStray_eq_unpaired]
  refine List.nodup_append.mpr ⟨?_, ?_, ?_⟩
  · exact (sortedLT_unpaired p .loopEnd).nodup.map fun _ _ h ↦ congrArg UnmatchedBracket.position h
  · exact (sortedGT_openAt p p.size).nodup.map fun _ _ h ↦ congrArg UnmatchedBracket.position h
  · intro b hb c hc heq
    obtain ⟨_, -, rfl⟩ := List.mem_map.mp hb
    obtain ⟨_, -, rfl⟩ := List.mem_map.mp hc
    have hsymbol : ']' = '[' := congrArg UnmatchedBracket.symbol heq
    contradiction

/-! ### Empty reports -/

/-- Nothing is reported exactly if every closing bracket finds an open one and none is open at the end. -/
theorem unmatched_eq_nil_iff :
    p.unmatched = [] ↔
      p.openAt p.size = [] ∧ ∀ j, p.get? j = some .loopEnd → p.openAt j ≠ [] := by
  rw [unmatched_eq, List.append_eq_nil_iff, List.map_eq_nil_iff, List.map_eq_nil_iff, and_comm]
  refine and_congr_right fun _ ↦ ?_
  rw [List.filter_eq_nil_iff]
  constructor
  · intro h j hend hnil
    have hj := List.mem_range.mpr (lt_size_of_get? hend)
    exact h j hj (decide_eq_true ⟨hend, hnil⟩)
  · intro h j _ hstray
    obtain ⟨hend, hnil⟩ := of_decide_eq_true hstray
    exact h j hend hnil

private theorem slice_zero_size (p : Program) : p.slice 0 p.size = p.toList := by
  rw [slice, List.drop_zero, ← length_toList, List.take_length]

/-- A closing bracket in front of which nothing is open makes a front part close more than it opens. -/
private theorem not_count_le_of_stray (hend : p.get? j = some .loopEnd) (h : p.Rises 0 j []) :
    ¬ (p.slice 0 (j + 1)).count .loopEnd ≤ (p.slice 0 (j + 1)).count .loopStart := by
  have hcount : (p.slice 0 j).count .loopEnd = (p.slice 0 j).count .loopStart := h.count_eq
  have hlast : [Instruction.loopEnd].count .loopEnd = [Instruction.loopEnd].count .loopStart + 1 := rfl
  rw [slice_succ (Nat.zero_le j) hend, List.count_append, List.count_append]
  omega

/-- No front part of a program closes more than it opens exactly if every closing bracket finds an open one. -/
private theorem forall_count_le_iff :
    (∀ k, 0 ≤ k → k ≤ p.size →
        (p.slice 0 k).count .loopEnd ≤ (p.slice 0 k).count .loopStart) ↔
      ∀ j, p.get? j = some .loopEnd → p.openAt j ≠ [] := by
  constructor
  · intro h j hend hnil
    have hj := lt_size_of_get? hend
    obtain ⟨new, hnew⟩ := exists_rises (Nat.zero_le j) (Nat.le_of_lt hj)
      fun k hk hkj ↦ h k hk (Nat.le_trans hkj (Nat.le_of_lt hj))
    obtain rfl : new = [] := by
      rw [← hnil, hnew.openAt_eq, openAt_zero, List.append_nil]
    exact not_count_le_of_stray hend hnew (h (j + 1) (Nat.zero_le _) hj)
  · intro h k hk hkn
    rcases rises_or_reaches_below hk hkn with ⟨new, hnew⟩ | ⟨j, -, -, hend, hbelow⟩
    · exact hnew.count_le
    · exact absurd hbelow.openAt_eq (h j hend)

/-- Nothing is reported exactly if the brackets of the program form a Dyck word. -/
theorem unmatched_eq_nil_iff_balanced : p.unmatched = [] ↔ Balanced p.toList := by
  have hbegin : 0 ≤ p.size := Nat.zero_le _
  rw [unmatched_eq_nil_iff, ← slice_zero_size, balanced_slice_iff hbegin, forall_count_le_iff]
  refine and_congr_left fun hclosing ↦ ?_
  obtain ⟨new, hnew⟩ := exists_rises hbegin (Nat.le_refl _) (forall_count_le_iff.mpr hclosing)
  -- What is open at the end is what the counts differ by.
  have hcount := hnew.count_eq
  have hopen : p.openAt p.size = new := by
    rw [hnew.openAt_eq, openAt_zero, List.append_nil]
  rw [hopen, ← List.length_eq_zero_iff]
  omega

/-- What a report on the unmatched brackets of a program has to say. -/
structure ExactReport (p : Program) (report : List UnmatchedBracket) : Prop where
  /-- It lists the closing brackets without an entry in the table of partners from left to right, then the
  opening ones from right to left, each with its symbol, and nothing else. -/
  eq_unpaired : report =
    (p.unpaired .loopEnd).map (⟨']', ·⟩) ++ (p.unpaired .loopStart).reverse.map (⟨'[', ·⟩)
  /-- No bracket is listed twice. -/
  nodup : report.Nodup
  /-- Nothing is listed exactly if the brackets of the program form a Dyck word. -/
  eq_nil_iff : report = [] ↔ Balanced p.toList
  /-- The closing brackets listed stand in front of the opening ones. -/
  lt : ∀ i j : Nat, ⟨']', i⟩ ∈ report → ⟨'[', j⟩ ∈ report → i < j

/-- The report on the brackets of a program lists exactly those without a partner, for the program of every
text. -/
theorem unmatched_lists_unpaired_brackets (text : String) :
    ExactReport (ofText text) (ofText text).unmatched := by
  generalize ofText text = p
  constructor
  case eq_unpaired =>
    rw [unmatched_eq, filter_isStray_eq_unpaired, openAt_size_eq_unpaired]
  case nodup => exact nodup_unmatched p
  case eq_nil_iff => exact unmatched_eq_nil_iff_balanced
  case lt => exact fun i j ↦ lt_of_stray

/-- A closing bracket that comes too early is reported first, then the opening brackets from the innermost outwards. -/
theorem unmatched_lists_a_stray_before_two_openings :
    (ofText "][[").unmatched = [⟨']', 0⟩, ⟨'[', 2⟩, ⟨'[', 1⟩] ∧
      (ofText "][[").unpaired .loopStart = [1, 2] ∧ ¬ Balanced (ofText "][[").toList := by
  have hreport : (ofText "][[").unmatched = [⟨']', 0⟩, ⟨'[', 2⟩, ⟨'[', 1⟩] := by decide +kernel
  refine ⟨hreport, by decide +kernel, fun hbalanced ↦ ?_⟩
  have hnil := (unmatched_lists_unpaired_brackets "][[").eq_nil_iff.mpr hbalanced
  rw [hreport] at hnil
  contradiction

end TapeLang.Program
