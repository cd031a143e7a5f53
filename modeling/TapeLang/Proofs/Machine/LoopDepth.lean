import Mathlib.Data.List.Induction
import Mathlib.Order.Bounds.Basic
import TapeLang.Program.Counts
import TapeLang.Proofs.Machine.Bounds

/-!
# Loop depth

The depth of the loops of a program is counted without a stack: an opening
bracket adds one, and a closing one takes one away as long as there is one to take.
The count is the height of the stack of open brackets, for balanced programs and
all others, since a closing bracket without a partner finds the stack empty and the
count at zero (`depth_nesting`). So the greatest count is the greatest height, and no
machine has more loops under way than that.

Main statement: `maxLoopDepth_is_greatest_stack_height`.
-/

namespace TapeLang

namespace Program

/-- The nesting counted over instructions from the first one of a program. -/
def nesting (code : List Instruction) : Nesting := code.foldl Nesting.next {}

/-! ### The count and the stack -/

/-- The count is the height of the stack that the search for unmatched brackets holds. -/
theorem depth_nesting (code : List Instruction) :
    (nesting code).depth = (code.foldl UnmatchedScan.next {}).stack.length := by
  have hfold (s : Nesting) (scan : UnmatchedScan) (h : s.depth = scan.stack.length) :
      (code.foldl Nesting.next s).depth = (code.foldl UnmatchedScan.next scan).stack.length := by
    induction code generalizing s scan with
    | nil => exact h
    | cons i code ih =>
      apply ih
      cases i <;> simp [Nesting.next, UnmatchedScan.next, OpenBrackets.next, h]
  exact hfold {} {} rfl

/-! ### The greatest count -/

theorem nesting_concat (code : List Instruction) (i : Instruction) :
    nesting (code ++ [i]) = (nesting code).next i := by
  rw [nesting, List.foldl_append]
  rfl

/-- One more instruction makes the greatest count the greater one of itself and the new count. -/
theorem Nesting.deepest_next {s : Nesting} (h : s.depth ≤ s.deepest) (i : Instruction) :
    (s.next i).deepest = max s.deepest (s.next i).depth := by
  cases i <;> simp only [Nesting.next] <;> omega

/-- The greatest count is reached over some front part of the instructions and not exceeded over any. -/
theorem isGreatest_deepest (code : List Instruction) :
    IsGreatest {depth | ∃ front, front <+: code ∧ (nesting front).depth = depth}
      (nesting code).deepest := by
  induction code using List.reverseRecOn with
  | nil =>
    constructor
    · exact ⟨[], List.prefix_rfl, rfl⟩
    · rintro _ ⟨front, hfront, rfl⟩
      rw [List.prefix_nil.mp hfront]
      exact Nat.le_refl 0
  | append_singleton code i ih =>
    have hset : {depth | ∃ front, front <+: code ++ [i] ∧ (nesting front).depth = depth} =
        insert (nesting (code ++ [i])).depth
          {depth | ∃ front, front <+: code ∧ (nesting front).depth = depth} := by
      ext depth
      simp [List.prefix_concat_iff, or_and_right, exists_or, eq_comm]
    have hle : (nesting code).depth ≤ (nesting code).deepest :=
      ih.2 ⟨code, List.prefix_rfl, rfl⟩
    rw [hset, nesting_concat, Nesting.deepest_next hle, max_comm]
    exact ih.insert _

/-- The depth of a program is the greatest height of the stack of open brackets over its front parts. -/
theorem isGreatest_maxLoopDepth (p : Program) :
    IsGreatest {height | ∃ n ≤ p.size, (p.unmatchedScan n).stack.length = height}
      p.maxLoopDepth := by
  have hdeepest : p.maxLoopDepth = (nesting p.toList).deepest := by
    rw [maxLoopDepth, ← Array.foldl_toList]
    rfl
  have hset : {height | ∃ n ≤ p.size, (p.unmatchedScan n).stack.length = height} =
      {depth | ∃ front, front <+: p.toList ∧ (nesting front).depth = depth} := by
    ext height
    constructor
    · rintro ⟨n, -, rfl⟩
      exact ⟨p.toList.take n, List.take_prefix n _, depth_nesting _⟩
    · rintro ⟨front, hfront, rfl⟩
      refine ⟨front.length, hfront.length_le, ?_⟩
      rw [depth_nesting, unmatchedScan, ← List.prefix_iff_eq_take.mp hfront]
  rw [hdeepest, hset]
  exact isGreatest_deepest p.toList

end Program

namespace Machine

variable {p : Program} {l : Limits} {m : Machine}

/-- The loops under way are brackets open in front of the next instruction. -/
theorem Reachable.length_loopStack_le (h : Reachable p l m) :
    m.loopStack.length ≤ p.maxLoopDepth := by
  apply p.isGreatest_maxLoopDepth.2
  refine ⟨m.pc, h.bounds.pc_le, ?_⟩
  rw [Program.stack_unmatchedScan, h.stackSound.loopStack_eq, h.program_eq]

end Machine

/-- The depth of the loops of a program, balanced or not, is the greatest height that the stack of open brackets has
behind the first instructions, as many of them as one likes. No machine executing the program has more loops under way,
wherever its history has brought it. -/
theorem Program.maxLoopDepth_is_greatest_stack_height (p : Program) :
    IsGreatest {height | ∃ n ≤ p.size, (p.unmatchedScan n).stack.length = height}
        p.maxLoopDepth ∧
      ∀ l : Limits,
        (∀ m, Machine.Reachable p l m → m.loopStack.length ≤ p.maxLoopDepth) ∧
          ∀ timed s, Session.Reachable p l timed s →
            s.machine.loopStack.length ≤ p.maxLoopDepth :=
  ⟨p.isGreatest_maxLoopDepth, fun _ ↦
    ⟨fun _ h ↦ h.length_loopStack_le, fun _ _ h ↦ h.machine.length_loopStack_le⟩⟩

/-- Two stray closing brackets do not count against the two loops opened behind them. The machine has one loop under
way in front of them, and comes no further. -/
theorem Program.maxLoopDepth_behind_strays :
    let p := Program.ofText "+[-]]][["
    let m := (advance Machine.step 2 (.load p {})).1
    p.maxLoopDepth = 2 ∧ p.unmatched = [⟨']', 4⟩, ⟨']', 5⟩, ⟨'[', 7⟩, ⟨'[', 6⟩] ∧
      m.loopStack = [1] ∧ m.loopStack.length ≤ p.maxLoopDepth := by
  intro p m
  have hreachable : Machine.Reachable p {} m :=
    advance_preserves (fun _ ↦ Machine.Reachable.step) 2 (.load .standard)
  exact ⟨by decide +kernel, by decide +kernel, by decide +kernel,
    (p.maxLoopDepth_is_greatest_stack_height.2 {}).1 m hreachable⟩

end TapeLang
