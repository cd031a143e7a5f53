import TapeLang.Proofs.Machine.Reachable
import TapeLang.Proofs.Machine.Feeding

/-!
# The course of a run

Every run comes to an answer, whichever way it is driven: the machines it passes
count their steps, and the budget bounds the count (`exists_ends`). So a run is a
number of executed instructions with instructions left behind each of them, and
one last step that gives the answer (`run_ends`, `runFed_ends`), of which there
are three kinds (`StepsTo.answer_cases`). Two kinds of steps that keep a relation
and answer alike keep it over advances of any length (`advance_simulates`).
-/

namespace TapeLang

/-- What an advance by one step more meets comes behind what the shorter advance has met. -/
theorem filterMap_range_succ {α : Type} (f : Nat → Option α) (n : Nat) :
    (List.range (n + 1)).filterMap f = (List.range n).filterMap f ++ (f n).toList := by
  rw [List.range_succ, List.filterMap_append]
  cases h : f n <;> simp [h]

section

variable {σ τ : Type} {next : σ → σ × Status}

/-- An advance that comes to an answer makes steps with instructions left and one last step. -/
theorem advance_stops {n : Nat} {s : σ} (h : (advance next n s).2 ≠ .more) :
    ∃ k, k < n ∧ (advance next k s).2 = .more ∧ (next (advance next k s).1).2 ≠ .more ∧
      advance next n s = next (advance next k s).1 := by
  induction n generalizing s with
  | zero => exact False.elim (h rfl)
  | succ n ih =>
    rw [advance_succ] at h ⊢
    by_cases hmore : (next s).2 = .more
    · rw [if_pos hmore] at h ⊢
      obtain ⟨k, hk, hbefore, hlast, heq⟩ := ih h
      have hshift : advance next (k + 1) s = advance next k (next s).1 := by
        rw [advance_succ, if_pos hmore]
      exact ⟨k + 1, Nat.succ_lt_succ hk, by rwa [hshift], by rwa [hshift], by rw [hshift, heq]⟩
    · rw [if_neg hmore] at h ⊢
      exact ⟨0, Nat.succ_pos n, rfl, h, rfl⟩

/-- An advance with instructions left had instructions left at every earlier point. -/
theorem advance_more_of_le {j k : Nat} {s : σ} (hjk : j ≤ k)
    (h : (advance next k s).2 = .more) : (advance next j s).2 = .more := by
  apply Classical.byContradiction
  intro hj
  rw [advance_of_answered hjk hj] at h
  exact hj h

/-- One step behind an advance with instructions left is an advance by one step more. -/
theorem advance_succ_of_more {k : Nat} {s : σ} (h : (advance next k s).2 = .more) :
    advance next (k + 1) s = next (advance next k s).1 := by
  rw [advance_add, if_pos h, advance_succ]
  split
  · next hmore =>
    rw [advance_zero, ← hmore]
  · rfl

/-- Steps that keep a relation and answer alike do so over every advance. -/
theorem advance_simulates {next' : τ → τ × Status} {R : σ → τ → Prop}
    (hstep : ∀ s t, R s t → (next s).2 = (next' t).2 ∧ R (next s).1 (next' t).1) (n : Nat)
    {s : σ} {t : τ} (h : R s t) :
    (advance next n s).2 = (advance next' n t).2 ∧
      R (advance next n s).1 (advance next' n t).1 := by
  induction n generalizing s t with
  | zero => exact ⟨rfl, h⟩
  | succ n ih =>
    obtain ⟨hstatus, hrel⟩ := hstep s t h
    rw [advance_succ, advance_succ, hstatus]
    split
    · exact ih hrel
    · exact ⟨hstatus, hrel⟩

/-- An advance comes to its answer with one step behind the first `k`. -/
structure Ends (next : σ → σ × Status) (s : σ) (k : Nat) (last : σ × Status) : Prop where
  more : (advance next k s).2 = .more
  last_eq : next (advance next k s).1 = last
  answered : last.2 ≠ .more

/-- However many steps an advance may make, it ends with the last one. -/
theorem Ends.advance_eq {k n : Nat} {s : σ} {last : σ × Status} (h : Ends next s k last)
    (hn : k < n) : advance next n s = last := by
  have hlast : advance next (k + 1) s = last := (advance_succ_of_more h.more).trans h.last_eq
  rw [advance_of_answered hn, hlast]
  rw [hlast]
  exact h.answered

/-- An advance that still has instructions left has not made more steps than lead to its answer. -/
theorem Ends.le_of_more {s : σ} {k n : Nat} {last : σ × Status}
    (h : Ends next s k last) (hmore : (advance next n s).2 = .more) : n ≤ k := by
  apply Nat.le_of_not_lt
  intro hlt
  rw [h.advance_eq hlt] at hmore
  exact h.answered hmore

section

variable {P : σ → Prop} {c : σ → Nat} {bound : Nat}

/-- As long as instructions remain, a count that grows by one with every step has counted the steps. -/
theorem count_advance (keep : ∀ s, P s → P (next s).1)
    (hcount : ∀ s, P s → (next s).2 = .more → c (next s).1 = c s + 1) {k : Nat} {s : σ}
    (h : P s) (hmore : (advance next k s).2 = .more) :
    c (advance next k s).1 = c s + k := by
  induction k with
  | zero => rfl
  | succ k ih =>
    have hk := advance_more_of_le (Nat.le_succ k) hmore
    have hP := advance_preserves keep k h
    rw [advance_succ_of_more hk] at hmore ⊢
    rw [hcount _ hP hmore, ih hk]
    rfl

/-- Steps that are counted up to a bound come to an answer, with one step more than the bound at the latest. -/
theorem exists_ends (keep : ∀ s, P s → P (next s).1)
    (hcount : ∀ s, P s → (next s).2 = .more →
      c (next s).1 = c s + 1 ∧ c (next s).1 ≤ bound) {s : σ} (h : P s) :
    ∃ k ≤ bound, ∃ last, Ends next s k last := by
  have hanswer : (advance next (bound + 1) s).2 ≠ .more := by
    intro hmore
    have htotal := count_advance keep (fun s hs hnext ↦ (hcount s hs hnext).1) h hmore
    have hbefore := advance_more_of_le (Nat.le_succ bound) hmore
    rw [advance_succ_of_more hbefore] at hmore htotal
    have hle := (hcount _ (advance_preserves keep bound h) hmore).2
    omega
  obtain ⟨k, hk, hmore, hlast, -⟩ := advance_stops hanswer
  exact ⟨k, Nat.le_of_lt_succ hk, _, hmore, rfl, hlast⟩

end

end

namespace Machine

variable {m m' : Machine} {provided : Option UInt8} {status : Status}

private theorem StepsTo.of_more (h : m.StepsTo provided m' .more) :
    m'.stepCount = m.stepCount + 1 ∧ m'.stepCount ≤ m.limits.maxSteps ∧ m'.current? ≠ none := by
  generalize hstatus : Status.more = status at h
  cases h with
  | ended | spent | refused => contradiction
  | @executed i e current budget effect =>
    refine ⟨effect.stepCount_moveOn, ?_, ?_⟩
    · rw [effect.stepCount_moveOn]
      exact Nat.succ_le_of_lt (by simpa [outOfSteps] using budget)
    · intro hnone
      have hfinished := current?_eq_none_iff.mp hnone
      simp only [settle, hfinished, ↓reduceIte] at hstatus
      split at hstatus
      · contradiction
      split at hstatus <;> contradiction

/-- A step behind which instructions remain has executed one within the budget. -/
theorem step_of_more (h : m.step.2 = .more) :
    m.step.1.stepCount = m.stepCount + 1 ∧ m.step.1.stepCount ≤ m.limits.maxSteps ∧
      m.step.1.current? ≠ none := by
  have hspec := stepWith_spec m none
  rw [← step, h] at hspec
  exact hspec.of_more

/-- The same on a feed. -/
theorem stepOnFeed_of_more {s : Machine × Feed} (h : (stepOnFeed s).2 = .more) :
    (stepOnFeed s).1.1.stepCount = s.1.stepCount + 1 ∧
      (stepOnFeed s).1.1.stepCount ≤ s.1.limits.maxSteps := by
  have hspec := stepOnFeed_spec s
  generalize (stepOnFeed s).1 = s' at hspec
  generalize (stepOnFeed s).2 = status at hspec h
  cases hspec with
  | alone =>
    obtain ⟨hcount, hle, -⟩ := step_of_more h
    exact ⟨hcount, hle⟩
  | served asks => exact ⟨rfl, asks.2⟩
  | unserved => contradiction

/-- Steps keep the program, the limits and the tables. -/
theorem image_advance (m : Machine) (k : Nat) : (advance step k m).1.image = m.image :=
  advance_preserves (P := fun m' ↦ m'.image = m.image)
    (fun m' hm ↦ (stepWith_spec m' none).image_eq.trans hm) k rfl

/-- A run keeps the program, the limits and the tables. -/
theorem image_run (m : Machine) : m.run.1.image = m.image := image_advance m.begin m.stepsToAnswer

/-- As long as instructions remain, the count grows by one with every step. -/
theorem stepCount_advance {k : Nat} (h : (advance step k m).2 = .more) :
    (advance step k m).1.stepCount = m.stepCount + k :=
  count_advance (P := fun _ ↦ True) (fun _ _ ↦ trivial) (fun _ _ hmore ↦ (step_of_more hmore).1)
    trivial h

/-- The steps of a machine come to an answer within its budget. -/
theorem step_ends (m : Machine) : ∃ k ≤ m.limits.maxSteps, ∃ last, Ends step m k last := by
  refine exists_ends (P := fun m' ↦ m'.limits = m.limits) (c := stepCount) ?_ ?_ rfl
  · intro m' hm'
    exact (stepWith_spec m' none).limits_eq.trans hm'
  · intro m' hm' hmore
    obtain ⟨hcount, hle, -⟩ := step_of_more hmore
    exact ⟨hcount, hm' ▸ hle⟩

/-- The steps of a machine on a feed come to an answer within its budget. -/
theorem stepOnFeed_ends (s : Machine × Feed) :
    ∃ k ≤ s.1.limits.maxSteps, ∃ last, Ends stepOnFeed s k last := by
  refine exists_ends (P := fun s' ↦ s'.1.limits = s.1.limits) (c := fun s' ↦ s'.1.stepCount)
    ?_ ?_ rfl
  · intro s' hs'
    exact (congrArg Image.limits (stepOnFeed_spec s').image_eq).trans hs'
  · intro s' hs' hmore
    obtain ⟨hcount, hle⟩ := stepOnFeed_of_more hmore
    exact ⟨hcount, hs' ▸ hle⟩

private theorem lt_slices {k : Nat} (hk : k ≤ m.limits.maxSteps) :
    k < sliceLength * (m.stepsToAnswer / sliceLength + 1) := by
  rw [stepsToAnswer, sliceLength]
  omega

section

variable {k : Nat}

/-- A straight run is its steps with the conclusion. -/
theorem run_eq_of_ends {last : Machine × Status} (h : Ends step m.begin k last)
    (hk : k ≤ m.limits.maxSteps) : m.run = last.1.conclude last.2 := by
  have hlt : k < m.stepsToAnswer := Nat.lt_succ_of_le hk
  rw [run_eq, h.advance_eq hlt]

/-- A run on a feed is its steps on the feed with the conclusion. -/
theorem runFed_eq_of_ends {feed : Feed} {last : (Machine × Feed) × Status}
    (h : Ends stepOnFeed (m.begin, feed) k last) (hk : k ≤ m.limits.maxSteps) :
    m.runFed feed = ((last.1.1.conclude last.2).1, last.1.2, (last.1.1.conclude last.2).2) := by
  rw [runFed_eq, fedSteps, advance_mul, h.advance_eq (lt_slices hk)]

end

/-- The steps of a straight run come to an answer within the budget. -/
theorem run_ends (m : Machine) :
    ∃ k ≤ m.limits.maxSteps, ∃ last, Ends step m.begin k last ∧ m.run = last.1.conclude last.2 := by
  obtain ⟨k, hk, last, hends⟩ := step_ends m.begin
  exact ⟨k, hk, last, hends, run_eq_of_ends hends hk⟩

/-- Slices do not show: a run in slices makes the steps of the straight run. -/
theorem runSliced_eq_run (m : Machine) : m.runSliced = m.run := by
  obtain ⟨k, hk, last, hends, hrun⟩ := run_ends m
  rw [hrun, runSliced_eq, advance_mul, hends.advance_eq (lt_slices hk)]

/-- The steps of a run on a feed come to an answer within the budget. -/
theorem runFed_ends (m : Machine) (feed : Feed) :
    ∃ k ≤ m.limits.maxSteps, ∃ last, Ends stepOnFeed (m.begin, feed) k last ∧
      m.runFed feed =
        ((last.1.1.conclude last.2).1, last.1.2, (last.1.1.conclude last.2).2) := by
  obtain ⟨k, hk, last, hends⟩ := stepOnFeed_ends (m.begin, feed)
  exact ⟨k, hk, last, hends, runFed_eq_of_ends hends hk⟩

/-- A run executes instructions as long as some remain, and its last step gives the answer. -/
theorem course_of_run (m : Machine) :
    ∃ k, (advance step k m.begin).2 = .more ∧ (advance step k m.begin).1.stepCount = k ∧
      (advance step k m.begin).1.step.2 ≠ .more ∧
      m.run = (advance step k m.begin).1.step.1.conclude (advance step k m.begin).1.step.2 := by
  obtain ⟨k, -, last, ⟨hmore, rfl, hanswered⟩, hrun⟩ := run_ends m
  refine ⟨k, hmore, ?_, hanswered, hrun⟩
  rw [stepCount_advance hmore]
  exact Nat.zero_add k

/-- A step executes one instruction at most. -/
theorem StepsTo.stepCount_bounds (h : m.StepsTo provided m' status) :
    m.stepCount ≤ m'.stepCount ∧ m'.stepCount ≤ m.stepCount + 1 := by
  cases h with
  | ended | spent => exact ⟨Nat.le_refl _, Nat.le_succ _⟩
  | refused _ _ effect =>
    have hcount := effect.stepCount_eq
    omega
  | executed _ _ effect =>
    have hcount := effect.stepCount_moveOn
    omega

/-- Up to the number of instructions a run executes, as many steps have executed as many instructions. -/
theorem stepCount_advance_begin {i : Nat} (hi : i ≤ m.run.1.stepCount) :
    (advance step i m.begin).1.stepCount = i := by
  obtain ⟨k, hmore, hcount, -, hrun⟩ := course_of_run m
  rw [hrun] at hi
  have hi : i ≤ (advance step k m.begin).1.step.1.stepCount := hi
  have hle := (stepWith_spec (advance step k m.begin).1 none).stepCount_bounds.2
  rw [← step, hcount] at hle
  by_cases hik : i ≤ k
  · rw [stepCount_advance (advance_more_of_le hik hmore)]
    exact Nat.zero_add i
  · obtain rfl : i = k + 1 := Nat.le_antisymm (Nat.le_trans hi hle) (Nat.lt_of_not_le hik)
    rw [advance_succ_of_more hmore]
    exact Nat.le_antisymm hle hi

/-- An advance with instructions left that starts in front of an instruction ends in front of one. -/
theorem current?_advance {k : Nat} (h : (advance step k m).2 = .more) (hm : m.current? ≠ none) :
    (advance step k m).1.current? ≠ none := by
  cases k with
  | zero => exact hm
  | succ k =>
    have hbefore := advance_more_of_le (Nat.le_succ k) h
    rw [advance_succ_of_more hbefore] at h ⊢
    exact (step_of_more h).2.2

/-- A step that answers is at the end of the program, or has executed its last instruction, or is
refused before one. -/
theorem StepsTo.answer_cases (h : m.StepsTo provided m' status) (hstatus : status ≠ .more)
    (hstop : m.stopRequested = false) :
    (m.current? = none ∧ m' = m ∧ status = .finished) ∨
      (m'.stepCount = m.stepCount + 1 ∧
        (status = .finished ∨ ∃ limit, status = .failed (.timeout limit))) ∨
      (m'.stepCount = m.stepCount ∧
        ∃ fault, status = .failed fault ∧ fault.followsEffect = false) := by
  have hstop' := h.stopRequested_eq.trans hstop
  cases h with
  | ended current => exact Or.inl ⟨current, rfl, rfl⟩
  | spent => exact Or.inr (Or.inr ⟨rfl, _, rfl, rfl⟩)
  | refused _ _ effect =>
    refine Or.inr (Or.inr ⟨effect.stepCount_eq, _, rfl, ?_⟩)
    cases effect <;> rfl
  | executed _ _ effect =>
    refine Or.inr (Or.inl ⟨effect.stepCount_moveOn, ?_⟩)
    rw [settle, hstop', if_neg Bool.false_ne_true] at hstatus ⊢
    split at hstatus
    · next hclock =>
      rw [if_pos hclock]
      exact Or.inr ⟨_, rfl⟩
    · next hclock =>
      rw [if_neg hclock]
      split at hstatus
      · next hfinished =>
        rw [if_pos hfinished]
        exact Or.inl rfl
      · exact False.elim (hstatus rfl)

/-- No step of an advance makes a request to stop. -/
theorem stopRequested_advance (m : Machine) (k : Nat) :
    (advance step k m).1.stopRequested = m.stopRequested :=
  advance_preserves (P := fun m' ↦ m'.stopRequested = m.stopRequested)
    (fun m' hm ↦ (stepWith_spec m' none).stopRequested_eq.trans hm) k rfl

end Machine

end TapeLang
