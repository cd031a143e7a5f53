import TapeLang.Proofs.Machine.Course
import TapeLang.Proofs.Machine.Flags

/-!
# Executions under different clocks

A clock decides where an execution is cut off and nothing else. Under clocks that
are alike two executions of a machine are cut off at the same instruction, if at
all, so a whole run is the same, whichever way it is driven (`run_withClock`,
`runFed_withClock`).
-/

namespace TapeLang.Machine

variable {m : Machine} {κ : Clock} {s : Machine × Feed}

/-- Under a clock that is alike a step is the same. -/
theorem step_withClock (alike : Clock.Alike m.limits.timeout m.clock κ) :
    (m.withClock κ).step = (m.step.1.withClock κ, m.step.2) :=
  stepWith_withClock m none fun _ ↦ alike _

/-- The same on a feed. -/
theorem stepOnFeed_withClock (alike : Clock.Alike s.1.limits.timeout s.1.clock κ) :
    stepOnFeed (s.1.withClock κ, s.2) =
      (((stepOnFeed s).1.1.withClock κ, (stepOnFeed s).1.2), (stepOnFeed s).2) := by
  by_cases asks : s.1.Asks
  · have hasks : (s.1.withClock κ, s.2).1.Asks := asks
    cases reply : s.2.next.1 with
    | byte value requestsStop =>
      have hsettle : ((s.1.receive value requestsStop).withClock κ).settle =
          (s.1.receive value requestsStop).settle := settle_withClock fun _ ↦ alike _
      have hthere := stepOnFeed_of_byte hasks reply
      rw [stepOnFeed_of_byte asks reply, hthere, ← hsettle]
      rfl
    | unavailable failure requestsStop =>
      have hthere := stepOnFeed_of_unavailable hasks reply
      rw [stepOnFeed_of_unavailable asks reply, hthere]
      rfl
  · have hidle : ¬ (s.1.withClock κ, s.2).1.Asks := asks
    have hthere := stepOnFeed_of_idle hidle
    rw [stepOnFeed_of_idle asks, hthere, step_withClock alike]

/-- Steps that do the same under a clock that is alike do so over every advance. -/
private theorem advance_retimed {σ : Type} {next : σ → σ × Status} (machine : σ → Machine)
    (retime : σ → σ)
    (hframe : ∀ s, (machine (next s).1).limits = (machine s).limits ∧
      (machine (next s).1).clock = (machine s).clock)
    (hnext : ∀ s, Clock.Alike (machine s).limits.timeout (machine s).clock κ →
      next (retime s) = (retime (next s).1, (next s).2))
    (n : Nat) {s : σ} (alike : Clock.Alike (machine s).limits.timeout (machine s).clock κ) :
    advance next n (retime s) = (retime (advance next n s).1, (advance next n s).2) := by
  have hstep (s t : σ)
      (h : t = retime s ∧ Clock.Alike (machine s).limits.timeout (machine s).clock κ) :
      (next s).2 = (next t).2 ∧ (next t).1 = retime (next s).1 ∧
        Clock.Alike (machine (next s).1).limits.timeout (machine (next s).1).clock κ := by
    obtain ⟨rfl, halike⟩ := h
    rw [hnext s halike, (hframe s).1, (hframe s).2]
    exact ⟨rfl, rfl, halike⟩
  have hsame := advance_simulates hstep n ⟨rfl, alike⟩
  exact Prod.ext hsame.2.1 hsame.1.symm

/-- Under a clock that is alike an execution is the same. -/
theorem advance_withClock (alike : Clock.Alike m.limits.timeout m.clock κ) (n : Nat) :
    advance step n (m.withClock κ) =
      ((advance step n m).1.withClock κ, (advance step n m).2) :=
  advance_retimed id (·.withClock κ)
    (fun m ↦ ⟨(stepWith_spec m none).limits_eq, (stepWith_spec m none).clock_eq⟩)
    (fun _ ↦ step_withClock) n alike

theorem advance_stepOnFeed_withClock (alike : Clock.Alike s.1.limits.timeout s.1.clock κ)
    (n : Nat) :
    advance stepOnFeed n (s.1.withClock κ, s.2) =
      (((advance stepOnFeed n s).1.1.withClock κ, (advance stepOnFeed n s).1.2),
        (advance stepOnFeed n s).2) :=
  advance_retimed Prod.fst (fun s ↦ (s.1.withClock κ, s.2))
    (fun s ↦ ⟨congrArg Image.limits (stepOnFeed_spec s).image_eq, (stepOnFeed_spec s).clock_eq⟩)
    (fun _ ↦ stepOnFeed_withClock) n alike

/-- Under a clock that is alike a run is the same. -/
theorem run_withClock (alike : Clock.Alike m.limits.timeout m.clock κ) :
    (m.withClock κ).run = (m.run.1.withClock κ, m.run.2) := by
  have hthere := advance_withClock (m := m.begin) alike m.stepsToAnswer
  have hbegin : (m.withClock κ).begin = m.begin.withClock κ := rfl
  have hsteps : (m.withClock κ).stepsToAnswer = m.stepsToAnswer := rfl
  rw [run_eq, run_eq, hsteps, hbegin, hthere]
  rfl

/-- The same in slices. -/
theorem runSliced_withClock (alike : Clock.Alike m.limits.timeout m.clock κ) :
    (m.withClock κ).runSliced = (m.runSliced.1.withClock κ, m.runSliced.2) := by
  rw [runSliced_eq_run, runSliced_eq_run, run_withClock alike]

/-- The same on a feed. -/
theorem runFed_withClock (alike : Clock.Alike m.limits.timeout m.clock κ) (feed : Feed) :
    (m.withClock κ).runFed feed =
      ((m.runFed feed).1.withClock κ, (m.runFed feed).2.1, (m.runFed feed).2.2) := by
  have hthere := advance_stepOnFeed_withClock (s := (m.begin, feed)) alike
    (sliceLength * (m.stepsToAnswer / sliceLength + 1))
  have hbegin : (m.withClock κ).begin = m.begin.withClock κ := rfl
  have hsteps : (m.withClock κ).stepsToAnswer = m.stepsToAnswer := rfl
  rw [runFed_eq, runFed_eq, fedSteps, fedSteps, advance_mul, advance_mul, hsteps, hbegin, hthere]
  rfl

end TapeLang.Machine
