import TapeLang.Proofs.Machine.Step

/-!
# Flags

The clock, the mark of a run and a requested stop decide on answers only. An
instruction has the same effect, or is refused in the same way, whatever the
flags are and whatever the clock shows (`perform_withFlags`). The mark of a run
does not even change an answer (`stepWith_withRunning`), another clock changes
none if it is alike (`stepWith_withClock`), and starting the clock changes it to
a timeout at most (`stepWith_startClock`).
-/

namespace TapeLang.Machine

variable {m m' : Machine} {provided : Option UInt8} {i : Instruction} {fault : Fault}

/-- The same machine with another clock and other flags. -/
def withFlags (m : Machine) (clock : Clock) (clockRunning running stopRequested : Bool) : Machine :=
  { m with clock, clockRunning, running, stopRequested }

def withRunning (m : Machine) (running : Bool) : Machine :=
  m.withFlags m.clock m.clockRunning running m.stopRequested

private theorem readInput_withFlags (m : Machine) (κ : Clock) (c r s : Bool) :
    (m.withFlags κ c r s).readInput = (m.readInput.1, m.readInput.2.withFlags κ c r s) := by
  simp only [readInput, withFlags]
  split <;> rfl

/-- An effect does not depend on the flags. -/
theorem Performs.withFlags (h : m.Performs provided i m') (κ : Clock) (c r s : Bool) :
    (m.withFlags κ c r s).Performs provided i (m'.withFlags κ c r s) := by
  cases h with
  | increment => exact .increment
  | decrement => exact .decrement
  | left => exact .left
  | right room => exact .right room
  | enter nonzero => exact .enter nonzero
  | skip zero partner => exact .skip zero partner
  | again nonzero stack => exact .again nonzero stack
  | leave zero stack => exact .leave zero stack
  | output => exact .output
  | provided given => exact .provided given
  | read own =>
    have heffect := Performs.read (m := m.withFlags κ c r s) own
    rw [readInput_withFlags] at heffect
    exact heffect

/-- A refusal does not depend on the flags. -/
theorem Refuses.withFlags (h : m.Refuses i m' fault) (κ : Clock) (c r s : Bool) :
    (m.withFlags κ c r s).Refuses i (m'.withFlags κ c r s) fault := by
  cases h with
  | noRoom full => exact .noRoom full
  | unclosed zero alone => exact .unclosed zero alone
  | stray empty => exact .stray empty

/-- What an instruction does, or how it is refused, does not depend on the flags. -/
theorem perform_withFlags (m : Machine) (provided : Option UInt8) (i : Instruction) (κ : Clock) (c r s : Bool) :
    (m.withFlags κ c r s).perform provided i =
      ((m.perform provided i).1.withFlags κ c r s, (m.perform provided i).2) := by
  rcases perform_spec m provided i with ⟨m', heq, effect⟩ | ⟨m', fault, heq, effect⟩
  · rw [heq]
    exact (effect.withFlags κ c r s).perform_eq
  · rw [heq]
    exact (effect.withFlags κ c r s).perform_eq

/-- With other flags a step has the same effect and, unless it has executed an instruction, the same answer. -/
theorem stepWith_withFlags (m : Machine) (provided : Option UInt8) (κ : Clock) (c r s : Bool) :
    ((m.withFlags κ c r s).stepWith provided).1 = (m.stepWith provided).1.withFlags κ c r s ∧
      ((m.stepWith provided).1.stepCount = m.stepCount ∧
          ((m.withFlags κ c r s).stepWith provided).2 = (m.stepWith provided).2 ∨
        (m.stepWith provided).1.stepCount = m.stepCount + 1 ∧
          (m.stepWith provided).2 = (m.stepWith provided).1.settle ∧
          ((m.withFlags κ c r s).stepWith provided).2 =
            ((m.stepWith provided).1.withFlags κ c r s).settle) := by
  have hcurrent : (m.withFlags κ c r s).current? = m.current? := rfl
  have hbudget : (m.withFlags κ c r s).outOfSteps = m.outOfSteps := rfl
  unfold stepWith
  rw [hcurrent, hbudget]
  split
  · exact ⟨rfl, Or.inl ⟨rfl, rfl⟩⟩
  split
  · exact ⟨rfl, Or.inl ⟨rfl, rfl⟩⟩
  rw [perform_withFlags]
  rcases perform_spec m provided _ with ⟨m', heq, effect⟩ | ⟨m', fault, heq, effect⟩
  · rw [heq]
    exact ⟨rfl, Or.inr ⟨effect.stepCount_moveOn, rfl, rfl⟩⟩
  · rw [heq]
    exact ⟨rfl, Or.inl ⟨effect.stepCount_eq, rfl⟩⟩

/-- A step leaves the clock and the flags alone. -/
theorem flags_stepWith (m : Machine) (provided : Option UInt8) :
    (m.stepWith provided).1.clock = m.clock ∧
      (m.stepWith provided).1.clockRunning = m.clockRunning ∧
      (m.stepWith provided).1.running = m.running ∧
      (m.stepWith provided).1.stopRequested = m.stopRequested := by
  have hframe := (stepWith_spec m provided).frame
  exact ⟨(congrArg clock hframe :), (congrArg clockRunning hframe :), (congrArg running hframe :),
    (congrArg stopRequested hframe :)⟩

/-! ### The mark of a run -/

/-- A step neither sees nor changes the mark of a run. -/
theorem stepWith_withRunning (m : Machine) (provided : Option UInt8) (r : Bool) :
    (m.withRunning r).stepWith provided =
      ((m.stepWith provided).1.withRunning r, (m.stepWith provided).2) := by
  obtain ⟨hclock, hrunning, -, hstop⟩ := flags_stepWith m provided
  have hmark : m.withFlags (m.stepWith provided).1.clock (m.stepWith provided).1.clockRunning r
      (m.stepWith provided).1.stopRequested = m.withRunning r := by
    rw [hclock, hrunning, hstop]
    rfl
  obtain ⟨hmachine, hstatus⟩ := stepWith_withFlags m provided (m.stepWith provided).1.clock
    (m.stepWith provided).1.clockRunning r (m.stepWith provided).1.stopRequested
  rw [hmark] at hmachine hstatus
  rcases hstatus with ⟨-, hsame⟩ | ⟨-, hhere, hthere⟩
  · exact Prod.ext hmachine hsame
  · exact Prod.ext hmachine (hthere.trans hhere.symm)

theorem step_withRunning (m : Machine) (r : Bool) :
    (m.withRunning r).step = (m.step.1.withRunning r, m.step.2) :=
  stepWith_withRunning m none r

/-- The same on a feed. -/
theorem stepFed_withRunning (m : Machine) (feed : Feed) (r : Bool) :
    (m.withRunning r).stepFed feed =
      ((m.stepFed feed).1.withRunning r, (m.stepFed feed).2) := by
  have hcurrent : (m.withRunning r).current? = m.current? := rfl
  have hbudget : (m.withRunning r).outOfSteps = m.outOfSteps := rfl
  unfold stepFed
  rw [hcurrent, hbudget]
  split
  · split
    · rfl
    · split
      · rfl
      · next value requestsStop feed' heq =>
        have hasked : (m.withRunning r).heed requestsStop =
            (m.heed requestsStop).withRunning r := rfl
        simp only [hasked, stepWith_withRunning]
  · simp only [stepWith_withRunning]

/-! ### The clock -/

/-- Under a clock that agrees on what has been executed the answer behind it is the same. A clock that has not been
started is not asked. -/
theorem settle_withClock {κ : Clock} (h : m.clockRunning = true →
      m.clock.exceeds m.limits.timeout m.stepCount = κ.exceeds m.limits.timeout m.stepCount) :
    (m.withClock κ).settle = m.settle := by
  have hlate : (m.withClock κ).outOfTime = m.outOfTime := by
    show (m.clockRunning && κ.exceeds m.limits.timeout m.stepCount) = (m.clockRunning && _)
    cases hclock : m.clockRunning with
    | false => rfl
    | true => rw [h hclock]
  unfold settle
  rw [hlate]
  rfl

/-- Under a clock that agrees on the next instruction a step is the same. -/
theorem stepWith_withClock (m : Machine) (provided : Option UInt8) {κ : Clock}
    (h : m.clockRunning = true → m.clock.exceeds m.limits.timeout (m.stepCount + 1) =
      κ.exceeds m.limits.timeout (m.stepCount + 1)) :
    (m.withClock κ).stepWith provided =
      ((m.stepWith provided).1.withClock κ, (m.stepWith provided).2) := by
  obtain ⟨hsame, hclock, hrunning, hstop⟩ := flags_stepWith m provided
  have hlimits : (m.stepWith provided).1.limits = m.limits := (stepWith_spec m provided).limits_eq
  obtain ⟨hmachine, hstatus⟩ := stepWith_withFlags m provided κ
    (m.stepWith provided).1.clockRunning (m.stepWith provided).1.running
    (m.stepWith provided).1.stopRequested
  have hthere : m.withFlags κ (m.stepWith provided).1.clockRunning (m.stepWith provided).1.running
      (m.stepWith provided).1.stopRequested = m.withClock κ := by
    rw [hclock, hrunning, hstop]
    rfl
  rw [hthere] at hmachine hstatus
  refine Prod.ext hmachine ?_
  rcases hstatus with ⟨-, hanswer⟩ | ⟨hcount, hhere, hanswer⟩
  · exact hanswer
  · rw [← hlimits, ← hcount, ← hsame, ← hclock] at h
    exact hanswer.trans ((settle_withClock h).trans hhere.symm)

/-- With the clock an executed instruction is answered by a timeout, if the time budget is used up. -/
private theorem settle_startClock (hclock : m.clockRunning = false) (hstop : m.stopRequested = false) :
    m.startClock.settle =
      if m.clock.exceeds m.limits.timeout m.stepCount then .failed (.timeout m.limits.timeout)
      else m.settle := by
  have hlimits : m.startClock.limits = m.limits := rfl
  have hend : m.startClock.isFinished = m.isFinished := rfl
  have hstop' : m.startClock.stopRequested = false := hstop
  have hlate : m.startClock.outOfTime = m.clock.exceeds m.limits.timeout m.stepCount :=
    Bool.true_and _
  have hidle : m.outOfTime = false := by rw [outOfTime, hclock, Bool.false_and]
  rw [settle, settle, hstop', hlate, hlimits, hend, hidle, hstop]
  cases m.clock.exceeds m.limits.timeout m.stepCount <;> rfl

/-- If nobody asks to stop, a step with the clock has the effect of the step without it. It has the same answer too,
unless it has executed an instruction and is out of time. -/
theorem stepWith_startClock (provided : Option UInt8) (hclock : m.clockRunning = false)
    (hstop : m.stopRequested = false) :
    m.startClock.stepWith provided = ((m.stepWith provided).1.startClock,
      if m.clock.exceeds m.limits.timeout (m.stepCount + 1) = true ∧
          (m.stepWith provided).1.stepCount = m.stepCount + 1 then
        .failed (.timeout m.limits.timeout)
      else (m.stepWith provided).2) := by
  obtain ⟨hsame, hclock', hrunning', hstop'⟩ := flags_stepWith m provided
  have hlimits : (m.stepWith provided).1.limits = m.limits := (stepWith_spec m provided).limits_eq
  have hstart : m.withFlags (m.stepWith provided).1.clock true (m.stepWith provided).1.running
      (m.stepWith provided).1.stopRequested = m.startClock := by
    rw [hsame, hrunning', hstop']
    rfl
  obtain ⟨hmachine, hstatus⟩ := stepWith_withFlags m provided (m.stepWith provided).1.clock true
    (m.stepWith provided).1.running (m.stepWith provided).1.stopRequested
  rw [hstart] at hmachine hstatus
  refine Prod.ext hmachine ?_
  rcases hstatus with ⟨hcount, hanswer⟩ | ⟨hcount, hhere, hthere⟩
  · rw [hanswer, if_neg]
    rintro ⟨-, hnext⟩
    omega
  · have hsettle := settle_startClock (hclock'.trans hclock) (hstop'.trans hstop)
    rw [hlimits, ← hhere, hsame, hcount] at hsettle
    simp only [hcount, and_true]
    exact hthere.trans hsettle

theorem step_startClock (hclock : m.clockRunning = false) (hstop : m.stopRequested = false) :
    m.startClock.step = (m.step.1.startClock,
      if m.clock.exceeds m.limits.timeout (m.stepCount + 1) = true ∧
          m.step.1.stepCount = m.stepCount + 1 then
        .failed (.timeout m.limits.timeout)
      else m.step.2) :=
  stepWith_startClock none hclock hstop

/-- A machine with no clock that nobody asks to stop fails before the effect of an instruction. -/
theorem followsEffect_of_failed (hclock : m.clockRunning = false) (hstop : m.stopRequested = false)
    (h : m.step.2 = .failed fault) : fault.followsEffect = false := by
  have hspec := stepWith_spec m none
  obtain ⟨-, hclock', -, hstop'⟩ := flags_stepWith m none
  rw [step] at h
  rw [h] at hspec
  generalize (m.stepWith none).1 = m' at hspec hclock' hstop'
  generalize hstatus : Status.failed fault = status at hspec
  cases hspec with
  | ended => contradiction
  | spent =>
    obtain rfl := Status.failed.inj hstatus
    rfl
  | refused _ _ effect =>
    obtain rfl := Status.failed.inj hstatus
    cases effect <;> rfl
  | executed =>
    rw [settle, outOfTime, hclock', hstop', hclock, hstop] at hstatus
    simp only [Bool.false_and, Bool.false_eq_true, ↓reduceIte] at hstatus
    split at hstatus <;> contradiction

end TapeLang.Machine
