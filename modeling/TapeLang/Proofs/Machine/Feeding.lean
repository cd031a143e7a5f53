import TapeLang.Machine.Run
import TapeLang.Proofs.Machine.Step

/-!
# Steps on a feed

What a step does with its feed, said once. A machine asks if its next
instruction reads input and the budget lets it be executed (`Asks`). A machine
that does not ask makes the step it makes alone and leaves the feed alone. One
that asks does so once: with a byte the instruction is executed on that byte
(`receive`), and without one the machine stays where it is (`stepOnFeed_spec`).
-/

namespace TapeLang.Machine

variable {m : Machine} {feed : Feed} {s s' : Machine × Feed} {status : Status}

/-- The next instruction reads input, and the budget lets it be executed. -/
def Asks (m : Machine) : Prop := m.current? = some .input ∧ m.stepCount < m.limits.maxSteps

instance (m : Machine) : Decidable m.Asks := inferInstanceAs (Decidable (_ ∧ _))

/-- The machine behind an input instruction executed on a byte. Whoever served the byte may have requested a
stop. -/
def receive (m : Machine) (value : UInt8) (requestsStop : Bool) : Machine :=
  { m with
    tape := m.tape.set m.pointer value
    pc := m.pc + 1
    stepCount := m.stepCount + 1
    stopRequested := m.stopRequested || requestsStop }

/-- One step on a feed and its answer. -/
inductive FeedsTo (s : Machine × Feed) : Machine × Feed → Status → Prop
  /-- The feed is not asked. -/
  | alone (idle : ¬ s.1.Asks) : FeedsTo s (s.1.step.1, s.2) s.1.step.2
  /-- The feed gives a byte. -/
  | served {value : UInt8} {requestsStop : Bool} (asks : s.1.Asks)
      (reply : s.2.next.1 = .byte value requestsStop) :
    FeedsTo s (s.1.receive value requestsStop, s.2.next.2) (s.1.receive value requestsStop).settle
  | unserved {failure : InputFailure} {requestsStop : Bool} (asks : s.1.Asks)
      (reply : s.2.next.1 = .unavailable failure requestsStop) :
    FeedsTo s (s.1.heed requestsStop, s.2.next.2) (.failed (.inputUnavailable s.1.pc failure))

/-- A machine asks exactly if it is in front of an input instruction with budget left. -/
theorem asks_iff : m.Asks ↔ m.current? = some .input ∧ m.outOfSteps = false := by
  rw [Asks, outOfSteps, decide_eq_false_iff_not, Nat.not_le]

/-- A machine that asks executes its input instruction on a provided byte. -/
theorem Asks.stepWith_provided (h : m.Asks) (value : UInt8) :
    m.stepWith (some value) = ((m.writeCell value).moveOn, (m.writeCell value).moveOn.settle) := by
  obtain ⟨current, budget⟩ := asks_iff.mp h
  rcases stepWith_of_current (some value) current budget with ⟨m', effect, heq⟩ |
    ⟨m', fault, effect, -⟩
  · rw [heq]
    cases effect with
    | provided given =>
      obtain rfl := Option.some.inj given
      rfl
    | read own => exact absurd own (Option.some_ne_none value)
  · nomatch effect

/-- To receive a byte is to execute the input instruction on it, behind the stop it may come with. -/
theorem receive_eq (m : Machine) (value : UInt8) (requestsStop : Bool) :
    ((m.heed requestsStop).writeCell value).moveOn = m.receive value requestsStop := rfl

/-- In front of an input instruction a machine asks unless its budget is used up. -/
theorem step_of_idle_input (idle : ¬ m.Asks) (current : m.current? = some .input) :
    m.step = (m, .failed m.stepLimitFault) := by
  cases budget : m.outOfSteps with
  | false => exact absurd (asks_iff.mpr ⟨current, budget⟩) idle
  | true => exact stepWith_of_spent none current budget

/-- A machine that does not ask makes the step it makes alone. -/
theorem stepOnFeed_of_idle (idle : ¬ s.1.Asks) : stepOnFeed s = ((s.1.step.1, s.2), s.1.step.2) := by
  unfold stepOnFeed
  rcases stepFed_spec s.1 s.2 with ⟨-, heq⟩ | ⟨current, -, heq⟩ | ⟨_, _, current, budget, -⟩ |
    ⟨_, _, current, budget, -⟩
  · rw [heq]
  · rw [heq, step_of_idle_input idle current]
  · exact absurd (asks_iff.mpr ⟨current, budget⟩) idle
  · exact absurd (asks_iff.mpr ⟨current, budget⟩) idle

/-- A machine that asks and gets a byte executes its input instruction on the byte. -/
theorem stepOnFeed_of_byte {value : UInt8} {requestsStop : Bool} (asks : s.1.Asks)
    (reply : s.2.next.1 = .byte value requestsStop) :
    stepOnFeed s =
      ((s.1.receive value requestsStop, s.2.next.2), (s.1.receive value requestsStop).settle) := by
  obtain ⟨current, budget⟩ := asks_iff.mp asks
  have hserved : (s.1.heed requestsStop).Asks := asks
  have hstep := hserved.stepWith_provided value
  rw [receive_eq] at hstep
  have hnext : s.2.next = (.byte value requestsStop, s.2.next.2) := Prod.ext reply rfl
  unfold stepOnFeed stepFed
  rw [hnext]
  simp only [current, budget, hstep, Bool.false_eq_true, ↓reduceIte]

/-- A machine that asks and gets no byte stays as it is, but for a stop it may be asked for. -/
theorem stepOnFeed_of_unavailable {failure : InputFailure} {requestsStop : Bool} (asks : s.1.Asks)
    (reply : s.2.next.1 = .unavailable failure requestsStop) :
    stepOnFeed s = ((s.1.heed requestsStop, s.2.next.2),
      .failed (.inputUnavailable s.1.pc failure)) := by
  obtain ⟨current, budget⟩ := asks_iff.mp asks
  have hnext : s.2.next = (.unavailable failure requestsStop, s.2.next.2) := Prod.ext reply rfl
  unfold stepOnFeed stepFed
  rw [hnext]
  simp only [current, budget, Bool.false_eq_true, ↓reduceIte]

/-- A step on a feed does what `FeedsTo` says. -/
theorem stepOnFeed_spec (s : Machine × Feed) :
    FeedsTo s (stepOnFeed s).1 (stepOnFeed s).2 := by
  by_cases asks : s.1.Asks
  · cases reply : s.2.next.1 with
    | byte value requestsStop =>
      rw [stepOnFeed_of_byte asks reply]
      exact .served asks reply
    | unavailable failure requestsStop =>
      rw [stepOnFeed_of_unavailable asks reply]
      exact .unserved asks reply
  · rw [stepOnFeed_of_idle asks]
    exact .alone asks

/-- A step on a feed is timed by the clock the machine was given. -/
theorem FeedsTo.clock_eq (h : FeedsTo s s' status) : s'.1.clock = s.1.clock := by
  cases h with
  | alone => exact (stepWith_spec s.1 none).clock_eq
  | served | unserved => rfl

/-- A step on a feed keeps the program, the limits and the tables. -/
theorem FeedsTo.image_eq (h : FeedsTo s s' status) : s'.1.image = s.1.image := by
  cases h with
  | alone => exact (stepWith_spec s.1 none).image_eq
  | served | unserved => rfl

end TapeLang.Machine
