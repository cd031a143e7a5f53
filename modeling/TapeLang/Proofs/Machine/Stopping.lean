import TapeLang.Proofs.Machine.Calls

/-!
# Stopping

A requested stop and an empty time budget change the answer of a call and nothing
else: both are looked at behind an executed instruction, when its effect is
already there. A requested stop comes before the clock, and it stays requested
until the machine is reset (`stopRequested_after`).

Main statement: `interruption_changes_the_answer_only`.
-/

namespace TapeLang.Machine

variable {m m' : Machine} {call : Call}

/-- The same machine with a stop requested, with the clock running under an empty time budget, or both. -/
inductive Interrupted (m : Machine) : Machine → Prop
  | stopped : Interrupted m m.stop
  | late (noTime : m.limits.timeout = 0) : Interrupted m m.startClock
  | both (noTime : m.limits.timeout = 0) : Interrupted m m.stop.startClock

/-! ### Answers -/

/-- A call has executed an instruction if it has counted one. -/
theorem Call.answer_of_executed (h : (call.make m).1.stepCount ≠ m.stepCount) :
    (call.make m).1.stepCount = m.stepCount + 1 ∧ (call.make m).2 = (call.make m).1.settle := by
  have hspec := call.make_spec m
  generalize (call.make m).1 = behind at hspec h ⊢
  generalize (call.make m).2 = answer at hspec
  generalize call.requestsStop m = requestsStop at hspec
  cases hspec with
  | ended | unserved => contradiction
  | declined refusal => exact absurd (congrArg stepCount refusal.untouched.machine_eq :) h
  | executed _ count => exact ⟨count, rfl⟩

/-- A call without an executed instruction has found the end of the program, or fails in place of the instruction. -/
theorem Call.answer_of_idle (h : (call.make m).1.stepCount = m.stepCount) :
    (m.isFinished = true ∧ (call.make m).2 = .finished) ∨
      ∃ fault, fault.followsEffect = false ∧ (call.make m).2 = .failed fault := by
  have hspec := call.make_spec m
  generalize (call.make m).1 = behind at hspec h
  generalize (call.make m).2 = answer at hspec
  generalize call.requestsStop m = requestsStop at hspec
  cases hspec with
  | ended current => exact Or.inl ⟨current?_eq_none_iff.mp current, rfl⟩
  | declined refusal => exact Or.inr ⟨_, refusal.followsEffect_eq, rfl⟩
  | unserved => exact Or.inr ⟨_, rfl, rfl⟩
  | executed _ count => exact absurd (h.symm.trans count) (Nat.succ_ne_self _).symm

/-! ### A requested stop stays -/

theorem Call.stopRequested_make (call : Call) (m : Machine) :
    (call.make m).1.stopRequested = (m.stopRequested || call.requestsStop m) :=
  congrArg stopRequested
    (call.make_withFlags m m.clock m.clockRunning m.running m.stopRequested).1

theorem Act.stopRequested_apply (act : Act) (h : m.stopRequested = true) :
    (act.apply m).stopRequested = true := by
  cases act with
  | call c =>
    change (c.make m).1.stopRequested = true
    rw [c.stopRequested_make, h, Bool.true_or]
  | stop => rfl
  | withClock | startClock => exact h

/-- Short of a reset or a run a requested stop stays requested. -/
theorem stopRequested_after (acts : List Act) (h : m.stopRequested = true) :
    (m.after acts).stopRequested = true := by
  induction acts generalizing m with
  | nil => exact h
  | cons act acts ih => exact ih (act.stopRequested_apply h)

/-- Short of a reset or a run the request to stop stays, and answers every executed instruction. -/
def StaysStopped (m : Machine) : Prop :=
  ∀ (acts : List Act) (call : Call),
    (call.make (m.after acts)).1.stopRequested = true ∧
      ((call.make (m.after acts)).1.stepCount ≠ (m.after acts).stepCount →
        (call.make (m.after acts)).2 = .failed .userStopped)

theorem staysStopped (h : m.stopRequested = true) : m.StaysStopped := by
  intro acts call
  have hstop : (call.make (m.after acts)).1.stopRequested = true := by
    rw [call.stopRequested_make, stopRequested_after acts h, Bool.true_or]
  refine ⟨hstop, fun hexecuted ↦ ?_⟩
  rw [(Call.answer_of_executed hexecuted).2, settle, if_pos hstop]

/-! ### Comparing two machines -/

/-- A call on a machine, compared with the same call on the machine while it is interrupted. -/
structure Comparison (call : Call) (m m' : Machine) : Prop where
  /-- The machines behind differ in flags only. The stop is requested if it was before, or by whoever serves
  the call. -/
  machine_eq : (call.make m').1 = (call.make m).1.withFlags m.clock m'.clockRunning m.running
    (m'.stopRequested || call.requestsStop m)
  /-- The same replies are used. -/
  feed_eq : ∀ feed, call = .stepFed feed → (m'.stepFed feed).2.1 = (m.stepFed feed).2.1
  /-- Without an executed instruction the answers are the same: the end of the program, or a fault in place of
  the instruction. -/
  idle : (call.make m).1.stepCount = m.stepCount →
    (call.make m').2 = (call.make m).2 ∧
      ((m.isFinished = true ∧ (call.make m).2 = .finished) ∨
        ∃ fault, fault.followsEffect = false ∧ (call.make m).2 = .failed fault)
  /-- An executed instruction, the last one too, is answered by the stop, or else by the timeout. -/
  executed : (call.make m).1.stepCount ≠ m.stepCount →
    (call.make m).1.stepCount = m.stepCount + 1 ∧
      (call.make m').2 = .failed (if m'.stopRequested || call.requestsStop m then .userStopped
        else .timeout m.limits.timeout)
  /-- A requested stop lasts. -/
  lasting : (call.make m').1.stopRequested = true → (call.make m').1.StaysStopped
  /-- A reset takes the request back, and so does the start of a run. -/
  cleared : (call.make m').1.reset.stopRequested = false ∧
    (call.make m').1.begin.stopRequested = false

/-- The feed is asked in the same way whatever the flags are. -/
theorem feed_stepFed_withFlags (m : Machine) (feed : Feed) (κ : Clock) (c r s : Bool) :
    ((m.withFlags κ c r s).stepFed feed).2.1 = (m.stepFed feed).2.1 := by
  change (stepOnFeed (m.withFlags κ c r s, feed)).1.2 = (stepOnFeed (m, feed)).1.2
  by_cases asks : m.Asks
  · have asks' : (m.withFlags κ c r s).Asks := asks
    cases reply : feed.next.1 with
    | byte => rw [stepOnFeed_of_byte asks reply, stepOnFeed_of_byte asks' reply]
    | unavailable => rw [stepOnFeed_of_unavailable asks reply, stepOnFeed_of_unavailable asks' reply]
  · have idle : ¬ (m.withFlags κ c r s).Asks := asks
    rw [stepOnFeed_of_idle asks, stepOnFeed_of_idle idle]

/-- An interrupted machine differs in flags that let no executed instruction pass. -/
theorem Interrupted.flags (h : m.Interrupted m') :
    m' = m.withFlags m.clock m'.clockRunning m.running m'.stopRequested ∧
      (m'.stopRequested = true ∨ m'.clockRunning = true ∧ m.limits.timeout = 0) := by
  cases h with
  | stopped => exact ⟨rfl, Or.inl rfl⟩
  | late noTime => exact ⟨rfl, Or.inr ⟨rfl, noTime⟩⟩
  | both => exact ⟨rfl, Or.inl rfl⟩

/-- The answer behind an executed instruction, if the flags let none pass. -/
theorem settle_of_interrupted
    (h : m.stopRequested = true ∨ m.clockRunning = true ∧ m.limits.timeout = 0) :
    m.settle = .failed (if m.stopRequested then .userStopped else .timeout m.limits.timeout) := by
  unfold settle
  cases hstop : m.stopRequested with
  | true => rfl
  | false =>
    rcases h with h | ⟨hclock, hempty⟩
    · rw [hstop] at h
      contradiction
    · have hlate : m.outOfTime = true := by
        rw [outOfTime, hclock, hempty, Clock.exceeds_zero, Bool.true_and]
      simp only [hlate, Bool.false_eq_true, ↓reduceIte]

/-- A requested stop and an empty time budget change what a call answers behind an executed instruction, and
nothing else. -/
theorem interruption_changes_the_answer_only (h : m.Interrupted m') (call : Call) :
    Comparison call m m' := by
  obtain ⟨hflags, hinterrupted⟩ := h.flags
  generalize m'.clockRunning = c at hflags hinterrupted
  generalize m'.stopRequested = s at hflags hinterrupted
  subst hflags
  obtain ⟨hmachine, hanswer⟩ := call.make_withFlags m m.clock c m.running s
  have hcount : (call.make (m.withFlags m.clock c m.running s)).1.stepCount =
      (call.make m).1.stepCount :=
    (congrArg stepCount hmachine :)
  constructor
  case machine_eq => exact hmachine
  case feed_eq => exact fun feed _ ↦ feed_stepFed_withFlags m feed m.clock c m.running s
  case idle =>
    intro hidle
    rcases hanswer with ⟨-, hsame⟩ | ⟨hexecuted, -⟩
    · exact ⟨hsame, Call.answer_of_idle hidle⟩
    · omega
  case executed =>
    intro hexecuted
    have hlimits : (call.make m).1.limits = m.limits :=
      congrArg Image.limits (call.make_spec m).image_eq
    refine ⟨(Call.answer_of_executed hexecuted).1, ?_⟩
    rw [(Call.answer_of_executed (hcount ▸ hexecuted)).2, hmachine, settle_of_interrupted]
    · rw [← hlimits]
      rfl
    · rcases hinterrupted with hstop | ⟨hclock, hempty⟩
      · exact Or.inl (Bool.or_eq_true_iff.mpr (Or.inl hstop))
      · exact Or.inr ⟨hclock, (congrArg Limits.timeout hlimits).trans hempty⟩
  case lasting => exact staysStopped
  case cleared => exact ⟨rfl, rfl⟩

/-- The last instruction of a program is answered by the stop before the clock is looked at, and by the clock before
the end of the program is. -/
theorem interrupted_last_instruction :
    let m := load ⟨#[.increment]⟩ { timeout := 0 }
    Comparison .step m m.stop.startClock ∧ m.step.2 = .finished ∧
      m.stop.startClock.step.2 = .failed .userStopped ∧
      m.startClock.step.2 = .failed (.timeout 0) :=
  ⟨interruption_changes_the_answer_only (.both rfl) .step, by decide +kernel,
    by decide +kernel, by decide +kernel⟩

end TapeLang.Machine
