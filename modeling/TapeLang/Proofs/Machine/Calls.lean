import TapeLang.Proofs.Machine.Feeding
import TapeLang.Proofs.Machine.Flags

/-!
# Calls

A call makes one step of a machine, alone or on a feed. It finds the program at
its end, is refused, gets no byte, or executes an instruction (`CallsTo`). The
clock and the flags of the machine decide on the answer behind an executed
instruction and on nothing else (`Call.make_withFlags`).

A machine that has refused an instruction is stuck: it answers every further call
in the same way and stays as it is, whatever flags are set in between
(`Stuck.after`). Main statement: `refusal_is_atomic_and_sticky`.
-/

namespace TapeLang

def Reply.requestsStop : Reply → Bool
  | byte _ requestsStop => requestsStop
  | unavailable _ requestsStop => requestsStop

namespace Machine

variable {m m' : Machine} {i : Instruction} {provided : Option UInt8} {fault : Fault}
  {status : Status}

/-- One step, alone or on a feed. -/
inductive Call where
  | step
  | stepFed (feed : Feed)

def Call.make : Call → Machine → Machine × Status
  | step, m => m.step
  | stepFed feed, m => ((m.stepFed feed).1, (m.stepFed feed).2.2)

/-- Whether a stop is requested by whoever serves the call. -/
def Call.requestsStop (m : Machine) : Call → Bool
  | step => false
  | stepFed feed => decide m.Asks && feed.next.1.requestsStop

/-- What may be done with a machine short of a reset or a run. -/
inductive Act where
  | call (c : Call)
  /-- What follows is timed in another way. -/
  | withClock (clock : Clock)
  | stop
  | startClock

/-- The machine behind an act, whatever it answers. -/
def Act.apply : Act → Machine → Machine
  | .call c, m => (c.make m).1
  | .withClock clock, m => m.withClock clock
  | .stop, m => m.stop
  | .startClock, m => m.startClock

def after (m : Machine) (acts : List Act) : Machine := acts.foldl (fun m act ↦ act.apply m) m

theorem Call.make_stepFed (feed : Feed) (m : Machine) :
    (stepFed feed).make m = ((stepOnFeed (m, feed)).1.1, (stepOnFeed (m, feed)).2) := rfl

/-! ### What a call does -/

/-- The next instruction is not executed: the budget is used up, or the instruction is refused. -/
inductive Declines (m : Machine) : Machine → Fault → Prop
  | spent {i : Instruction} (current : m.current? = some i) (budget : m.outOfSteps = true) :
    Declines m m m.stepLimitFault
  | refused {i : Instruction} {m' : Machine} {fault : Fault} (current : m.current? = some i)
      (budget : m.outOfSteps = false) (effect : m.Refuses i m' fault) : Declines m m' fault

/-- One call and its answer, and whether a stop is requested by whoever serves it. -/
inductive CallsTo (m : Machine) : Bool → Machine → Status → Prop
  | ended (current : m.current? = none) : CallsTo m false m .finished
  | declined {m' : Machine} {fault : Fault} (refusal : m.Declines m' fault) :
    CallsTo m false m' (.failed fault)
  | unserved (failure : InputFailure) (requestsStop : Bool) :
    CallsTo m requestsStop (m.heed requestsStop) (.failed (.inputUnavailable m.pc failure))
  | executed {m' : Machine} {requestsStop : Bool} (image : m'.image = m.image)
      (count : m'.stepCount = m.stepCount + 1) : CallsTo m requestsStop m' m'.settle

theorem StepsTo.callsTo (h : m.StepsTo provided m' status) : m.CallsTo false m' status := by
  cases h with
  | ended current => exact .ended current
  | spent current budget => exact .declined (.spent current budget)
  | refused current budget effect => exact .declined (.refused current budget effect)
  | executed _ _ effect => exact .executed effect.image_eq effect.stepCount_moveOn

theorem Call.requestsStop_of_idle (idle : ¬ m.Asks) (call : Call) :
    call.requestsStop m = false := by
  cases call <;> simp [requestsStop, idle]

theorem Call.requestsStop_of_asks (asks : m.Asks) (feed : Feed) :
    (stepFed feed).requestsStop m = feed.next.1.requestsStop := by
  simp [requestsStop, asks]

/-- A call does what `CallsTo` says. -/
theorem Call.make_spec (call : Call) (m : Machine) :
    m.CallsTo (call.requestsStop m) (call.make m).1 (call.make m).2 := by
  cases call with
  | step => exact (stepWith_spec m none).callsTo
  | stepFed feed =>
    rw [make_stepFed]
    by_cases asks : m.Asks
    · rw [requestsStop_of_asks asks]
      cases reply : feed.next.1 with
      | byte value requestsStop =>
        rw [stepOnFeed_of_byte asks reply]
        exact .executed rfl rfl
      | unavailable failure requestsStop =>
        rw [stepOnFeed_of_unavailable asks reply]
        exact .unserved failure requestsStop
    · rw [requestsStop_of_idle asks, stepOnFeed_of_idle asks]
      exact (stepWith_spec m none).callsTo

/-- What a failure in place of an instruction leaves of a machine. -/
structure Untouched (requestsStop : Bool) (m m' : Machine) (fault : Fault) : Prop where
  /-- Only the tape may have changed; the flag is as whoever serves the call has left it. -/
  machine_eq : m' =
    { m with tape := m'.tape, stopRequested := m.stopRequested || requestsStop }
  /-- No cell has another value. -/
  get_eq : ∀ index, m'.tape.get index = m.tape.get index
  /-- The tape is the same, unless an opening bracket has no partner: then it may reach up to the current cell. -/
  tape_cases : m'.tape = m.tape ∨ fault = .unmatchedBracket ⟨'[', m.pc⟩ ∧
    m'.tape.size = max m.tape.size (m.pointer + 1)
  /-- The fault names the position of the machine, if it names one. -/
  position_eq : ∀ position ∈ fault.position?, position = m.pc

/-- A machine that only heeds a reply is untouched by a fault that names its position, if it names one. -/
theorem untouched_heed (requestsStop : Bool) (h : ∀ position ∈ fault.position?, position = m.pc) :
    m.Untouched requestsStop (m.heed requestsStop) fault :=
  ⟨rfl, fun _ ↦ rfl, Or.inl rfl, h⟩

/-- A machine that declines an instruction is untouched. -/
theorem Declines.untouched (h : m.Declines m' fault) : m.Untouched false m' fault := by
  have untouched_self {fault : Fault} (h : ∀ position ∈ fault.position?, position = m.pc) :
      m.Untouched false m fault := by
    have hsame := untouched_heed (m := m) false h
    rwa [heed_false] at hsame
  have hposition {position : Nat} (h : some m.pc = some position) : position = m.pc :=
    (Option.some.inj h).symm
  cases h with
  | spent => exact untouched_self nofun
  | refused _ _ effect =>
    cases effect with
    | noRoom | stray => exact untouched_self fun _ ↦ hposition
    | unclosed =>
      refine ⟨?_, Tape.get_allocate m.tape m.pointer,
        Or.inr ⟨rfl, Tape.size_allocate m.tape m.pointer⟩, fun _ ↦ hposition⟩
      rw [Bool.or_false]
      rfl

/-- It fails in place of the instruction. -/
theorem Declines.followsEffect_eq (h : m.Declines m' fault) : fault.followsEffect = false := by
  cases h with
  | spent => rfl
  | refused _ _ effect => cases effect <;> rfl

/-- A call keeps the program, the limits and the tables. -/
theorem CallsTo.image_eq {requestsStop : Bool} (h : m.CallsTo requestsStop m' status) :
    m'.image = m.image := by
  cases h with
  | ended | unserved => rfl
  | declined refusal => exact (congrArg image refusal.untouched.machine_eq :)
  | executed himage _ => exact himage

/-- The answer behind an executed instruction is no fault that is raised in place of one. -/
theorem followsEffect_of_settle (h : m.settle = .failed fault) : fault.followsEffect = true := by
  unfold settle at h
  split at h
  · cases h
    rfl
  split at h
  · cases h
    rfl
  split at h <;> contradiction

/-! ### Calls and flags -/

private theorem step_withFlags (m : Machine) (κ : Clock) (c r s : Bool) :
    (m.withFlags κ c r s).step.1 = m.step.1.withFlags κ c r s ∧
      (m.step.1.stepCount = m.stepCount ∧ (m.withFlags κ c r s).step.2 = m.step.2 ∨
        m.step.1.stepCount = m.stepCount + 1 ∧ m.step.2 = m.step.1.settle ∧
          (m.withFlags κ c r s).step.2 = (m.withFlags κ c r s).step.1.settle) := by
  obtain ⟨hmachine, hanswer⟩ := stepWith_withFlags m none κ c r s
  rw [← hmachine] at hanswer
  exact ⟨hmachine, hanswer⟩

/-- With other flags a call has the same effect. It has the same answer too, unless it has executed an instruction:
then it looks at the flags, and at a stop requested during the call. -/
theorem Call.make_withFlags (call : Call) (m : Machine) (κ : Clock) (c r s : Bool) :
    (call.make (m.withFlags κ c r s)).1 =
        (call.make m).1.withFlags κ c r (s || call.requestsStop m) ∧
      ((call.make m).1.stepCount = m.stepCount ∧
          (call.make (m.withFlags κ c r s)).2 = (call.make m).2 ∨
        (call.make m).1.stepCount = m.stepCount + 1 ∧
          (call.make m).2 = (call.make m).1.settle ∧
          (call.make (m.withFlags κ c r s)).2 = (call.make (m.withFlags κ c r s)).1.settle) := by
  cases call with
  | step =>
    rw [requestsStop, Bool.or_false]
    exact step_withFlags m κ c r s
  | stepFed feed =>
    rw [make_stepFed, make_stepFed]
    by_cases asks : m.Asks
    · have asks' : (m.withFlags κ c r s).Asks := asks
      cases reply : feed.next.1 with
      | byte value requestsStop =>
        have hstop : (stepFed feed).requestsStop m = requestsStop := by
          rw [requestsStop_of_asks asks, reply, Reply.requestsStop]
        rw [hstop, stepOnFeed_of_byte asks reply, stepOnFeed_of_byte asks' reply]
        exact ⟨rfl, Or.inr ⟨rfl, rfl, rfl⟩⟩
      | unavailable failure requestsStop =>
        have hstop : (stepFed feed).requestsStop m = requestsStop := by
          rw [requestsStop_of_asks asks, reply, Reply.requestsStop]
        rw [hstop, stepOnFeed_of_unavailable asks reply, stepOnFeed_of_unavailable asks' reply]
        exact ⟨rfl, Or.inl ⟨rfl, rfl⟩⟩
    · have idle : ¬ (m.withFlags κ c r s).Asks := asks
      rw [requestsStop_of_idle asks, Bool.or_false, stepOnFeed_of_idle asks, stepOnFeed_of_idle idle]
      exact step_withFlags m κ c r s

/-! ### Refusals -/

/-- A refused instruction is refused again. -/
theorem Refuses.again (h : m.Refuses i m' fault) : m'.Refuses i m' fault := by
  cases h with
  | noRoom full => exact .noRoom full
  | unclosed zero alone =>
    have htouch : m.touchCell.touchCell = m.touchCell :=
      congrArg (fun tape ↦ { m with tape }) (Tape.allocate_allocate m.tape m.pointer)
    have hagain : m.touchCell.Refuses .loopStart m.touchCell.touchCell
        (.unmatchedBracket ⟨'[', m.pc⟩) := .unclosed ((cell_touchCell m).trans zero) alone
    rwa [htouch] at hagain
  | stray empty => exact .stray empty

theorem Declines.again (h : m.Declines m' fault) : m'.Declines m' fault := by
  cases h with
  | spent current budget => exact .spent current budget
  | refused current budget effect =>
    have hframe := effect.frame
    have hcurrent : m'.current? = m.current? := (congrArg current? hframe :)
    have hbudget : m'.outOfSteps = m.outOfSteps := (congrArg outOfSteps hframe :)
    exact .refused (hcurrent.trans current) (hbudget.trans budget) effect.again

/-! ### Machines that are stuck -/

/-- Every step fails in the same way and leaves the machine as it is, and no feed is asked. -/
structure Stuck (m : Machine) (fault : Fault) : Prop where
  idle : ¬ m.Asks
  step_eq : m.step = (m, .failed fault)

/-- A machine that declines its next instruction and stays as it is is stuck. -/
theorem Declines.stuck (h : m.Declines m fault) : m.Stuck fault := by
  cases h with
  | spent current budget =>
    refine ⟨fun asks ↦ ?_, ?_⟩
    · rw [(asks_iff.mp asks).2] at budget
      contradiction
    · exact stepWith_of_spent none current budget
  | refused current budget effect =>
    refine ⟨fun asks ↦ ?_, ?_⟩
    · rw [asks.1] at current
      obtain rfl := Option.some.inj current
      nomatch effect
    · exact effect.stepWith_eq current budget none

namespace Stuck

variable (h : m.Stuck fault)
include h

/-- Every call fails in the same way. -/
theorem make (call : Call) : call.make m = (m, .failed fault) := by
  cases call with
  | step => exact h.step_eq
  | stepFed feed =>
    rw [Call.make_stepFed, stepOnFeed_of_idle h.idle, h.step_eq]

/-- Neither flags nor another clock help. -/
theorem withFlags (κ : Clock) (c r s : Bool) : (m.withFlags κ c r s).Stuck fault := by
  refine ⟨h.idle, ?_⟩
  obtain ⟨hmachine, ⟨-, hanswer⟩ | ⟨hcount, -⟩⟩ := step_withFlags m κ c r s
  · rw [h.step_eq] at hmachine hanswer
    exact Prod.ext hmachine hanswer
  · rw [h.step_eq] at hcount
    exact absurd hcount.symm (Nat.succ_ne_self _)

/-- Whatever is done with the machine short of a reset or a run, it stays stuck, and only flags and the clock
change. -/
theorem after (acts : List Act) :
    (m.after acts).Stuck fault ∧ ∃ κ c s, m.after acts = m.withFlags κ c m.running s := by
  induction acts generalizing m with
  | nil => exact ⟨h, m.clock, m.clockRunning, m.stopRequested, rfl⟩
  | cons act acts ih =>
    obtain ⟨κ, c, s, hact⟩ : ∃ κ c s, act.apply m = m.withFlags κ c m.running s := by
      cases act with
      | call call =>
        exact ⟨m.clock, m.clockRunning, m.stopRequested, congrArg Prod.fst (h.make call)⟩
      | withClock κ => exact ⟨κ, m.clockRunning, m.stopRequested, rfl⟩
      | stop => exact ⟨m.clock, m.clockRunning, true, rfl⟩
      | startClock => exact ⟨m.clock, true, m.stopRequested, rfl⟩
    have hcons : m.after (act :: acts) = (m.withFlags κ c m.running s).after acts :=
      congrArg (Machine.after · acts) hact
    obtain ⟨hstuck, κ', c', s', hafter⟩ := ih (h.withFlags κ c m.running s)
    rw [hcons]
    exact ⟨hstuck, κ', c', s', hafter⟩

end Stuck

/-- What a call leaves behind that fails in place of an instruction. -/
structure Refusal (call : Call) (m m' : Machine) (fault : Fault) : Prop
    extends m.Untouched (call.requestsStop m) m' fault where
  /-- A stop requested by whoever serves the call sets the flag and has no other effect. -/
  stop_eq : call.make m.stop = (m'.stop, .failed fault)
  /-- Unless a byte was missing, every call from then on fails in the same way and leaves the machine as it is.
  Whatever is done short of a reset or a run changes flags and the clock at most. -/
  sticky : (∀ position failure, fault ≠ .inputUnavailable position failure) → ∀ acts,
    (∃ κ c s, m'.after acts = m'.withFlags κ c m'.running s) ∧
      ∀ further : Call, further.make (m'.after acts) = (m'.after acts, .failed fault)

/-- A stop requested beforehand does not change what a call does that fails in place of an instruction. -/
theorem Untouched.make_stop {call : Call}
    (h : m.Untouched (call.requestsStop m) (call.make m).1 fault)
    (hfault : (call.make m).2 = .failed fault) (hbefore : fault.followsEffect = false) :
    call.make m.stop = ((call.make m).1.stop, .failed fault) := by
  obtain ⟨hmachine, hanswer⟩ := call.make_withFlags m m.clock m.clockRunning m.running true
  rw [Bool.true_or] at hmachine
  have hflags : (call.make m).1.withFlags m.clock m.clockRunning m.running true =
      (call.make m).1.stop := by
    rw [h.machine_eq]
    rfl
  rcases hanswer with ⟨-, hsame⟩ | ⟨-, hsettle, -⟩
  · exact Prod.ext (hmachine.trans hflags) (hsame.trans hfault)
  · have := followsEffect_of_settle (hsettle.symm.trans hfault)
    rw [hbefore] at this
    contradiction

/-- A call that fails in place of an instruction leaves nothing half done. It changes no register and no cell, leaves
the flag as whoever serves it has left it, names the position it has stayed at, and is answered in the same way from
then on. -/
theorem refusal_is_atomic_and_sticky {call : Call} (hfault : (call.make m).2 = .failed fault)
    (hbefore : fault.followsEffect = false) : Refusal call m (call.make m).1 fault := by
  have hspec := call.make_spec m
  have hstop (h : m.Untouched (call.requestsStop m) (call.make m).1 fault) :=
    h.make_stop hfault hbefore
  rw [hfault] at hspec
  generalize (call.make m).1 = m' at hspec hstop ⊢
  generalize hanswer : Status.failed fault = answer at hspec
  generalize hrequests : call.requestsStop m = requestsStop at hspec hstop
  cases hspec with
  | ended => contradiction
  | declined refusal =>
    obtain rfl := Status.failed.inj hanswer
    refine ⟨hrequests ▸ refusal.untouched, hstop refusal.untouched, fun _ acts ↦ ?_⟩
    obtain ⟨hstuck, hflags⟩ := refusal.again.stuck.after acts
    exact ⟨hflags, hstuck.make⟩
  | unserved failure =>
    obtain rfl := Status.failed.inj hanswer
    have huntouched : m.Untouched requestsStop (m.heed requestsStop)
        (.inputUnavailable m.pc failure) :=
      untouched_heed requestsStop fun _ h ↦ (Option.some.inj h).symm
    exact ⟨hrequests ▸ huntouched, hstop huntouched,
      fun hserved ↦ absurd rfl (hserved m.pc failure)⟩
  | executed =>
    have := followsEffect_of_settle hanswer.symm
    rw [hbefore] at this
    contradiction

/-- An opening bracket without a partner allocates the cells up to its own before it is refused. -/
theorem refusal_lengthens_the_tape_once :
    let m := (advance step 2 (load ⟨#[.right, .right, .loopStart]⟩ {})).1
    let call := Call.stepFed (.ofBytes [])
    m.tape.size = 0 ∧ (call.make m).1.tape.size = 3 ∧
      Refusal call m (call.make m).1 (.unmatchedBracket ⟨'[', 2⟩) :=
  ⟨by decide +kernel, by decide +kernel,
    refusal_is_atomic_and_sticky (by decide +kernel) rfl⟩

end Machine

end TapeLang
