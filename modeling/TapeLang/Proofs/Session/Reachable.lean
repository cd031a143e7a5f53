import TapeLang.Session
import TapeLang.Proofs.Machine.Reachable

/-!
# Reachable sessions

The sessions that a program under limits can get to by the operations on a
session in any order, whatever they answer. Each operation may be timed in its
own way; which clocks time them is part of what is known of a history. The
machine of a reachable session is a reachable machine.
-/

namespace TapeLang.Session

variable {p : Program} {l : Limits} {timed : Clock → Prop} {s : Session}

/-- A session that the operations lead to from the loaded program. -/
inductive Reachable (p : Program) (l : Limits) (timed : Clock → Prop) : Session → Prop
  | load {clock : Clock} (hclock : timed clock) : Reachable p l timed (.load p l clock)
  /-- What follows is timed in another way. -/
  | withClock {s : Session} (h : Reachable p l timed s) {clock : Clock} (hclock : timed clock) :
    Reachable p l timed (s.withClock clock)
  | step {s : Session} (h : Reachable p l timed s) : Reachable p l timed s.step.1
  | stepFed {s : Session} (h : Reachable p l timed s) (feed : Feed) :
    Reachable p l timed (s.stepFed feed).1
  | run {s : Session} (h : Reachable p l timed s) : Reachable p l timed s.run.1
  | runSliced {s : Session} (h : Reachable p l timed s) : Reachable p l timed s.runSliced.1
  | runFed {s : Session} (h : Reachable p l timed s) (feed : Feed) :
    Reachable p l timed (s.runFed feed).1
  | stop {s : Session} (h : Reachable p l timed s) : Reachable p l timed s.stop
  | startClock {s : Session} (h : Reachable p l timed s) : Reachable p l timed s.startClock
  | trace {s : Session} (h : Reachable p l timed s) : Reachable p l timed s.trace.2
  | reset {s : Session} (h : Reachable p l timed s) : Reachable p l timed s.reset

/-- Recording the trace leaves the machine of a session alone. -/
theorem machine_trace (s : Session) : s.trace.2.machine = s.machine := by
  unfold trace
  split <;> rfl

/-- The machine of a reachable session is reachable. -/
theorem Reachable.machine (h : Reachable p l timed s) : Machine.Reachable p l s.machine := by
  induction h with
  | @load clock => exact .load clock
  | @withClock _ _ clock _ ih => exact ih.withClock clock
  | step _ ih => exact ih.step
  | stepFed _ feed ih => exact ih.stepFed feed
  | run _ ih => exact ih.run
  | runSliced _ ih => exact ih.runSliced
  | runFed _ feed ih => exact ih.runFed feed
  | stop _ ih => exact ih.stop
  | startClock _ ih => exact ih.startClock
  | @trace s _ ih =>
    rw [machine_trace]
    exact ih
  | reset _ ih => exact ih.reset

end TapeLang.Session
