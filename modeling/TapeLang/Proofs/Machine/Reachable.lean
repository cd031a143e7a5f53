import TapeLang.Machine.Run
import TapeLang.Proofs.Machine.Step

/-!
# Reachable machines

The machines that a program under limits can get to by the operations on a
machine in any order. A run is a beginning, steps and a conclusion, so the
machines on the way of a run are reachable as well as those behind it. The
clock may change at any moment, so the runs and steps of one history may each be
timed differently.
`Reachable.preserves` is the induction over all histories: it asks for one step
with its byte from a reachable machine, and for the operations that only set
flags.
-/

namespace TapeLang

section

variable {σ : Type} {next : σ → σ × Status} {P : σ → Prop}

/-- What every step keeps is kept by an advance. -/
theorem advance_preserves (keep : ∀ s, P s → P (next s).1) (n : Nat) {s : σ} (h : P s) :
    P (advance next n s).1 := by
  induction n generalizing s with
  | zero => exact h
  | succ n ih =>
    rw [advance_succ]
    split
    · exact ih (keep s h)
    · exact keep s h

/-- An answer of an advance is the answer of one of its steps. -/
theorem advance_answer (keep : ∀ s, P s → P (next s).1) {n : Nat} {s : σ} {answer : Status}
    (h : P s) (hanswer : (advance next n s).2 = answer) (hmore : answer ≠ .more) :
    ∃ s', P s' ∧ (next s').2 = answer := by
  induction n generalizing s with
  | zero => exact False.elim (hmore hanswer.symm)
  | succ n ih =>
    rw [advance_succ] at hanswer
    split at hanswer
    · exact ih (keep s h) hanswer
    · exact ⟨s, h, hanswer⟩

end

namespace Machine

/-- A run is an advance from the beginning with its conclusion. -/
theorem run_eq (m : Machine) :
    m.run = (advance step m.stepsToAnswer m.begin).1.conclude
      (advance step m.stepsToAnswer m.begin).2 := rfl

/-- A run in slices is an advance by slices with its conclusion. -/
theorem runSliced_eq (m : Machine) :
    m.runSliced =
      (advance (advance step sliceLength) (m.stepsToAnswer / sliceLength + 1) m.begin).1.conclude
        (advance (advance step sliceLength) (m.stepsToAnswer / sliceLength + 1) m.begin).2 := rfl

/-- Where the steps of a run on a feed end. -/
def fedSteps (m : Machine) (feed : Feed) : (Machine × Feed) × Status :=
  advance (advance stepOnFeed sliceLength) (m.stepsToAnswer / sliceLength + 1) (m.begin, feed)

/-- A run on a feed is its steps with the conclusion of the machine. -/
theorem runFed_eq (m : Machine) (feed : Feed) :
    m.runFed feed =
      (((m.fedSteps feed).1.1.conclude (m.fedSteps feed).2).1, (m.fedSteps feed).1.2,
        ((m.fedSteps feed).1.1.conclude (m.fedSteps feed).2).2) := rfl

/-- A run gives a fault exactly when its steps end with it. -/
theorem conclude_eq_error_iff {m : Machine} {status : Status} {fault : Fault} :
    (m.conclude status).2 = .error fault ↔ status = .failed fault := by
  cases status <;> simp [conclude]

variable {p : Program} {l : Limits} {m : Machine}

/-- A machine that the operations lead to from the loaded program. -/
inductive Reachable (p : Program) (l : Limits) : Machine → Prop
  | load (clock : Clock) : Reachable p l (.load p l clock)
  /-- What follows is timed in another way. -/
  | withClock {m : Machine} (h : Reachable p l m) (clock : Clock) :
    Reachable p l (m.withClock clock)
  | step {m : Machine} (h : Reachable p l m) : Reachable p l m.step.1
  /-- A step on a feed; whoever serves the feed may request a stop. -/
  | stepFed {m : Machine} (h : Reachable p l m) (feed : Feed) : Reachable p l (m.stepFed feed).1
  | stop {m : Machine} (h : Reachable p l m) : Reachable p l m.stop
  | startClock {m : Machine} (h : Reachable p l m) : Reachable p l m.startClock
  | reset {m : Machine} (h : Reachable p l m) : Reachable p l m.reset
  | begin {m : Machine} (h : Reachable p l m) : Reachable p l m.begin
  | conclude {m : Machine} (h : Reachable p l m) (status : Status) :
    Reachable p l (m.conclude status).1

namespace Reachable

/-- A reply leads to a reachable machine, whether it requests a stop or not. -/
theorem heed (h : Reachable p l m) (requestsStop : Bool) : Reachable p l (m.heed requestsStop) := by
  cases requestsStop with
  | false =>
    rw [heed_false]
    exact h
  | true =>
    rw [heed_true]
    exact h.stop

/-- What holds of the loaded machine and is kept by every step, by the operations that set flags and
under every clock holds of every reachable machine. -/
theorem preserves {P : Machine → Prop} (load : ∀ clock, P (.load p l clock))
    (withClock : ∀ m clock, P m → P (m.withClock clock))
    (stepWith : ∀ m provided, Reachable p l m → P m → P (m.stepWith provided).1)
    (stop : ∀ m, P m → P m.stop) (startClock : ∀ m, P m → P m.startClock)
    (reset : ∀ m, P m → P m.reset) (begin : ∀ m, P m → P m.begin)
    (conclude : ∀ m status, P m → P (m.conclude status).1) (h : Reachable p l m) : P m := by
  have heed {m : Machine} (hm : P m) (requestsStop : Bool) : P (m.heed requestsStop) := by
    cases requestsStop with
    | false =>
      rw [heed_false]
      exact hm
    | true =>
      rw [heed_true]
      exact stop m hm
  induction h with
  | load clock => exact load clock
  | withClock _ clock ih => exact withClock _ clock ih
  | step h ih => exact stepWith _ _ h ih
  | @stepFed m h feed ih =>
    rcases stepFed_spec m feed with ⟨-, heq⟩ | ⟨-, -, heq⟩ | ⟨_, requestsStop, -, -, -, heq⟩ |
      ⟨value, requestsStop, -, -, -, heq⟩
    · rw [heq]
      exact stepWith _ _ h ih
    · rw [heq]
      exact ih
    · rw [heq]
      exact heed ih requestsStop
    · rw [heq]
      exact stepWith _ _ (h.heed requestsStop) (heed ih requestsStop)
  | stop _ ih => exact stop _ ih
  | startClock _ ih => exact startClock _ ih
  | reset _ ih => exact reset _ ih
  | begin _ ih => exact begin _ ih
  | conclude _ status ih => exact conclude _ status ih

/-- A reachable machine executes the program it was loaded with, under its limits. -/
theorem image_eq (h : Reachable p l m) : m.image = (Machine.load p l).image := by
  refine preserves (P := fun m ↦ m.image = (Machine.load p l).image)
    (fun _ ↦ rfl) ?_ ?_ ?_ ?_ ?_ ?_ ?_ h
  · exact fun _ _ hm ↦ hm
  · intro m provided _ hm
    exact (stepWith_spec m provided).image_eq.trans hm
  · exact fun _ hm ↦ hm
  · exact fun _ hm ↦ hm
  · exact fun _ hm ↦ hm
  · exact fun _ hm ↦ hm
  · exact fun _ _ hm ↦ hm

/-- The program of a reachable machine. -/
theorem program_eq (h : Reachable p l m) : m.program = p := congrArg Image.program h.image_eq

/-- The limits of a reachable machine. -/
theorem limits_eq (h : Reachable p l m) : m.limits = l := congrArg Image.limits h.image_eq

/-- A run leads to a reachable machine. -/
theorem run (h : Reachable p l m) : Reachable p l m.run.1 := by
  have hend := advance_preserves (fun _ ↦ step) m.stepsToAnswer h.begin
  rw [run_eq]
  exact hend.conclude _

private theorem slice {m : Machine} (h : Reachable p l m) :
    Reachable p l (advance Machine.step sliceLength m).1 :=
  advance_preserves (fun _ ↦ step) _ h

/-- A run in slices leads to a reachable machine. -/
theorem runSliced (h : Reachable p l m) : Reachable p l m.runSliced.1 := by
  have hend := advance_preserves (fun _ ↦ slice) (m.stepsToAnswer / sliceLength + 1) h.begin
  rw [runSliced_eq]
  exact hend.conclude _

private theorem fedSlice (s : Machine × Feed) (h : Reachable p l s.1) :
    Reachable p l (advance stepOnFeed sliceLength s).1.1 :=
  advance_preserves (P := fun (s : Machine × Feed) ↦ Reachable p l s.1)
    (fun (s : Machine × Feed) hs ↦ hs.stepFed s.2) _ h

/-- A run on a feed leads to a reachable machine. -/
theorem runFed (h : Reachable p l m) (feed : Feed) : Reachable p l (m.runFed feed).1 := by
  have hbegin : Reachable p l (m.begin, feed).1 := h.begin
  have hend : Reachable p l (m.fedSteps feed).1.1 :=
    advance_preserves (P := fun (s : Machine × Feed) ↦ Reachable p l s.1) fedSlice _ hbegin
  rw [runFed_eq]
  exact hend.conclude (m.fedSteps feed).2

/-! ### Faults of runs -/

/-- A fault of a run is the fault of a step of a reachable machine. -/
theorem exists_step_of_run {fault : Fault} (h : Reachable p l m)
    (hfault : m.run.2 = .error fault) :
    ∃ m', Reachable p l m' ∧ m'.step.2 = .failed fault := by
  rw [run_eq, conclude_eq_error_iff] at hfault
  exact advance_answer (fun _ ↦ step) h.begin hfault Status.noConfusion

/-- A fault of a run in slices is the fault of a step of a reachable machine. -/
theorem exists_step_of_runSliced {fault : Fault} (h : Reachable p l m)
    (hfault : m.runSliced.2 = .error fault) :
    ∃ m', Reachable p l m' ∧ m'.step.2 = .failed fault := by
  rw [runSliced_eq, conclude_eq_error_iff] at hfault
  obtain ⟨m', hm', hslice⟩ := advance_answer (fun _ ↦ slice) h.begin hfault Status.noConfusion
  exact advance_answer (fun _ ↦ step) hm' hslice Status.noConfusion

/-- A fault of a run on a feed is the fault of a step of a reachable machine on a feed. -/
theorem exists_stepFed_of_runFed {feed : Feed} {fault : Fault} (h : Reachable p l m)
    (hfault : (m.runFed feed).2.2 = .error fault) :
    ∃ m' feed', Reachable p l m' ∧ (m'.stepFed feed').2.2 = .failed fault := by
  rw [runFed_eq, conclude_eq_error_iff] at hfault
  have hbegin : Reachable p l (m.begin, feed).1 := h.begin
  obtain ⟨s, hs, hslice⟩ := advance_answer (P := fun (s : Machine × Feed) ↦ Reachable p l s.1)
    fedSlice hbegin hfault Status.noConfusion
  obtain ⟨s', hs', hstep⟩ := advance_answer (P := fun (s : Machine × Feed) ↦ Reachable p l s.1)
    (fun s hs ↦ hs.stepFed s.2) hs hslice Status.noConfusion
  exact ⟨s'.1, s'.2, hs', hstep⟩

end Reachable

end Machine

end TapeLang
