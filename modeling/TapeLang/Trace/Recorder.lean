import TapeLang.Trace

/-!
# Recorders

A recorder drives a machine of its own and keeps a snapshot of its start and
one behind every executed instruction, up to a cap. It executes only as far as
it is asked to; what it has recorded is never recorded again.
-/

namespace TapeLang

structure Recorder where
  /-- The machine, as it stands behind the last snapshot. -/
  machine : Machine
  snapshots : Array Snapshot
  cap : Nat
  ending : Option Ending
  /-- The time the steps took so far, in nanoseconds. -/
  time : Nat := 0

namespace Recorder

/-- The number of snapshots kept if no other cap is asked for. -/
def defaultCap : Nat := 10000

/-- A recorder in front of the first instruction. It keeps at least the snapshot of the start. -/
def load (program : Program) (limits : Limits) (cap : Nat) (clock : Clock := .standard) :
    Recorder :=
  let machine := Machine.load program limits clock
  { machine
    snapshots := #[.ofMachine machine]
    cap := max cap 1
    ending := if machine.isFinished then some .completed else none }

def size (r : Recorder) : Nat := r.snapshots.size

def isFinished (r : Recorder) : Bool := r.ending.isSome

/-- A snapshot already taken. -/
def get? (r : Recorder) (index : Nat) : Option Snapshot := r.snapshots[index]?

def last? (r : Recorder) : Option Snapshot := r.snapshots.back?

def record (r : Recorder) : Record where
  program := r.machine.program
  userInput := r.machine.limits.userInput
  snapshots := r.snapshots
  ending := r.ending
  executionTime? := r.machine.clock.stepTime?.map fun _ ↦ r.time / Clock.millisecond

/-- The recorder that has to answer without a step: it has ended, or ends here because it is full. -/
def blocked? (r : Recorder) : Option Recorder :=
  if r.isFinished then some r
  else if r.cap ≤ r.size then some { r with ending := some .capped }
  else none

/-- Count the time of the next step. -/
def timeStep (r : Recorder) : Recorder :=
  match r.machine.clock.stepTime? with
  | some stepTime => { r with time := r.time + stepTime r.size }
  | none => r

/-- Keep a snapshot of a machine. -/
def keep (r : Recorder) (m : Machine) : Recorder :=
  { r with machine := m, snapshots := r.snapshots.push (.ofMachine m) }

/-- Take note of a step of the machine and its answer. A fault ends the recording; if it follows the effect of
an instruction, that effect is kept, but it is not answered with. -/
def note (r : Recorder) (m : Machine) : Status → Recorder × Option Snapshot
  | .more =>
    let r := r.keep m
    (r, r.last?)
  | .finished =>
    let r := { r.keep m with ending := some .completed }
    (r, r.last?)
  | .failed fault =>
    let r := if fault.followsEffect then r.keep m else { r with machine := m }
    ({ r with ending := some (.failed fault) }, none)

/-- Execute one instruction more and answer with the snapshot behind it. -/
def forward (r : Recorder) : Recorder × Option Snapshot :=
  match r.blocked? with
  | some r => (r, none)
  | none =>
    let (m, status) := r.machine.step
    r.timeStep.note m status

/-- Execute one instruction more, reading from a feed. -/
def forwardFed (r : Recorder) (feed : Feed) : Recorder × Feed × Option Snapshot :=
  match r.blocked? with
  | some r => (r, feed, none)
  | none =>
    let (m, feed, status) := r.machine.stepFed feed
    let (r, snapshot) := r.timeStep.note m status
    (r, feed, snapshot)

/-- Execute up to `n` instructions more; tells whether each of them was answered with a snapshot. -/
def extend : Nat → Recorder → Recorder × Bool
  | 0, r => (r, true)
  | n + 1, r =>
    match r.forward with
    | (r, some _) => extend n r
    | (r, none) => (r, false)

/-- Record up to the snapshot at an index and answer with it. -/
def seek (r : Recorder) (index : Nat) : Recorder × Option Snapshot :=
  match r.extend (index + 1 - r.size) with
  | (r, true) => (r, r.get? index)
  | (r, false) => (r, none)

/-- Record until the program ends, a fault is raised or the recorder is full. The time budget counts from here. -/
def recordAll (r : Recorder) : Recorder :=
  ({ r with machine := r.machine.startClock }.extend (r.cap + 1)).1

end Recorder

/-- The whole record of a program under limits, with the default cap. -/
def Record.ofProgram (program : Program) (limits : Limits) (clock : Clock := .standard) : Record :=
  (Recorder.load program limits Recorder.defaultCap clock).recordAll.record

end TapeLang
