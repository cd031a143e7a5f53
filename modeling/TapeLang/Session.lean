import TapeLang.Machine.Run
import TapeLang.Trace.Recorder

/-!
# Sessions

A session is a machine whose whole trace is recorded when it is first asked
for, and remembered until the next reset. The trace is recorded on a machine of
its own, so the session's machine is not disturbed by it.
-/

namespace TapeLang

/-- A machine and the record of its whole trace, if it has been asked for. -/
structure Session where
  machine : Machine
  remembered : Option Record := none

namespace Session

/-- A session in front of the first instruction. -/
def load (program : Program) (limits : Limits) (clock : Clock := .standard) : Session where
  machine := .load program limits clock

def withClock (s : Session) (clock : Clock) : Session :=
  { s with machine := s.machine.withClock clock }

/-- Put the machine back to its start and forget the record. -/
def reset (s : Session) : Session where
  machine := s.machine.reset

def step (s : Session) : Session × Status :=
  let (machine, status) := s.machine.step
  ({ s with machine }, status)

def stepFed (s : Session) (feed : Feed) : Session × Feed × Status :=
  let (machine, feed, status) := s.machine.stepFed feed
  ({ s with machine }, feed, status)

/-- Run the program from its start. Like a reset, a run forgets the record. -/
def run (s : Session) : Session × Except Fault (List UInt8) :=
  let (machine, answer) := s.machine.run
  ({ machine }, answer)

def runSliced (s : Session) : Session × Except Fault (List UInt8) :=
  let (machine, answer) := s.machine.runSliced
  ({ machine }, answer)

/-- Run the program from its start in slices, reading from a feed. -/
def runFed (s : Session) (feed : Feed) : Session × Feed × Except Fault (List UInt8) :=
  let (machine, feed, answer) := s.machine.runFed feed
  ({ machine }, feed, answer)

def stop (s : Session) : Session := { s with machine := s.machine.stop }

def startClock (s : Session) : Session := { s with machine := s.machine.startClock }

/-- The record of the whole trace, recorded now if it is not remembered. -/
def trace (s : Session) : Record × Session :=
  match s.remembered with
  | some record => (record, s)
  | none =>
    let record := Record.ofProgram s.machine.program s.machine.limits s.machine.clock
    (record, { s with remembered := some record })

end Session

end TapeLang
