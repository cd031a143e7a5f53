import TapeLang.Machine

/-!
# Traces

A snapshot shows a machine in front of its next instruction. A record is the
list of snapshots of one execution, from its start, with the way it ended; the
statistics are read off the snapshots.
-/

namespace TapeLang

/-- A machine as seen in front of its next instruction. -/
structure Snapshot where
  pc : Nat
  pointer : Nat
  tape : Tape
  /-- The bytes printed so far, latest first. -/
  printed : List UInt8
  /-- The next instruction, unless the program has ended. -/
  instruction : Option Instruction
  inputPosition : Nat
  deriving DecidableEq

namespace Snapshot

def ofMachine (m : Machine) : Snapshot where
  pc := m.pc
  pointer := m.pointer
  tape := m.tape
  printed := m.printed
  instruction := m.current?
  inputPosition := m.inputPosition

def outputText (s : Snapshot) : String := Latin1.decode s.printed.reverse

end Snapshot

/-- How a recording ended. -/
inductive Ending where
  | completed
  /-- The recording was full. -/
  | capped
  | failed (fault : Fault)
  deriving DecidableEq

namespace Ending

/-- The cause an ending is filed under. A full recording counts as too many steps. -/
def cause : Ending → Cause
  | completed => .completed
  | capped => .maxSteps
  | failed fault => fault.cause

/-- The report on a fault; the other endings have none. -/
def message? : Ending → Option String
  | completed | capped => none
  | failed fault => some fault.message

end Ending

/-- The snapshots of one execution and the way it ended. -/
structure Record where
  program : Program
  userInput : String
  /-- The snapshots, from the start of the execution. -/
  snapshots : Array Snapshot
  ending : Option Ending
  /-- The time the steps took, in whole milliseconds, if they were timed. -/
  executionTime? : Option Nat := none
  deriving DecidableEq

namespace Record

/-- The record without the time its steps took: all that does not differ from one recording to the next. -/
def untimed (r : Record) : Record := { r with executionTime? := none }

/-- The least number of cells a record asks to be shown. -/
def minCells : Nat := 15

/-- The number of cells to be shown: those of the widest snapshot, but not fewer than `minCells`. -/
def maxCells (r : Record) : Nat :=
  max (r.snapshots.foldl (fun widest s ↦ max widest s.tape.size) 0) minCells

/-- The number of instructions recorded. -/
def totalSteps (r : Record) : Nat := r.snapshots.size - 1

/-- The cause the recording is filed under. One that can still go on counts as a full one. -/
def cause (r : Record) : Cause := (r.ending.getD .capped).cause

def completed (r : Record) : Bool := r.cause = .completed

/-- The report on the fault that ended the recording, if one did. -/
def message? (r : Record) : Option String := r.ending.bind Ending.message?

end Record

end TapeLang
