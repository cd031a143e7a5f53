import TapeLang.Program.Brackets
import TapeLang.Tape
import TapeLang.Clock
import TapeLang.Limits
import TapeLang.Fault
import TapeLang.Feed

/-!
# The machine

A machine is a loaded program together with its registers and tape. `step`
executes one instruction; every way of running a program is a sequence of such
steps. A step looks at its conditions in a fixed order: the end of the program,
the budget of instructions, the effect of the instruction with its own faults,
and only then a requested stop and the time budget, which is compared with the
clock the machine was given.
-/

namespace TapeLang

/-- A program with its limits, and the tables read off both. -/
structure Image where
  program : Program
  limits : Limits
  /-- The partner of each bracket of the program. -/
  partners : Array (Option Nat) := program.partners
  /-- The bytes of the input text. -/
  input : Array UInt8 := limits.inputBytes.toArray
  partners_eq : partners = program.partners := by rfl
  input_eq : input = limits.inputBytes.toArray := by rfl

/-- A loaded program and the state of its execution. -/
structure Machine where
  /-- What is executed. -/
  image : Image
  tape : Tape := {}
  /-- The index of the current cell. -/
  pointer : Nat := 0
  /-- The position of the next instruction. -/
  pc : Nat := 0
  /-- The positions of the loops being executed, innermost first. -/
  loopStack : List Nat := []
  /-- The bytes printed, latest first. -/
  printed : List UInt8 := []
  /-- The number of bytes read from the input text. -/
  inputPosition : Nat := 0
  stepCount : Nat := 0
  /-- How this execution is timed. -/
  clock : Clock := .standard
  /-- Whether the time budget is being counted. -/
  clockRunning : Bool := false
  running : Bool := false
  stopRequested : Bool := false

/-- The answer of one step. -/
inductive Status where
  /-- Instructions remain. -/
  | more
  /-- The end of the program is reached. -/
  | finished
  | failed (fault : Fault)
  deriving DecidableEq, Inhabited

namespace Machine

/-- A machine in front of the first instruction of a program. -/
def load (program : Program) (limits : Limits) (clock : Clock := .standard) : Machine where
  image := { program, limits }
  clock

def program (m : Machine) : Program := m.image.program

def limits (m : Machine) : Limits := m.image.limits

def cell (m : Machine) : UInt8 := m.tape.get m.pointer

/-- The bytes printed, in order. -/
def output (m : Machine) : List UInt8 := m.printed.reverse

/-- The output as text, one character below U+0100 for each byte. -/
def outputText (m : Machine) : String := Latin1.decode m.output

/-- The next instruction, unless the program has ended. -/
def current? (m : Machine) : Option Instruction := m.program.get? m.pc

def isFinished (m : Machine) : Bool := m.program.size ≤ m.pc

/-- The machine before its first step, with the same program and limits. A run that is under way stays so. -/
def reset (m : Machine) : Machine where
  image := m.image
  clock := m.clock
  running := m.running

/-- The machine with its next instructions timed by another clock. -/
def withClock (m : Machine) (clock : Clock) : Machine := { m with clock }

/-- Ask the machine to stop behind the next executed instruction. -/
def stop (m : Machine) : Machine := { m with stopRequested := true }

def startClock (m : Machine) : Machine := { m with clockRunning := true }

def touchCell (m : Machine) : Machine := { m with tape := m.tape.allocate m.pointer }

def writeCell (m : Machine) (value : UInt8) : Machine :=
  { m with tape := m.tape.set m.pointer value }

def print (m : Machine) (value : UInt8) : Machine := { m with printed := value :: m.printed }

/-- Take the next byte of the input text; past its end a zero is read. -/
def readInput (m : Machine) : UInt8 × Machine :=
  match m.image.input[m.inputPosition]? with
  | some value => (value, { m with inputPosition := m.inputPosition + 1 })
  | none => (0, m)

/-- Enter the loop that starts here, or jump to its end. -/
def enterLoop (m : Machine) : Machine × Option Fault :=
  let m := m.touchCell
  if m.cell ≠ 0 then
    ({ m with loopStack := m.pc :: m.loopStack }, none)
  else
    match m.image.partners.getD m.pc none with
    | some stop => ({ m with pc := stop }, none)
    | none => (m, some (.unmatchedBracket ⟨'[', m.pc⟩))

/-- Go back to the start of the loop that ends here, or leave it. -/
def closeLoop (m : Machine) : Machine × Option Fault :=
  match m.loopStack with
  | [] => (m, some (.unmatchedBracket ⟨']', m.pc⟩))
  | start :: outer =>
    let m := m.touchCell
    if m.cell ≠ 0 then
      ({ m with pc := start }, none)
    else
      ({ m with loopStack := outer }, none)

/-- Move to the next cell if there is room for it. -/
def moveRight (m : Machine) : Machine × Option Fault :=
  if m.limits.maxMemory ≤ m.pointer + 1 then
    (m, some (.memoryLimit m.limits.maxMemory m.pc))
  else
    ({ m with pointer := m.pointer + 1 }, none)

/-- The effect of one instruction, before the machine moves on to the next one. A provided byte is read in
place of the input text. -/
def perform (m : Machine) (provided : Option UInt8) : Instruction → Machine × Option Fault
  | .increment => (m.writeCell (m.cell + 1), none)
  | .decrement => (m.writeCell (m.cell - 1), none)
  | .left => ({ m with pointer := m.pointer - 1 }, none)
  | .right => m.moveRight
  | .loopStart => m.enterLoop
  | .loopEnd => m.closeLoop
  | .output =>
    let m := m.touchCell
    (m.print m.cell, none)
  | .input =>
    match provided with
    | some value => (m.writeCell value, none)
    | none =>
      let (value, m) := m.readInput
      (m.writeCell value, none)

/-- Move on to the next instruction and count the one executed. -/
def moveOn (m : Machine) : Machine :=
  { m with pc := m.pc + 1, stepCount := m.stepCount + 1 }

/-- Whether more time than the budget has passed, if it is being counted. -/
def outOfTime (m : Machine) : Bool :=
  m.clockRunning && m.clock.exceeds m.limits.timeout m.stepCount

/-- The answer behind an executed instruction. -/
def settle (m : Machine) : Status :=
  if m.stopRequested then .failed .userStopped
  else if m.outOfTime then .failed (.timeout m.limits.timeout)
  else if m.isFinished then .finished
  else .more

def outOfSteps (m : Machine) : Bool := m.limits.maxSteps ≤ m.stepCount

def stepLimitFault (m : Machine) : Fault := .stepLimit m.limits.maxSteps

/-- Execute one instruction, reading a provided byte in place of the input text. -/
def stepWith (m : Machine) (provided : Option UInt8) : Machine × Status :=
  match m.current? with
  | none => (m, .finished)
  | some instruction =>
    if m.outOfSteps then (m, .failed m.stepLimitFault)
    else
      match m.perform provided instruction with
      | (m, some fault) => (m, .failed fault)
      | (m, none) =>
        let m := m.moveOn
        (m, m.settle)

/-- Execute one instruction. At the end of the program nothing happens. -/
def step (m : Machine) : Machine × Status := m.stepWith none

/-- The machine behind a reply, which may have asked it to stop. -/
def heed (m : Machine) (requestsStop : Bool) : Machine :=
  { m with stopRequested := m.stopRequested || requestsStop }

/-- Execute one instruction, reading from a feed. The feed is asked only for an instruction that will be
executed if it answers with a byte. -/
def stepFed (m : Machine) (feed : Feed) : Machine × Feed × Status :=
  match m.current? with
  | some .input =>
    if m.outOfSteps then (m, feed, .failed m.stepLimitFault)
    else
      match feed.next with
      | (.unavailable failure requestsStop, feed) =>
        (m.heed requestsStop, feed, .failed (.inputUnavailable m.pc failure))
      | (.byte value requestsStop, feed) =>
        let (m, status) := (m.heed requestsStop).stepWith (some value)
        (m, feed, status)
  | _ =>
    let (m, status) := m.stepWith none
    (m, feed, status)

end Machine

end TapeLang
