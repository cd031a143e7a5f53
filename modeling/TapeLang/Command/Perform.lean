import TapeLang.Command.Invocation
import TapeLang.Command.Transcript
import TapeLang.Program.Counts
import TapeLang.Machine.Run
import TapeLang.Trace.Recorder
import TapeLang.Trace.Report
import TapeLang.Limits.Reader
import TapeLang.Transition.Passes
import TapeLang.Encoder
import TapeLang.Codec

/-!
# Performing commands

Each command as a function from what it can read to what it shows. Sources are
read in front of limits, and nothing is executed before both are there.
-/

namespace TapeLang.Command

/-- What a command can read. -/
structure Surroundings where
  standardInput : ByteArray
  /-- The content of the file at a path, if there is one. -/
  file : String → Option ByteArray

/-- The text of a source, or the error of reading it. -/
def Source.read (w : Surroundings) : Source → Except String String
  | .inline text => .ok text
  | .file path =>
    match (w.file path).bind String.fromUTF8? with
    | some text => .ok text
    | none => .error ("reading " ++ path)
  | .standardInput =>
    match String.fromUTF8? w.standardInput with
    | some text => .ok text
    | none => .error "stream did not contain valid UTF-8"

/-- The limits of a command: the usual ones, those of the file in their place, and those given one by one in the
place of both. -/
def LimitArguments.resolve (w : Surroundings) (a : LimitArguments) : Except String Limits :=
  match a.file with
  | none => .ok (a.options.applyTo {})
  | some path =>
    match Limits.ofFile (w.file path) with
    | .ok limits => .ok (a.options.applyTo limits)
    | .error _ => .error ("loading limits from " ++ path)

/-- A message of the command itself. -/
def say (level : Level) (message : String) (fields : List (String × String) := []) : Message :=
  .log ⟨level, "bfkit", message, fields⟩

/-- A debug message of the machine. -/
def machineSays (message : String) (fields : List (String × String)) : Message :=
  .log ⟨.debug, "bfkit::vm", message, fields⟩

/-- A message of the recorder. -/
def recorderSays (level : Level) (message : String) (fields : List (String × String)) : Message :=
  .log ⟨level, "bfkit::trace", message, fields⟩

def runMessages (start : String) (m : Machine) (answer : Except Fault (List UInt8)) :
    List Message :=
  [machineSays start [("len", toString m.program.size)],
    match answer with
    | .ok bytes =>
      machineSays "run completed"
        [("steps", toString m.stepCount), ("bytes", toString (Latin1.decode bytes).utf8ByteSize)]
    | .error fault =>
      machineSays ("run aborted: " ++ fault.message)
        [("steps", toString m.stepCount), ("reason", fault.cause.name)]]

def recordingMessages (r : Recorder) : List Message :=
  let full := recorderSays .warn "trace length cap reached" [("cap", toString r.cap)]
  (if r.ending = some .capped then [full] else []) ++
    [recorderSays .debug "trace finished"
      [("steps", toString r.size), ("reason", r.record.cause.name)]]

/-- Refuse a program with brackets that have no partner. -/
def refuse (brackets : List UnmatchedBracket) : Transcript :=
  (Transcript.failed ("program has " ++ toString brackets.length ++ " unmatched bracket(s)")).after
    (brackets.map fun b ↦ say .error b.message)

/-- Show the end of a run: the bytes printed, and the fault if there was one. -/
def showRun (m : Machine) (answer : Except Fault (List UInt8)) : Transcript :=
  let steps := toString m.stepCount
  match answer with
  | .ok _ => { output := m.output, messages := [say .info "completed" [("steps", steps)]] }
  | .error fault =>
    { Transcript.failed ("execution failed: " ++ fault.message) with
      output := m.output
      messages := [say .error fault.message [("reason", fault.cause.name), ("steps", steps)]] }

/-- Run a program whose text and limits are loaded. -/
def runLoaded (w : Surroundings) (clock : Clock) (text : String) (limits : Limits)
    (interactive : Bool) : Transcript :=
  let m := Machine.load (Program.ofText text) limits clock
  match m.program.unmatched with
  | [] =>
    if interactive then
      let (m, _, answer) := m.runFed (Feed.ofStream w.standardInput.data)
      (showRun m answer).after
        (runMessages "async run with input provider started" m answer)
    else
      let (m, answer) := m.runSliced
      (showRun m answer).after (runMessages "async run started" m answer)
  | brackets => refuse brackets

/-- Run a program. An interactive run needs the standard input for itself. -/
def performRun (w : Surroundings) (clock : Clock) (source : Source) (limits : LimitArguments)
    (interactive : Bool) : Transcript :=
  if interactive ∧ source = .standardInput then
    .failed "--interactive needs the program from FILE or --code, stdin is used for input"
  else
    match source.read w with
    | .error e => .failed e
    | .ok text =>
      match limits.resolve w with
      | .error e => .failed e
      | .ok limits => runLoaded w clock text limits interactive

def traceLoaded (clock : Clock) (text : String) (limits : Limits) : Transcript :=
  let r := (Recorder.load (Program.ofText text) limits Recorder.defaultCap clock).recordAll
  { Transcript.ofLines [r.record.report] with
    messages := recordingMessages r ++
      [say .info "trace recorded"
        [("steps", toString r.record.totalSteps), ("reason", r.record.cause.name)]] }

def performTrace (w : Surroundings) (clock : Clock) (source : Source) (limits : LimitArguments) :
    Transcript :=
  match source.read w with
  | .error e => .failed e
  | .ok text =>
    match limits.resolve w with
    | .error e => .failed e
    | .ok limits => traceLoaded clock text limits

def validateText (text : String) : Transcript :=
  let p := Program.ofText text
  match p.unmatched with
  | [] => .ofLines ["ok (" ++ toString p.size ++ " instructions)"]
  | brackets => { Transcript.ofLines (brackets.map (·.message)) with exitCode := 1 }

/-- The limits under which a program made by the encoder is verified. -/
def verificationLimits : Limits where
  timeout := 60000
  maxSteps := Limits.largest
  maxMemory := Limits.largest

/-- Run a program made for a text and compare what it prints. -/
def verify (clock : Clock) (text : String) (p : Program) : Transcript :=
  let (m, answer) := (Machine.load p verificationLimits clock).runSliced
  let wanted := Latin1.encode text
  let verdict : Transcript :=
    match answer with
    | .error fault => .failed fault.message
    | .ok printed =>
      if printed = wanted then { messages := [say .info "verified"] }
      else
        .failed ("generated program printed " ++ Json.quote (Latin1.decode printed) ++
          ", expected " ++ Json.quote (Latin1.decode wanted))
  verdict.after (runMessages "async run started" m answer)

/-- Make a program that prints a text. -/
def performEncode (t : Thunk Transition.Table) (clock : Clock) (text : String) (verified : Bool) :
    Transcript :=
  let p := Encoder.encode t.get text.toList
  let stats := Encoder.Stats.ofTexts text p.text
  let notes :=
    ["text length = " ++ toString stats.textLength ++ " chars",
      "code length = " ++ toString stats.codeLength ++ " instructions",
      "ratio = " ++ stats.ratio.fixed 2]
  let verdict := if verified then verify clock text p else {}
  { verdict.after (say .info "building transition table" :: notes.map .note) with
    output := (Transcript.ofLines [p.text]).output }

def compressText (text : String) : Transcript :=
  .ofLines [String.ofList (Codec.compress (Program.ofText text).symbols)]

/-- A text without the line ends behind it. -/
def dropLineEnds (text : String) : List Char :=
  (text.toList.reverse.dropWhile (· = '\n')).reverse

def decompressText (text : String) : Transcript :=
  .ofLines [String.ofList (Codec.decompress (dropLineEnds text))]

/-- Show how often each instruction occurs, and what packing gains. -/
def statsText (text : String) : Transcript :=
  let p := Program.ofText text
  .ofLines (
    ["instructions: " ++ toString p.size] ++
      p.histogram.map (fun (i, n) ↦ "  " ++ i.symbol.toString ++ "  " ++ toString n) ++
      ["max loop depth: " ++ toString p.maxLoopDepth,
        "compression ratio: " ++ (Codec.compressionRatio p.symbols).fixed 3])

/-- Apply a command to the text of its source. -/
def onSource (w : Surroundings) (source : Source) (command : String → Transcript) : Transcript :=
  match source.read w with
  | .error e => .failed e
  | .ok text => command text

/-- Do what is to be done, with a table for the encoder and a clock for what is executed. -/
def Action.perform (t : Thunk Transition.Table) (w : Surroundings) (clock : Clock) :
    Action → Transcript
  | .run source limits interactive => performRun w clock source limits interactive
  | .trace source limits => performTrace w clock source limits
  | .validate source => onSource w source validateText
  | .encode text verified => performEncode t clock text verified
  | .compress source => onSource w source compressText
  | .decompress source => onSource w source decompressText
  | .stats source => onSource w source statsText

def Invocation.perform (t : Thunk Transition.Table) (w : Surroundings) (clock : Clock)
    (i : Invocation) : Transcript :=
  let transcript := i.action.perform t w clock
  if i.verbose then transcript else transcript.withoutDebug

/-- What a command line does in its surroundings, unless its arguments are refused. -/
def perform? (args : List String) (w : Surroundings) (clock : Clock := .standard) :
    Option Transcript :=
  (Invocation.ofArguments? args).map (Invocation.perform Transition.standardTable w clock)

end TapeLang.Command
