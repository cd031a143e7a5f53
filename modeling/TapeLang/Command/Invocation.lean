import TapeLang.Command.Grammar
import TapeLang.Limits.Options

/-!
# Invocations

What the arguments ask for: one of seven commands, with the source of its
program, its limits and its switches. Arguments that ask for nothing else are
refused as a whole.
-/

namespace TapeLang.Command

/-- Where a program text comes from. -/
inductive Source where
  /-- The command line itself. -/
  | inline (text : String)
  | file (path : String)
  | standardInput
  deriving DecidableEq

/-- The limits given by arguments. -/
structure LimitArguments where
  /-- A file with limits. -/
  file : Option String := none
  /-- The limits given one by one. -/
  options : LimitOptions := {}
  deriving DecidableEq

/-- What is to be done. -/
inductive Action where
  /-- Run a program, and feed it from the standard input if it is interactive. -/
  | run (source : Source) (limits : LimitArguments) (interactive : Bool)
  | trace (source : Source) (limits : LimitArguments)
  | validate (source : Source)
  /-- Make a program that prints a text, and run it if it is to be verified. -/
  | encode (text : String) (verify : Bool)
  | compress (source : Source)
  | decompress (source : Source)
  | stats (source : Source)
  deriving DecidableEq

/-- What the arguments ask for. -/
structure Invocation where
  action : Action
  /-- Whether debug messages are shown. -/
  verbose : Bool
  deriving DecidableEq

inductive Verb where
  | run
  | trace
  | validate
  | encode
  | compress
  | decompress
  | stats
  deriving DecidableEq, Repr

namespace Verb

/-- The command of a name. -/
def ofName? : String → Option Verb
  | "run" => some run
  | "trace" => some trace
  | "validate" => some validate
  | "encode" => some encode
  | "compress" => some compress
  | "decompress" => some decompress
  | "stats" => some stats
  | _ => none

/-- The options that give limits. -/
def limitOptions : List OptionName := [.limits, .timeout, .maxSteps, .maxMemory, .input]

def options : Verb → List OptionName
  | run => [.verbose, .code, .interactive] ++ limitOptions
  | trace => [.verbose, .code] ++ limitOptions
  | encode => [.verbose, .verify]
  | validate | compress | decompress | stats => [.verbose, .code]

end Verb

/-- A natural number of 64 bits, with a plus sign or without. -/
def readBound (text : String) : Option Nat :=
  let digits : List Char := match text.toList with
    | '+' :: rest => rest
    | all => all
  let n := digits.foldl (fun n d ↦ n * 10 + (d.toNat - '0'.toNat)) 0
  if digits ≠ [] ∧ digits.all Char.isDigit ∧ n < UInt64.size then some n else none

/-- A path is not empty. -/
def readPath (text : String) : Option String := if text = "" then none else some text

/-- Read the value of an option if it is given; `none` if it is given and cannot be read. -/
def readValue? {α : Type} (read : String → Option α) (name : OptionName) (items : List Item) :
    Option (Option α) :=
  match value? name items with
  | none => some none
  | some text => (read text).map some

/-- The source of a program: its text, a file, or the standard input if neither is given. -/
def readSource (items : List Item) : Option Source :=
  match value? .code items, plainValues items with
  | some text, [] => some (.inline text)
  | none, [] => some .standardInput
  | none, [path] => (readPath path).map .file
  | _, _ => none

def readLimits (items : List Item) : Option LimitArguments := do
  let file ← readValue? readPath .limits items
  let timeout ← readValue? readBound .timeout items
  let maxSteps ← readValue? readBound .maxSteps items
  let maxMemory ← readValue? readBound .maxMemory items
  return { file, options := { timeout, maxSteps, maxMemory, userInput := value? .input items } }

/-- The one text to be encoded. -/
def readText (items : List Item) : Option String :=
  match plainValues items with
  | [text] => some text
  | _ => none

/-- The action of a command with its arguments. -/
def Verb.action (verb : Verb) (items : List Item) : Option Action :=
  match verb with
  | .run => do return .run (← readSource items) (← readLimits items) (isGiven .interactive items)
  | .trace => do return .trace (← readSource items) (← readLimits items)
  | .validate => (readSource items).map .validate
  | .encode => (readText items).map (.encode · (isGiven .verify items))
  | .compress => (readSource items).map .compress
  | .decompress => (readSource items).map .decompress
  | .stats => (readSource items).map .stats

/-- Read the arguments behind a command's name. -/
def Verb.invocation (verb : Verb) (verbose : Bool) (args : List String) : Option Invocation :=
  match readItems verb.options none args with
  | none => none
  | some items =>
    if eachOnce items then
      (verb.action items).map fun action ↦ ⟨action, verbose || isGiven .verbose items⟩
    else none

/-- Read arguments. Only the switch for debug messages may stand in front of the command, and only once there. -/
def Invocation.ofArguments? (args : List String) (verbose : Bool := false) : Option Invocation :=
  match args with
  | [] => none
  | arg :: rest =>
    match Verb.ofName? arg with
    | some verb => verb.invocation verbose rest
    | none =>
      match readOption [.verbose] arg with
      | some ([.option .verbose _], none) => if verbose then none else ofArguments? rest true
      | _ => none

end TapeLang.Command
