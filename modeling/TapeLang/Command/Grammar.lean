/-!
# The grammar of arguments

Arguments are options, each with a value or without, and other arguments, in
any order. A value follows its option as the next argument or, attached to it,
in the same one: `--name=value`, `-nvalue` or `-n=value`. Short options without
a value may stand in front of another one. A value of its own may not begin
with a dash, unless it is a single dash; `--` ends the options.
-/

namespace TapeLang.Command

/-- An option of the command line. -/
inductive OptionName where
  | code
  | limits
  | timeout
  | maxSteps
  | maxMemory
  | input
  | interactive
  | verify
  | verbose
  deriving DecidableEq, Repr

namespace OptionName

def all : List OptionName :=
  [code, limits, timeout, maxSteps, maxMemory, input, interactive, verify, verbose]

def long : OptionName → String
  | code => "code"
  | limits => "limits"
  | timeout => "timeout"
  | maxSteps => "max-steps"
  | maxMemory => "max-memory"
  | input => "input"
  | interactive => "interactive"
  | verify => "verify"
  | verbose => "verbose"

/-- The letter behind one dash, for options that have one. -/
def short? : OptionName → Option Char
  | code => some 'e'
  | verbose => some 'v'
  | _ => none

def takesValue : OptionName → Bool
  | interactive | verify | verbose => false
  | _ => true

end OptionName

/-- One thing said by the arguments. -/
inductive Item where
  /-- An option; one without a value has an empty one. -/
  | option (name : OptionName) (value : String)
  | plain (value : String)
  deriving DecidableEq

def isOption (arg : String) : Bool :=
  match arg.toList with
  | '-' :: _ :: _ => true
  | _ => false

/-- The items of one argument, and the option whose value is to follow as the next one. -/
abbrev ReadOption := List Item × Option OptionName

/-- Read short options behind their dash. -/
def readShort (allowed : List OptionName) : List Char → Option ReadOption
  | [] => some ([], none)
  | c :: rest =>
    match allowed.find? fun name ↦ name.short? = some c with
    | none => none
    | some name =>
      if name.takesValue then
        match rest with
        | [] => some ([], some name)
        | '=' :: value => some ([.option name (String.ofList value)], none)
        | _ => some ([.option name (String.ofList rest)], none)
      else
        (readShort allowed rest).map fun (items, pending) ↦ (.option name "" :: items, pending)

/-- Read a long option behind its dashes. -/
def readLong (allowed : List OptionName) (body : List Char) : Option ReadOption :=
  let name := String.ofList (body.takeWhile (· ≠ '='))
  match allowed.find? (·.long = name), body.dropWhile (· ≠ '=') with
  | none, _ => none
  | some name, [] => some (if name.takesValue then ([], some name) else ([.option name ""], none))
  | some name, _ :: value =>
    if name.takesValue then some ([.option name (String.ofList value)], none) else none

def readOption (allowed : List OptionName) (arg : String) : Option ReadOption :=
  match arg.toList with
  | '-' :: '-' :: body => readLong allowed body
  | '-' :: letters => readShort allowed letters
  | _ => none

/-- Read arguments, those options being allowed. An option may be waiting for its value. -/
def readItems (allowed : List OptionName) : Option OptionName → List String → Option (List Item)
  | none, [] => some []
  | some _, [] => none
  | some name, arg :: rest =>
    if isOption arg then none
    else (readItems allowed none rest).map (.option name arg :: ·)
  | none, arg :: rest =>
    if arg = "--" then some (rest.map .plain)
    else if isOption arg then
      (readOption allowed arg).bind fun (items, pending) ↦
        (readItems allowed pending rest).map (items ++ ·)
    else (readItems allowed none rest).map (.plain arg :: ·)

/-- The values given to an option. -/
def valuesOf (name : OptionName) (items : List Item) : List String :=
  items.filterMap fun
    | .option other value => if other = name then some value else none
    | .plain _ => none

def plainValues (items : List Item) : List String :=
  items.filterMap fun
    | .option _ _ => none
    | .plain value => some value

/-- No option is given twice. -/
def eachOnce (items : List Item) : Bool :=
  OptionName.all.all fun name ↦ (valuesOf name items).length ≤ 1

def value? (name : OptionName) (items : List Item) : Option String := (valuesOf name items).head?

def isGiven (name : OptionName) (items : List Item) : Bool := (value? name items).isSome

end TapeLang.Command
