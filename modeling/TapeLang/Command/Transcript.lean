/-!
# Transcripts

What a command does as seen from outside: the bytes it prints, its messages,
its error and its exit code.
-/

namespace TapeLang.Command

inductive Level where
  | debug
  | info
  | warn
  | error
  deriving DecidableEq, Repr

def Level.name : Level → String
  | debug => "DEBUG"
  | info => "INFO"
  | warn => "WARN"
  | error => "ERROR"

structure LogLine where
  level : Level
  /-- The part of the program that speaks. -/
  target : String
  message : String
  /-- Named values behind the message. -/
  fields : List (String × String) := []
  deriving DecidableEq

/-- The text of a log line. -/
def LogLine.render (l : LogLine) : String :=
  l.level.name ++ " " ++ l.target ++ ": " ++ l.message ++
    String.join (l.fields.map fun (name, value) ↦ " " ++ name ++ "=" ++ value)

inductive Message where
  | log (line : LogLine)
  | note (text : String)
  deriving DecidableEq

/-- What a command prints, and how it ends. -/
structure Transcript where
  output : List UInt8 := []
  messages : List Message := []
  /-- The error the command ends with, if it does. -/
  error : Option String := none
  exitCode : UInt8 := 0

namespace Transcript

def bytesOf (text : String) : List UInt8 := text.toUTF8.toList

def ofLines (lines : List String) : Transcript where
  output := bytesOf (String.join (lines.map (· ++ "\n")))

/-- A command that ends with an error. -/
def failed (error : String) : Transcript where
  error := some error
  exitCode := 1

/-- Put messages in front. -/
def after (messages : List Message) (t : Transcript) : Transcript :=
  { t with messages := messages ++ t.messages }

def withoutDebug (t : Transcript) : Transcript :=
  { t with
    messages := t.messages.filter fun
      | .log line => line.level ≠ .debug
      | .note _ => true }

def log (t : Transcript) : List String :=
  t.messages.filterMap fun
    | .log line => some line.render
    | .note _ => none

def notes (t : Transcript) : List String :=
  t.messages.filterMap fun
    | .log _ => none
    | .note text => some text

end Transcript

end TapeLang.Command
