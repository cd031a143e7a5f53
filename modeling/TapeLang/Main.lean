import TapeLang.Command.Perform

/-!
# The command line

Reads what an invocation needs, performs it and shows the transcript.
-/

open TapeLang.Command

namespace TapeLang.CommandLine

/-- What is shown for arguments that are refused. -/
def usage : List String :=
  ["usage: bfkit [-v] run|trace|validate|compress|decompress|stats [FILE | -e CODE] [OPTION]...",
    "       bfkit [-v] encode TEXT [--verify]"]

/-- The source of an action, if it has one. -/
def source? : Action → Option Source
  | .run source _ _ | .trace source _ | .validate source | .compress source
  | .decompress source | .stats source => some source
  | .encode _ _ => none

/-- The files an action may read. -/
def paths (a : Action) : List String :=
  let sources := match source? a with
    | some (.file path) => [path]
    | _ => []
  let limits := match a with
    | .run _ limits _ | .trace _ limits => limits.file.toList
    | _ => []
  sources ++ limits

def readsInput (a : Action) : Bool :=
  match a with
  | .run _ _ true => true
  | _ => source? a = some .standardInput

/-- The content of a file, if it can be read. -/
def content (path : String) : IO (Option ByteArray) :=
  try
    return some (← IO.FS.readBinFile path)
  catch _ =>
    return none

/-- Read what an action needs. -/
def surroundings (a : Action) : IO Surroundings := do
  let files ← (paths a).mapM fun path ↦ return (path, ← content path)
  let input ← if readsInput a then (← IO.getStdin).readBinToEnd else pure ByteArray.empty
  return { standardInput := input, file := fun path ↦ (files.lookup path).join }

def display (t : Transcript) : IO Unit := do
  let stdout ← IO.getStdout
  stdout.write (ByteArray.mk t.output.toArray)
  stdout.flush
  for message in t.messages do
    match message with
    | .log line => IO.eprintln line.render
    | .note text => IO.eprintln text
  if let some error := t.error then IO.eprintln ("Error: " ++ error)

end TapeLang.CommandLine

open TapeLang.CommandLine in
/-- Perform the invocation of the arguments; arguments that are refused end with exit code 2. -/
def main (args : List String) : IO UInt32 := do
  match Invocation.ofArguments? args with
  | none =>
    usage.forM IO.eprintln
    return 2
  | some invocation =>
    let t := invocation.perform TapeLang.Transition.standardTable
      (← surroundings invocation.action) .standard
    display t
    return t.exitCode.toUInt32
