import TapeLang.Trace
import TapeLang.Json.Layout

/-!
# Reports on traces

A record as a JSON text.
-/

namespace TapeLang

open Json

def Snapshot.layout (s : Snapshot) : Layout :=
  .object [
    ("index", .number s.pc),
    ("pointer", .number s.pointer),
    ("cells", .array (s.tape.cells.toList.map (.number ·.toNat))),
    ("result", .string s.outputText),
    ("instruction",
      match s.instruction with
      | some i => .string i.symbol.toString
      | none => .null),
    ("inputPosition", .number s.inputPosition)]

namespace Record

/-- The statistics in the report; the time is named only if the steps were timed, and the fault only if there
was one. -/
def statsLayout (r : Record) : Layout :=
  .object ([("totalSteps", .number r.totalSteps)] ++
    (r.executionTime?.map fun time ↦ ("executionTime", Layout.number time)).toList ++ [
    ("maxMemoryUsed", .number r.maxCells),
    ("completed", .bool r.completed),
    ("terminationReason", .string r.cause.name)] ++
    (r.message?.map fun message ↦ ("error", Layout.string message)).toList)

def layout (r : Record) : Layout :=
  .object [
    ("input", .string r.program.text),
    ("userInput", .string r.userInput),
    ("max_cells", .number r.maxCells),
    ("steps", .array (r.snapshots.toList.map Snapshot.layout)),
    ("stats", r.statsLayout)]

def report (r : Record) : String := r.layout 0

end Record

end TapeLang
