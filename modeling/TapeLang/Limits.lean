import TapeLang.Latin1

/-!
# Limits of a run

The bounds a program runs under, and the input it reads.
-/

namespace TapeLang

/-- The bounds of a run and its input. -/
structure Limits where
  /-- The time budget in milliseconds. -/
  timeout : Nat := 5000
  /-- The greatest number of instructions executed. -/
  maxSteps : Nat := 1000000
  /-- The number of cells the pointer may stand on. -/
  maxMemory : Nat := 30000
  /-- The text read by the input instruction, one low byte for each character. -/
  userInput : String := ""
  deriving DecidableEq, Inhabited

namespace Limits

/-- The largest number a bound may have. -/
def largest : Nat := UInt64.size - 1

def inputBytes (l : Limits) : List UInt8 := Latin1.encode l.userInput

def timeoutSeconds (l : Limits) : Nat := l.timeout / 1000

end Limits

end TapeLang
