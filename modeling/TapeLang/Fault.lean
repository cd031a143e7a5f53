import TapeLang.Program.Brackets

/-!
# Faults and causes

What can end a run early, its report, and the cause it is filed under.
-/

namespace TapeLang

inductive Cause where
  | completed
  | timeout
  | error
  | maxSteps
  | userStopped
  deriving DecidableEq, Repr, Inhabited

def Cause.name : Cause → String
  | .completed => "completed"
  | .timeout => "timeout"
  | .error => "error"
  | .maxSteps => "max_steps"
  | .userStopped => "user_stopped"

/-- Why a feed gave no byte. -/
inductive InputFailure where
  /-- Nobody sends bytes any more. -/
  | closed
  /-- Reading failed, with the reader's own report. -/
  | unreadable (report : String)
  deriving DecidableEq, Repr, Inhabited

def InputFailure.message : InputFailure → String
  | .closed => "input channel closed"
  | .unreadable report => "input read failed: " ++ report

/-- What ends a run before the end of its program. -/
inductive Fault where
  /-- A bracket that is needed has no partner. -/
  | unmatchedBracket (bracket : UnmatchedBracket)
  /-- The pointer would leave the allowed cells. -/
  | memoryLimit (limit position : Nat)
  /-- The budget of instructions is used up. -/
  | stepLimit (limit : Nat)
  | timeout (limit : Nat)
  | userStopped
  /-- An input instruction got no byte from the feed. -/
  | inputUnavailable (position : Nat) (failure : InputFailure)
  deriving DecidableEq, Inhabited

namespace Fault

def message : Fault → String
  | unmatchedBracket bracket => bracket.message
  | memoryLimit limit position =>
    "Memory limit exceeded (" ++ toString limit ++ " cells) at position " ++ toString position
  | stepLimit limit => "Maximum steps exceeded (" ++ toString limit ++ ")"
  | timeout limit => "Execution timed out after " ++ toString limit ++ "ms"
  | userStopped => "Execution stopped by user"
  | inputUnavailable position failure =>
    "Input unavailable at position " ++ toString position ++ ": " ++ failure.message

/-- The cause a fault is filed under. -/
def cause : Fault → Cause
  | stepLimit _ => .maxSteps
  | timeout _ => .timeout
  | userStopped => .userStopped
  | unmatchedBracket _ | memoryLimit _ _ | inputUnavailable _ _ => .error

/-- The position of the instruction that could not be executed, where there is one. -/
def position? : Fault → Option Nat
  | unmatchedBracket bracket => some bracket.position
  | memoryLimit _ position => some position
  | inputUnavailable position _ => some position
  | stepLimit _ | timeout _ | userStopped => none

/-- Whether the fault is raised behind an instruction that has taken effect, not in place of one. -/
def followsEffect : Fault → Bool
  | timeout _ | userStopped => true
  | _ => false

end Fault

end TapeLang
