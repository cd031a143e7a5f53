import TapeLang.Limits

/-!
# Options for limits

Limits that are given in part: each option that is given replaces one limit.
-/

namespace TapeLang

/-- Limits of which some may be missing. -/
structure LimitOptions where
  timeout : Option Nat := none
  maxSteps : Option Nat := none
  maxMemory : Option Nat := none
  userInput : Option String := none
  deriving DecidableEq, Inhabited

namespace LimitOptions

/-- Put the given options in the place of the limits. -/
def applyTo (o : LimitOptions) (l : Limits) : Limits where
  timeout := o.timeout.getD l.timeout
  maxSteps := o.maxSteps.getD l.maxSteps
  maxMemory := o.maxMemory.getD l.maxMemory
  userInput := o.userInput.getD l.userInput

/-- Without options nothing is replaced. -/
@[simp] theorem applyTo_none (l : Limits) : ({} : LimitOptions).applyTo l = l := rfl

end LimitOptions

/-- The name of a limit. -/
inductive LimitKey where
  | timeout
  | maxSteps
  | maxMemory
  | userInput
  deriving DecidableEq, Repr

namespace LimitKey

/-- Every limit, in the order of a list of limits. -/
def all : List LimitKey := [timeout, maxSteps, maxMemory, userInput]

def name : LimitKey → String
  | timeout => "timeout"
  | maxSteps => "maxSteps"
  | maxMemory => "maxMemory"
  | userInput => "userInput"

def ofName? (name : String) : Option LimitKey := all.find? fun key ↦ key.name = name

end LimitKey

def LimitOptions.has (o : LimitOptions) : LimitKey → Bool
  | .timeout => o.timeout.isSome
  | .maxSteps => o.maxSteps.isSome
  | .maxMemory => o.maxMemory.isSome
  | .userInput => o.userInput.isSome

end TapeLang
