import TapeLang.Program

/-!
# Brackets of a program

One pass from left to right keeps the stack of brackets that are still open.
From it follow the brackets without a partner (`Program.unmatched`) and the
partner of each position (`Program.partners`).
-/

namespace TapeLang

/-- A bracket without a partner. -/
structure UnmatchedBracket where
  symbol : Char
  position : Nat
  deriving DecidableEq, Inhabited

namespace UnmatchedBracket

def message (b : UnmatchedBracket) : String :=
  "Unmatched '" ++ b.symbol.toString ++ "' at position " ++ toString b.position

end UnmatchedBracket

/-- The brackets that are open in front of a position. -/
structure OpenBrackets where
  /-- The position of the next instruction. -/
  position : Nat := 0
  /-- The positions of the open brackets, innermost first. -/
  stack : List Nat := []
  deriving DecidableEq

namespace OpenBrackets

/-- Pass one instruction. A closing bracket takes the innermost open one off the stack, if there is one. -/
def next (o : OpenBrackets) (i : Instruction) : OpenBrackets where
  position := o.position + 1
  stack :=
    match i with
    | .loopStart => o.position :: o.stack
    | .loopEnd => o.stack.tail
    | _ => o.stack

end OpenBrackets

/-- The search for brackets without a partner. -/
structure UnmatchedScan extends OpenBrackets where
  /-- The closing brackets that found no open one, latest first. -/
  strays : List Nat := []

namespace UnmatchedScan

/-- Pass one instruction and note it if it closes nothing. -/
def next (s : UnmatchedScan) (i : Instruction) : UnmatchedScan where
  toOpenBrackets := s.toOpenBrackets.next i
  strays :=
    match i, s.stack with
    | .loopEnd, [] => s.position :: s.strays
    | _, _ => s.strays

end UnmatchedScan

/-- The search for partners. -/
structure PartnerScan extends OpenBrackets where
  /-- The partner found so far for each position of the program. -/
  partners : Array (Option Nat)

namespace PartnerScan

/-- Pass one instruction and join a closing bracket with the innermost open one. -/
def next (s : PartnerScan) (i : Instruction) : PartnerScan where
  toOpenBrackets := s.toOpenBrackets.next i
  partners :=
    match i, s.stack with
    | .loopEnd, start :: _ =>
      (s.partners.setIfInBounds start (some s.position)).setIfInBounds s.position (some start)
    | _, _ => s.partners

end PartnerScan

namespace Program

/-- The brackets open after the first `n` instructions. -/
def openBrackets (p : Program) (n : Nat) : OpenBrackets :=
  (p.toList.take n).foldl OpenBrackets.next {}

/-- Every bracket without a partner: first the closing ones from left to right, then the opening ones
from the innermost outwards. -/
def unmatched (p : Program) : List UnmatchedBracket :=
  let scan : UnmatchedScan := p.code.foldl UnmatchedScan.next {}
  scan.strays.reverse.map (⟨']', ·⟩) ++ scan.stack.map (⟨'[', ·⟩)

/-- For each position the position of the bracket it is matched with, if there is one. -/
def partners (p : Program) : Array (Option Nat) :=
  (p.code.foldl PartnerScan.next { partners := Array.replicate p.size none }).partners

end Program

end TapeLang
