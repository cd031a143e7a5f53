import TapeLang.Proofs.Feed.Failures
import TapeLang.Proofs.Machine.Calls

/-!
# The footprint of an instruction

What can be seen of an executed instruction, the same whoever serves its input:
it looks at the current cell at most, gives it another value at most, moves the
pointer by one at most and prints that cell at most (`Executed`). Every call that
counts an instruction leaves such a footprint (`Call.executed`).
-/

namespace TapeLang

namespace Instruction

/-- Whether the instruction looks at the current cell. -/
def usesCell : Instruction → Bool
  | left | right => false
  | _ => true

/-- What the instruction makes of the value of the current cell, if an input instruction reads the byte. -/
def change (byte : UInt8) : Instruction → UInt8 → UInt8
  | increment, value => value + 1
  | decrement, value => value - 1
  | input, _ => byte
  | _, value => value

def move : Instruction → Nat → Nat
  | left, pointer => pointer - 1
  | right, pointer => pointer + 1
  | _, pointer => pointer

end Instruction

namespace Machine

variable {m m' : Machine} {i : Instruction} {provided : Option UInt8} {call : Call}

/-- The byte that an input instruction reads if the call executes it. -/
def Call.byte (m : Machine) : Call → UInt8
  | step => m.readInput.1
  | stepFed feed => feed.next.1.byte?.getD 0

/-- What an executed instruction does to the cells, the pointer, the output and the input. -/
structure Executed (m : Machine) (byte : UInt8) (i : Instruction) (m' : Machine) : Prop where
  size_eq : m'.tape.size = if i.usesCell then max m.tape.size (m.pointer + 1) else m.tape.size
  get_eq : ∀ index, m'.tape.get index =
    if index = m.pointer then i.change byte m.cell else m.tape.get index
  pointer_eq : m'.pointer = i.move m.pointer
  printed_eq : m'.printed = if i = .output then m.cell :: m.printed else m.printed
  inputPosition_cases :
    m'.inputPosition = m.inputPosition ∨ m'.inputPosition = m.inputPosition + 1

/-! ### Cells -/

private theorem get_same (m : Machine) (index : Nat) :
    m.tape.get index = if index = m.pointer then m.cell else m.tape.get index := by
  split
  · next h => rw [h, cell]
  · rfl

private theorem get_touch (m : Machine) (index : Nat) :
    (m.tape.allocate m.pointer).get index =
      if index = m.pointer then m.cell else m.tape.get index := by
  rw [Tape.get_allocate]
  exact get_same m index

/-- The effect of an instruction is its footprint. -/
theorem Performs.executed {byte : UInt8} (h : m.Performs provided i m')
    (hbyte : i = .input → byte = provided.getD m.readInput.1) : m.Executed byte i m'.moveOn := by
  have hset := Tape.size_set m.tape m.pointer
  have htouch := Tape.size_allocate m.tape m.pointer
  cases h with
  | increment | decrement =>
    exact ⟨hset _, Tape.get_set m.tape m.pointer _, rfl, rfl, Or.inl rfl⟩
  | left | right => exact ⟨rfl, get_same m, rfl, rfl, Or.inl rfl⟩
  | enter | skip | again | leave => exact ⟨htouch, get_touch m, rfl, rfl, Or.inl rfl⟩
  | output => exact ⟨htouch, get_touch m, rfl, rfl, Or.inl rfl⟩
  | provided given =>
    have hvalue := hbyte rfl
    rw [given] at hvalue
    subst hvalue
    exact ⟨hset _, Tape.get_set m.tape m.pointer _, rfl, rfl, Or.inl rfl⟩
  | read own =>
    have hvalue := hbyte rfl
    rw [own] at hvalue
    subst hvalue
    unfold readInput
    split
    · exact ⟨hset _, Tape.get_set m.tape m.pointer _, rfl, rfl, Or.inr rfl⟩
    · exact ⟨hset _, Tape.get_set m.tape m.pointer _, rfl, rfl, Or.inl rfl⟩

/-- A byte that is received is stored like one that is read. -/
private theorem executed_receive (m : Machine) (value : UInt8) (requestsStop : Bool) :
    m.Executed value .input (m.receive value requestsStop) :=
  ⟨Tape.size_set m.tape m.pointer value, Tape.get_set m.tape m.pointer value, rfl, rfl, Or.inl rfl⟩

/-! ### Calls -/

private theorem StepsTo.footprint {byte : UInt8} {status : Status} (h : m.StepsTo none m' status)
    (hcount : m'.stepCount = m.stepCount + 1)
    (hbyte : m.current? = some .input → byte = m.readInput.1) :
    ∃ i, m.current? = some i ∧ m.Executed byte i m' := by
  cases h with
  | ended | spent => exact absurd hcount.symm (Nat.succ_ne_self _)
  | refused _ _ effect =>
    rw [effect.stepCount_eq] at hcount
    exact absurd hcount.symm (Nat.succ_ne_self _)
  | executed current _ effect =>
    refine ⟨_, current, effect.executed fun hinput ↦ hbyte ?_⟩
    rw [current, hinput]

/-- A call that counts an instruction leaves the footprint of the next one. -/
theorem Call.executed (h : (call.make m).1.stepCount = m.stepCount + 1) :
    ∃ i, m.current? = some i ∧ m.Executed (call.byte m) i (call.make m).1 := by
  cases call with
  | step => exact (stepWith_spec m none).footprint h fun _ ↦ rfl
  | stepFed feed =>
    have hspec := stepOnFeed_spec (m, feed)
    rw [make_stepFed] at h ⊢
    generalize (stepOnFeed (m, feed)).1 = s' at hspec h
    generalize (stepOnFeed (m, feed)).2 = answer at hspec
    cases hspec with
    | alone idle =>
      refine (stepWith_spec m none).footprint h fun current ↦ ?_
      rw [step_of_idle_input idle current] at h
      exact absurd h.symm (Nat.succ_ne_self _)
    | @served value requestsStop asks reply =>
      have hbyte : (stepFed feed).byte m = value := by
        rw [byte, reply]
        rfl
      rw [hbyte]
      exact ⟨.input, asks.1, executed_receive m value requestsStop⟩
    | unserved => exact absurd h.symm (Nat.succ_ne_self _)

end Machine

end TapeLang
