import TapeLang.Proofs.Machine.Feeding

/-!
# Machines under another image

An instruction that reads no input text does the same to a machine of the same
program under other limits, at any position of any input text, unless a limit
refuses it (`step_transfer`). Only two faults name a limit that refuses: those of
a machine that is held up (`HeldUp`). If the limits differ in the input text at
most, the steps are the same altogether (`step_transfer_of_agrees`).
-/

namespace TapeLang

/-- The second limits allow at least what the first ones allow, in the same time. -/
structure Limits.Narrows (l l' : Limits) : Prop where
  timeout_eq : l'.timeout = l.timeout
  maxSteps_le : l.maxSteps ≤ l'.maxSteps
  maxMemory_le : l.maxMemory ≤ l'.maxMemory

/-- The limits differ in their input text at most. -/
structure Limits.Agrees (l l' : Limits) : Prop where
  timeout_eq : l'.timeout = l.timeout
  maxSteps_eq : l'.maxSteps = l.maxSteps
  maxMemory_eq : l'.maxMemory = l.maxMemory

/-- Limits that agree allow as much as each other. -/
theorem Limits.Agrees.narrows {l l' : Limits} (h : l.Agrees l') : l.Narrows l' :=
  ⟨h.timeout_eq, Nat.le_of_eq h.maxSteps_eq.symm, Nat.le_of_eq h.maxMemory_eq.symm⟩

def Image.of (program : Program) (limits : Limits) : Image := (Machine.load program limits).image

namespace Machine

variable {m m' : Machine} {image : Image} {i : Instruction} {fault : Fault}

/-- The same state of execution under another image, at a position of its input text. -/
def transfer (m : Machine) (image : Image) (position : Nat) : Machine :=
  { m with image, inputPosition := position }

/-- The next instruction is refused because it would exceed a limit. -/
inductive HeldUp (m : Machine) : Fault → Prop
  | spent (pending : m.current? ≠ none) (budget : m.outOfSteps = true) : HeldUp m m.stepLimitFault
  | noRoom (current : m.current? = some .right) (budget : m.outOfSteps = false)
      (full : m.limits.maxMemory ≤ m.pointer + 1) :
    HeldUp m (.memoryLimit m.limits.maxMemory m.pc)

/-- A machine that is held up stays as it is. -/
theorem HeldUp.step_eq (h : m.HeldUp fault) : m.step = (m, .failed fault) := by
  cases h with
  | spent pending budget =>
    obtain ⟨i, current⟩ := Option.ne_none_iff_exists'.mp pending
    exact stepWith_of_spent none current budget
  | noRoom current budget full =>
    rcases stepWith_of_current none current budget with ⟨m', effect, -⟩ | ⟨m', fault, effect, heq⟩
    · cases effect with
      | right room => exact absurd full (Nat.not_le.mpr room)
    · cases effect with
      | noRoom => exact heq

/-! ### One instruction -/

/-- An effect that reads no input text does not depend on the image, as long as there is room. -/
theorem Performs.transfer (h : m.Performs none i m') (hi : i ≠ .input)
    (hprogram : image.program = m.program)
    (hmemory : m.limits.maxMemory ≤ image.limits.maxMemory) (n : Nat) :
    (m.transfer image n).Performs none i (m'.transfer image n) := by
  have hpartners : (m.transfer image n).program.partners = m.program.partners :=
    congrArg Program.partners hprogram
  cases h with
  | increment => exact .increment
  | decrement => exact .decrement
  | left => exact .left
  | right room => exact .right (Nat.lt_of_lt_of_le room hmemory)
  | enter nonzero => exact .enter nonzero
  | skip zero partner =>
    rw [← hpartners] at partner
    exact .skip zero partner
  | again nonzero stack => exact .again nonzero stack
  | leave zero stack => exact .leave zero stack
  | output => exact .output
  | provided | read => exact absurd rfl hi

/-- A refusal that is no matter of room does not depend on the image. -/
theorem Refuses.transfer (h : m.Refuses i m' fault) (hi : i ≠ .right)
    (hprogram : image.program = m.program) (n : Nat) :
    (m.transfer image n).Refuses i (m'.transfer image n) fault := by
  have hpartners : (m.transfer image n).program.partners = m.program.partners :=
    congrArg Program.partners hprogram
  cases h with
  | noRoom => exact absurd rfl hi
  | unclosed zero alone =>
    rw [← hpartners] at alone
    exact .unclosed zero alone
  | stray empty => exact .stray empty

/-- The answer behind an executed instruction depends on the program and on the time budget, and the time on
the clock of the machine. -/
theorem settle_transfer (hprogram : image.program = m.program)
    (htimeout : image.limits.timeout = m.limits.timeout) (n : Nat) :
    (m.transfer image n).settle = m.settle := by
  have hend : (m.transfer image n).isFinished = m.isFinished :=
    congrArg (fun p : Program ↦ decide (p.size ≤ m.pc)) hprogram
  have hclock : (m.transfer image n).outOfTime = m.outOfTime :=
    congrArg (fun timeout ↦ m.clockRunning && m.clock.exceeds timeout m.stepCount) htimeout
  have hlimit : (m.transfer image n).limits.timeout = m.limits.timeout := htimeout
  unfold settle
  rw [hend, hclock, hlimit]
  rfl

/-! ### One step -/

theorem current?_transfer (hprogram : image.program = m.program) (n : Nat) :
    (m.transfer image n).current? = m.current? :=
  congrArg (fun p : Program ↦ p.get? m.pc) hprogram

/-- A step that reads no input is the same under another image that allows as much, unless a limit refuses it. -/
theorem step_transfer (idle : ¬ m.Asks) (hprogram : image.program = m.program)
    (narrow : m.limits.Narrows image.limits) (n : Nat) :
    (m.transfer image n).step = (m.step.1.transfer image n, m.step.2) ∨
      ∃ fault, m.HeldUp fault := by
  have hcurrent := current?_transfer hprogram n
  cases current : m.current? with
  | none =>
    rw [step_of_end current, step_of_end (hcurrent.trans current)]
    exact Or.inl rfl
  | some i =>
    cases budget : m.outOfSteps with
    | true =>
      have pending : m.current? ≠ none := by simp [current]
      exact Or.inr ⟨_, .spent pending budget⟩
    | false =>
      have hi : i ≠ .input := by
        rintro rfl
        exact idle (asks_iff.mpr ⟨current, budget⟩)
      have hbudget : (m.transfer image n).outOfSteps = false := by
        have hleft : m.stepCount < m.limits.maxSteps := by simpa [outOfSteps] using budget
        exact decide_eq_false (Nat.not_le.mpr (Nat.lt_of_lt_of_le hleft narrow.maxSteps_le))
      rw [current] at hcurrent
      rcases stepWith_of_current none current budget with ⟨m', effect, heq⟩ |
        ⟨m', fault, effect, heq⟩
      · have hthere := (effect.transfer hi hprogram narrow.maxMemory_le n).stepWith_eq hcurrent
          hbudget
        have hsettle : (m'.transfer image n).moveOn.settle = m'.moveOn.settle :=
          settle_transfer (m := m'.moveOn)
            (hprogram.trans (congrArg Image.program effect.image_eq).symm)
            (narrow.timeout_eq.trans (congrArg (·.limits.timeout) effect.image_eq).symm) n
        rw [step, step, heq, hthere]
        exact Or.inl (Prod.ext rfl hsettle)
      · by_cases hright : i = .right
        · subst hright
          cases effect with
          | noRoom full => exact Or.inr ⟨_, .noRoom current budget full⟩
        · have hthere := (effect.transfer hright hprogram n).stepWith_eq hcurrent hbudget none
          rw [step, step, heq, hthere]
          exact Or.inl rfl

/-- A machine that is held up is held up in the same way under limits that agree. -/
private theorem HeldUp.transfer (h : m.HeldUp fault) (hprogram : image.program = m.program)
    (agrees : m.limits.Agrees image.limits) (n : Nat) :
    (m.transfer image n).HeldUp fault := by
  have hcurrent := current?_transfer hprogram n
  have hsteps : (m.transfer image n).limits.maxSteps = m.limits.maxSteps := agrees.maxSteps_eq
  have hmemory : (m.transfer image n).limits.maxMemory = m.limits.maxMemory := agrees.maxMemory_eq
  have hbudget : (m.transfer image n).outOfSteps = m.outOfSteps := by
    rw [outOfSteps, outOfSteps, hsteps]
    rfl
  cases h with
  | spent pending budget =>
    have hfault : m.stepLimitFault = (m.transfer image n).stepLimitFault :=
      congrArg Fault.stepLimit hsteps.symm
    rw [hfault]
    exact .spent (by rwa [hcurrent]) (hbudget.trans budget)
  | noRoom current budget full =>
    rw [← hmemory]
    rw [← hmemory] at full
    exact .noRoom (hcurrent.trans current) (hbudget.trans budget) full

/-- A step that reads no input is the same under every image of the program whose limits agree. -/
theorem step_transfer_of_agrees (idle : ¬ m.Asks) (hprogram : image.program = m.program)
    (agrees : m.limits.Agrees image.limits) (n : Nat) :
    (m.transfer image n).step = (m.step.1.transfer image n, m.step.2) := by
  rcases step_transfer idle hprogram agrees.narrows n with hsame | ⟨fault, hheld⟩
  · exact hsame
  · rw [hheld.step_eq, (hheld.transfer hprogram agrees n).step_eq]

end Machine

end TapeLang
