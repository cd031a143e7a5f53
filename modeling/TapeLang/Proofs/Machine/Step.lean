import TapeLang.Machine

/-!
# Steps as relations

What one step can do, said once. `Performs` lists the effects of the eight
instructions, `Refuses` the faults raised in place of an effect, and `StepsTo`
puts them behind the end of the program and the budget. Every step is one of
these (`stepWith_spec`, `stepFed_spec`) and the relations leave no choice
(`Performs.perform_eq`, `Refuses.perform_eq`), so later proofs go by cases on a
relation and never open a function. What the relations leave alone is stated in
`Performs.frame` and `Refuses.frame`.
-/

namespace TapeLang.Machine

variable {m m' : Machine} {provided : Option UInt8} {i : Instruction} {fault : Fault}
  {status : Status}

/-- The effect of an instruction that is executed, before the machine moves on. -/
inductive Performs (m : Machine) (provided : Option UInt8) : Instruction → Machine → Prop
  | increment : Performs m provided .increment (m.writeCell (m.cell + 1))
  | decrement : Performs m provided .decrement (m.writeCell (m.cell - 1))
  | left : Performs m provided .left { m with pointer := m.pointer - 1 }
  /-- There is room to the right. -/
  | right (room : m.pointer + 1 < m.limits.maxMemory) :
    Performs m provided .right { m with pointer := m.pointer + 1 }
  | enter (nonzero : m.cell ≠ 0) :
    Performs m provided .loopStart { m.touchCell with loopStack := m.pc :: m.loopStack }
  /-- The loop is skipped: the machine goes to its closing bracket. -/
  | skip {stop : Nat} (zero : m.cell = 0)
      (partner : m.program.partners.getD m.pc none = some stop) :
    Performs m provided .loopStart { m.touchCell with pc := stop }
  /-- The loop is repeated: the machine goes to its opening bracket. -/
  | again {start : Nat} {outer : List Nat} (nonzero : m.cell ≠ 0)
      (stack : m.loopStack = start :: outer) :
    Performs m provided .loopEnd { m.touchCell with pc := start }
  | leave {start : Nat} {outer : List Nat} (zero : m.cell = 0)
      (stack : m.loopStack = start :: outer) :
    Performs m provided .loopEnd { m.touchCell with loopStack := outer }
  | output : Performs m provided .output (m.touchCell.print m.cell)
  | provided {value : UInt8} (given : provided = some value) :
    Performs m provided .input (m.writeCell value)
  | read (own : provided = none) :
    Performs m provided .input (m.readInput.2.writeCell m.readInput.1)

/-- The fault of an instruction that is refused, with the machine it leaves. -/
inductive Refuses (m : Machine) : Instruction → Machine → Fault → Prop
  | noRoom (full : m.limits.maxMemory ≤ m.pointer + 1) :
    Refuses m .right m (.memoryLimit m.limits.maxMemory m.pc)
  | unclosed (zero : m.cell = 0) (alone : m.program.partners.getD m.pc none = none) :
    Refuses m .loopStart m.touchCell (.unmatchedBracket ⟨'[', m.pc⟩)
  | stray (empty : m.loopStack = []) :
    Refuses m .loopEnd m (.unmatchedBracket ⟨']', m.pc⟩)

/-- One step and its answer. -/
inductive StepsTo (m : Machine) (provided : Option UInt8) : Machine → Status → Prop
  | ended (current : m.current? = none) : StepsTo m provided m .finished
  | spent {i : Instruction} (current : m.current? = some i) (budget : m.outOfSteps = true) :
    StepsTo m provided m (.failed m.stepLimitFault)
  | refused {i : Instruction} {m' : Machine} {fault : Fault} (current : m.current? = some i)
      (budget : m.outOfSteps = false) (effect : m.Refuses i m' fault) :
    StepsTo m provided m' (.failed fault)
  | executed {i : Instruction} {m' : Machine} (current : m.current? = some i)
      (budget : m.outOfSteps = false) (effect : m.Performs provided i m') :
    StepsTo m provided m'.moveOn m'.moveOn.settle

@[simp] theorem heed_false (m : Machine) : m.heed false = m := by rw [heed, Bool.or_false]

@[simp] theorem heed_true (m : Machine) : m.heed true = m.stop := by
  rw [heed, Bool.or_true]
  rfl

theorem heed_heed (m : Machine) (a b : Bool) : (m.heed a).heed b = m.heed (a || b) :=
  congrArg (fun stopRequested ↦ { m with stopRequested }) (Bool.or_assoc m.stopRequested a b)

/-- No instruction is left exactly at the end of the program. -/
theorem current?_eq_none_iff : m.current? = none ↔ m.isFinished = true := by
  rw [isFinished, decide_eq_true_iff]
  simp [current?, Program.get?, Program.size]

@[simp] theorem cell_touchCell (m : Machine) : m.touchCell.cell = m.cell := by
  simp [cell, touchCell]

theorem partners_image (m : Machine) : m.image.partners = m.program.partners :=
  m.image.partners_eq

/-- Every instruction either has its effect or is refused. -/
theorem perform_spec (m : Machine) (provided : Option UInt8) (i : Instruction) :
    (∃ m', m.perform provided i = (m', none) ∧ m.Performs provided i m') ∨
      ∃ m' fault, m.perform provided i = (m', some fault) ∧ m.Refuses i m' fault := by
  cases i with
  | increment => exact Or.inl ⟨_, rfl, .increment⟩
  | decrement => exact Or.inl ⟨_, rfl, .decrement⟩
  | left => exact Or.inl ⟨_, rfl, .left⟩
  | right =>
    rw [perform, moveRight]
    split
    · next full => exact Or.inr ⟨_, _, rfl, .noRoom full⟩
    · next room => exact Or.inl ⟨_, rfl, .right (Nat.lt_of_not_le room)⟩
  | loopStart =>
    rw [perform, enterLoop]
    simp only [cell_touchCell]
    split
    · next nonzero => exact Or.inl ⟨_, rfl, .enter nonzero⟩
    · next zero =>
      have zero : m.cell = 0 := Classical.not_not.mp zero
      cases partner : m.program.partners.getD m.pc none with
      | none =>
        refine Or.inr ⟨_, _, ?_, .unclosed zero partner⟩
        rw [← partners_image] at partner
        simp only [touchCell, partner]
      | some stop =>
        refine Or.inl ⟨_, ?_, .skip zero partner⟩
        rw [← partners_image] at partner
        simp only [touchCell, partner]
  | loopEnd =>
    rw [perform, closeLoop]
    split
    · next empty => exact Or.inr ⟨_, _, rfl, .stray empty⟩
    · next start outer stack =>
      simp only [cell_touchCell]
      split
      · next nonzero => exact Or.inl ⟨_, rfl, .again nonzero stack⟩
      · next zero => exact Or.inl ⟨_, rfl, .leave (Classical.not_not.mp zero) stack⟩
  | output =>
    refine Or.inl ⟨_, ?_, .output⟩
    simp only [perform, cell_touchCell]
  | input =>
    cases provided with
    | none => exact Or.inl ⟨_, rfl, .read rfl⟩
    | some value => exact Or.inl ⟨_, rfl, .provided rfl⟩

/-- An effect determines what is performed. -/
theorem Performs.perform_eq (h : m.Performs provided i m') :
    m.perform provided i = (m', none) := by
  cases h with
  | increment | decrement | left => rfl
  | output => simp only [perform, cell_touchCell]
  | right room => simp only [perform, moveRight, Nat.not_le.mpr room, ↓reduceIte]
  | enter nonzero =>
    simp only [perform, enterLoop, cell_touchCell, ne_eq, nonzero, not_false_eq_true, ↓reduceIte]
    rfl
  | skip zero partner =>
    rw [← partners_image] at partner
    simp only [perform, enterLoop, cell_touchCell, ne_eq, zero, not_true_eq_false, ↓reduceIte]
    simp only [touchCell, partner]
  | again nonzero stack =>
    simp only [perform, closeLoop, stack, cell_touchCell, ne_eq, nonzero, not_false_eq_true,
      ↓reduceIte]
  | leave zero stack =>
    simp only [perform, closeLoop, stack, cell_touchCell, ne_eq, zero, not_true_eq_false,
      ↓reduceIte]
  | provided given => simp only [perform, given]
  | read own => simp only [perform, own]

/-- A refusal determines what is performed. -/
theorem Refuses.perform_eq (h : m.Refuses i m' fault) :
    m.perform provided i = (m', some fault) := by
  cases h with
  | noRoom full => simp only [perform, moveRight, full, ↓reduceIte]
  | unclosed zero alone =>
    rw [← partners_image] at alone
    simp only [perform, enterLoop, cell_touchCell, ne_eq, zero, not_true_eq_false, ↓reduceIte]
    simp only [touchCell, alone]
  | stray empty => simp only [perform, closeLoop, empty]

/-- An instruction that has its effect is executed, if the budget allows. -/
theorem Performs.stepWith_eq (h : m.Performs provided i m') (current : m.current? = some i)
    (budget : m.outOfSteps = false) : m.stepWith provided = (m'.moveOn, m'.moveOn.settle) := by
  unfold stepWith
  simp only [current, budget, h.perform_eq, Bool.false_eq_true, ↓reduceIte]

/-- An instruction that is refused makes the step fail, if the budget allows it. -/
theorem Refuses.stepWith_eq (h : m.Refuses i m' fault) (current : m.current? = some i)
    (budget : m.outOfSteps = false) (provided : Option UInt8) :
    m.stepWith provided = (m', .failed fault) := by
  unfold stepWith
  simp only [current, budget, h.perform_eq, Bool.false_eq_true, ↓reduceIte]

/-- At the end of the program a step does nothing. -/
theorem stepWith_of_end (provided : Option UInt8) (current : m.current? = none) :
    m.stepWith provided = (m, .finished) := by
  unfold stepWith
  rw [current]

theorem step_of_end (current : m.current? = none) : m.step = (m, .finished) :=
  stepWith_of_end none current

/-- Without budget a step fails and leaves the machine as it is. -/
theorem stepWith_of_spent (provided : Option UInt8) (current : m.current? = some i)
    (budget : m.outOfSteps = true) : m.stepWith provided = (m, .failed m.stepLimitFault) := by
  unfold stepWith
  simp only [current, budget, ↓reduceIte]

/-- With budget left the next instruction is executed or refused. -/
theorem stepWith_of_current (provided : Option UInt8) (current : m.current? = some i)
    (budget : m.outOfSteps = false) :
    (∃ m', m.Performs provided i m' ∧ m.stepWith provided = (m'.moveOn, m'.moveOn.settle)) ∨
      ∃ m' fault, m.Refuses i m' fault ∧ m.stepWith provided = (m', .failed fault) := by
  rcases perform_spec m provided i with ⟨m', -, effect⟩ | ⟨m', fault, -, effect⟩
  · exact Or.inl ⟨m', effect, effect.stepWith_eq current budget⟩
  · exact Or.inr ⟨m', fault, effect, effect.stepWith_eq current budget provided⟩

/-- A step does what `StepsTo` says. -/
theorem stepWith_spec (m : Machine) (provided : Option UInt8) :
    m.StepsTo provided (m.stepWith provided).1 (m.stepWith provided).2 := by
  cases current : m.current? with
  | none =>
    rw [stepWith_of_end provided current]
    exact .ended current
  | some i =>
    cases budget : m.outOfSteps with
    | true =>
      rw [stepWith_of_spent provided current budget]
      exact .spent current budget
    | false =>
      rcases stepWith_of_current provided current budget with ⟨m', effect, heq⟩ |
        ⟨m', fault, effect, heq⟩
      · rw [heq]
        exact .executed current budget effect
      · rw [heq]
        exact .refused current budget effect

/-- A step is one of the following kinds: the feed is not asked, or it gives no byte, or its byte is read. -/
theorem stepFed_spec (m : Machine) (feed : Feed) :
    (m.current? ≠ some .input ∧ m.stepFed feed = (m.step.1, feed, m.step.2)) ∨
      (m.current? = some .input ∧ m.outOfSteps = true ∧
        m.stepFed feed = (m, feed, .failed m.stepLimitFault)) ∨
      (∃ failure requestsStop, m.current? = some .input ∧ m.outOfSteps = false ∧
        feed.next.1 = .unavailable failure requestsStop ∧
        m.stepFed feed =
          (m.heed requestsStop, feed.next.2, .failed (.inputUnavailable m.pc failure))) ∨
      ∃ value requestsStop, m.current? = some .input ∧ m.outOfSteps = false ∧
        feed.next.1 = .byte value requestsStop ∧
        m.stepFed feed =
          (((m.heed requestsStop).stepWith (some value)).1, feed.next.2,
            ((m.heed requestsStop).stepWith (some value)).2) := by
  by_cases current : m.current? = some .input
  · cases budget : m.outOfSteps with
    | true =>
      refine Or.inr (Or.inl ⟨current, rfl, ?_⟩)
      simp only [stepFed, current, budget, ↓reduceIte]
    | false =>
      cases reply : feed.next with
      | mk answer behind =>
        cases answer with
        | unavailable failure requestsStop =>
          refine Or.inr (Or.inr (Or.inl ⟨failure, requestsStop, current, rfl, rfl, ?_⟩))
          simp only [stepFed, current, budget, reply, Bool.false_eq_true, ↓reduceIte]
        | byte value requestsStop =>
          refine Or.inr (Or.inr (Or.inr ⟨value, requestsStop, current, rfl, rfl, ?_⟩))
          simp only [stepFed, current, budget, reply, Bool.false_eq_true, ↓reduceIte]
  · refine Or.inl ⟨current, ?_⟩
    unfold stepFed
    split
    · next h => exact False.elim (current h)
    · rfl

/-! ### What a step leaves alone -/

/-- Reading moves the position in the input text at most. -/
theorem readInput_frame (m : Machine) :
    { m.readInput.2 with inputPosition := m.inputPosition } = m := by
  unfold readInput
  split <;> rfl

/-- The effect of an instruction is confined to the registers, the tape and the output. -/
theorem Performs.frame (h : m.Performs provided i m') :
    { m' with
      tape := m.tape
      pointer := m.pointer
      pc := m.pc
      loopStack := m.loopStack
      printed := m.printed
      inputPosition := m.inputPosition } = m := by
  cases h with
  | read own =>
    unfold readInput
    split <;> rfl
  | _ => rfl

/-- A refused instruction allocates at most. -/
theorem Refuses.frame (h : m.Refuses i m' fault) : { m' with tape := m.tape } = m := by
  cases h <;> rfl

theorem Performs.image_eq (h : m.Performs provided i m') : m'.image = m.image :=
  (congrArg image h.frame :)

theorem Performs.clock_eq (h : m.Performs provided i m') : m'.clock = m.clock :=
  (congrArg clock h.frame :)

theorem Performs.stopRequested_eq (h : m.Performs provided i m') :
    m'.stopRequested = m.stopRequested :=
  (congrArg stopRequested h.frame :)

/-- The machine counts an executed instruction when it moves on. -/
theorem Performs.stepCount_moveOn (h : m.Performs provided i m') :
    m'.moveOn.stepCount = m.stepCount + 1 :=
  congrArg (· + 1) (congrArg stepCount h.frame :)

theorem Refuses.image_eq (h : m.Refuses i m' fault) : m'.image = m.image :=
  (congrArg image h.frame :)

theorem Refuses.clock_eq (h : m.Refuses i m' fault) : m'.clock = m.clock :=
  (congrArg clock h.frame :)

theorem Refuses.stopRequested_eq (h : m.Refuses i m' fault) : m'.stopRequested = m.stopRequested :=
  (congrArg stopRequested h.frame :)

theorem Refuses.stepCount_eq (h : m.Refuses i m' fault) : m'.stepCount = m.stepCount :=
  (congrArg stepCount h.frame :)

/-- A step keeps the program, the limits and the tables. -/
theorem StepsTo.image_eq (h : m.StepsTo provided m' status) : m'.image = m.image := by
  cases h with
  | ended | spent => rfl
  | refused _ _ effect => exact effect.image_eq
  | executed _ _ effect => exact effect.image_eq

theorem StepsTo.program_eq (h : m.StepsTo provided m' status) : m'.program = m.program :=
  congrArg Image.program h.image_eq

theorem StepsTo.limits_eq (h : m.StepsTo provided m' status) : m'.limits = m.limits :=
  congrArg Image.limits h.image_eq

/-- A step is timed by the clock the machine was given. -/
theorem StepsTo.clock_eq (h : m.StepsTo provided m' status) : m'.clock = m.clock := by
  cases h with
  | ended | spent => rfl
  | refused _ _ effect => exact effect.clock_eq
  | executed _ _ effect => exact effect.clock_eq

/-- A step makes no request to stop and answers none. -/
theorem StepsTo.stopRequested_eq (h : m.StepsTo provided m' status) :
    m'.stopRequested = m.stopRequested := by
  cases h with
  | ended | spent => rfl
  | refused _ _ effect => exact effect.stopRequested_eq
  | executed _ _ effect => exact effect.stopRequested_eq

/-- A step is confined to the registers, the tape, the output and the count. -/
theorem StepsTo.frame (h : m.StepsTo provided m' status) :
    { m' with
      tape := m.tape
      pointer := m.pointer
      pc := m.pc
      loopStack := m.loopStack
      printed := m.printed
      inputPosition := m.inputPosition
      stepCount := m.stepCount } = m := by
  cases h with
  | ended | spent => rfl
  | refused _ _ effect => cases effect <;> rfl
  | executed _ _ effect => exact (congrArg ({ · with stepCount := m.stepCount }) effect.frame :)

end TapeLang.Machine
