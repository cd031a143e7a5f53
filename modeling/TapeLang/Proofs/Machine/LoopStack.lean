import TapeLang.Proofs.Machine.Reachable
import TapeLang.Proofs.Program.Matching

/-!
# The loop stack

A machine knows the brackets of its program three times over: an opening
bracket jumps by the table of partners, a closing one by the stack of loops, and
the program was searched for unmatched ones beforehand. Main statement:
`loopStack_agrees_with_scans`, on every reachable machine the three agree, whether the
program is balanced or not. The invariant behind it is `StackSound`: the loops
under way are the brackets open in front of the next instruction.
-/

namespace TapeLang.Machine

open Program (Pair)

variable {p : Program} {l : Limits} {m m' : Machine} {provided : Option UInt8} {i : Instruction}
  {fault : Fault} {status : Status}

/-- The loops under way are the brackets open in front of the next instruction, and no closing
bracket without a partner has been passed. -/
structure StackSound (m : Machine) : Prop where
  loopStack_eq : m.loopStack = m.program.openAt m.pc
  pc_le : ∀ j, m.program.isStray j → m.pc ≤ j

/-! ### One step -/

private theorem pc_lt_stray {j : Nat} (h : m.StackSound) (hj : m.program.isStray j)
    (hne : m.pc ≠ j) : m.pc + 1 ≤ j :=
  Nat.lt_of_le_of_ne (h.pc_le j hj) hne

private theorem get?_stray {j : Nat} (hj : m.program.isStray j) :
    m.program.get? j = some .loopEnd ∧ m.program.openAt j = [] := by
  simpa [Program.isStray] using hj

-- Behind an instruction that is no bracket, or that leaves the loop it ends.
private theorem StackSound.next (h : m.StackSound) (hm : m'.program = m.program)
    (hpc : m'.pc = m.pc + 1) (hstack : m'.loopStack = m.program.openAt (m.pc + 1))
    (hstray : ¬ m.program.isStray m.pc) : m'.StackSound := by
  refine ⟨by rw [hm, hpc, hstack], ?_⟩
  intro j hj
  rw [hm] at hj
  rw [hpc]
  exact pc_lt_stray h hj fun he ↦ hstray (he ▸ hj)

private theorem not_isStray_of_ne (current : m.current? = some i) (hi : i ≠ .loopEnd) :
    ¬ m.program.isStray m.pc := by
  intro hstray
  have hget := (get?_stray hstray).1
  rw [current?] at current
  rw [current] at hget
  exact hi (Option.some.inj hget)

private theorem stackSound_of_basic (h : m.StackSound) (current : m.current? = some i)
    (hs : i ≠ .loopStart) (he : i ≠ .loopEnd) (hm : m'.program = m.program)
    (hpc : m'.pc = m.pc + 1) (hstack : m'.loopStack = m.loopStack) : m'.StackSound := by
  apply h.next hm hpc
  · rw [hstack, h.loopStack_eq, Program.openAt_succ_of_ne current hs he]
  · exact not_isStray_of_ne current he

-- A skipped loop ends in front of every stray bracket that its start was in front of: a bracket
-- inside the loop has the loop's start open.
private theorem stop_lt_stray {j stop : Nat} (h : m.StackSound) (hpair : m.program.Pair m.pc stop)
    (hj : m.program.isStray j) : stop < j := by
  have hle := h.pc_le j hj
  obtain ⟨hget, hnil⟩ := get?_stray hj
  apply Nat.lt_of_not_le
  intro hjs
  rcases Nat.eq_or_lt_of_le hle with heq | hlt
  · have hstart := hpair.get?_start
    rw [heq, hget] at hstart
    contradiction
  · have hmem := hpair.mem_openAt hlt hjs
    simp [hnil] at hmem

/-- An executed instruction keeps the invariant. -/
theorem StackSound.performs (h : m.StackSound) (current : m.current? = some i)
    (effect : m.Performs provided i m') : m'.moveOn.StackSound := by
  cases effect with
  | increment | decrement | left | right | output | provided =>
    exact stackSound_of_basic h current Instruction.noConfusion Instruction.noConfusion rfl rfl rfl
  | read own =>
    have hread : m.readInput.2.program = m.program ∧ m.readInput.2.pc = m.pc ∧
        m.readInput.2.loopStack = m.loopStack := by
      unfold readInput
      split <;> exact ⟨rfl, rfl, rfl⟩
    obtain ⟨hm, hpc, hstack⟩ := hread
    exact stackSound_of_basic h current Instruction.noConfusion Instruction.noConfusion hm
      (congrArg (· + 1) hpc) hstack
  | enter nonzero =>
    refine h.next rfl rfl ?_ (not_isStray_of_ne current Instruction.noConfusion)
    rw [Program.openAt_succ_loopStart current, ← h.loopStack_eq]
    rfl
  | skip zero partner =>
    rename_i stop
    have hpair : m.program.Pair m.pc stop := (Program.partners_loopStart current).mp partner
    refine ⟨?_, fun j hj ↦ stop_lt_stray h hpair hj⟩
    exact h.loopStack_eq.trans hpair.openAt_succ.symm
  | again nonzero stack =>
    rename_i start outer
    have hopen : m.program.openAt m.pc = start :: outer := h.loopStack_eq.symm.trans stack
    obtain ⟨hstart, hlt, hbelow⟩ := Program.openAt_eq_cons hopen
    refine ⟨?_, fun j hj ↦ Nat.lt_of_lt_of_le hlt (h.pc_le j hj)⟩
    change m.loopStack = m.program.openAt (start + 1)
    rw [Program.openAt_succ_loopStart hstart, hbelow, stack]
  | leave zero stack =>
    rename_i start outer
    have hopen : m.program.openAt m.pc = start :: outer := h.loopStack_eq.symm.trans stack
    refine h.next rfl rfl ?_ ?_
    · rw [Program.openAt_succ_loopEnd current, hopen]
      rfl
    · intro hstray
      simp [(get?_stray hstray).2] at hopen

theorem StackSound.congr (h : m.StackSound) (hm : m'.image = m.image)
    (hpc : m'.pc = m.pc) (hstack : m'.loopStack = m.loopStack) : m'.StackSound := by
  have hprogram : m'.program = m.program := congrArg Image.program hm
  refine ⟨?_, ?_⟩
  · rw [hstack, hprogram, hpc, h.loopStack_eq]
  · rw [hprogram, hpc]
    exact h.pc_le

/-- A step keeps the invariant, also a step that fails. -/
theorem StackSound.stepsTo (h : m.StackSound) (hstep : m.StepsTo provided m' status) :
    m'.StackSound := by
  cases hstep with
  | ended | spent => exact h
  | refused current budget effect =>
    have hframe := effect.frame
    exact h.congr effect.image_eq (congrArg pc hframe :) (congrArg loopStack hframe :)
  | executed current budget effect => exact h.performs current effect

/-! ### All histories -/

/-- The invariant holds in front of the first instruction. -/
theorem stackSound_of_start (hpc : m.pc = 0) (hstack : m.loopStack = []) : m.StackSound := by
  refine ⟨?_, ?_⟩
  · rw [hpc, hstack]
    rfl
  · rw [hpc]
    exact fun j _ ↦ Nat.zero_le j

/-- The invariant holds on every reachable machine. -/
theorem Reachable.stackSound (h : Reachable p l m) : m.StackSound := by
  refine preserves (P := StackSound) ?_ ?_ ?_ ?_ ?_ ?_ ?_ ?_ h
  · exact fun _ ↦ stackSound_of_start rfl rfl
  · exact fun m _ hm ↦ hm.congr rfl rfl rfl
  · exact fun m provided _ hm ↦ hm.stepsTo (stepWith_spec m provided)
  · exact fun m hm ↦ hm.congr rfl rfl rfl
  · exact fun m hm ↦ hm.congr rfl rfl rfl
  · exact fun m _ ↦ stackSound_of_start rfl rfl
  · exact fun m _ ↦ stackSound_of_start rfl rfl
  · exact fun m status hm ↦ hm.congr rfl rfl rfl

/-! ### Faults and jumps at brackets -/

/-- The answer behind an executed instruction is no fault of a bracket. -/
theorem settle_ne_unmatchedBracket (m : Machine) (b : UnmatchedBracket) :
    m.settle ≠ .failed (.unmatchedBracket b) := by
  unfold settle
  split
  · simp
  split
  · simp
  split <;> simp

/-- A step fails at a closing bracket exactly when the bracket was reported. -/
theorem StackSound.fault_loopEnd_iff (h : m.StackSound) (current : m.current? = some .loopEnd)
    (budget : m.outOfSteps = false) (b : UnmatchedBracket) :
    (m.stepWith provided).2 = .failed (.unmatchedBracket b) ↔
      b = ⟨']', m.pc⟩ ∧ b ∈ m.program.unmatched := by
  have hmem : ⟨']', m.pc⟩ ∈ m.program.unmatched ↔ m.loopStack = [] := by
    rw [Program.stray_mem_unmatched_iff, h.loopStack_eq]
    exact and_iff_right current
  rcases stepWith_of_current provided current budget with ⟨m', effect, heq⟩ |
    ⟨m', fault, effect, heq⟩
  · rw [heq]
    have hstack : m.loopStack ≠ [] := by cases effect <;> simp [*]
    constructor
    · exact fun hfault ↦ False.elim (settle_ne_unmatchedBracket _ _ hfault)
    · rintro ⟨rfl, hb⟩
      exact False.elim (hstack (hmem.mp hb))
  · rw [heq]
    cases effect with
    | stray empty =>
      simp only [Status.failed.injEq, Fault.unmatchedBracket.injEq]
      constructor
      · rintro rfl
        exact ⟨rfl, hmem.mpr empty⟩
      · exact fun hb ↦ hb.1.symm

/-- A step fails at an opening bracket exactly when the bracket was reported and the loop would
be skipped. -/
theorem fault_loopStart_iff (current : m.current? = some .loopStart)
    (budget : m.outOfSteps = false) (b : UnmatchedBracket) :
    (m.stepWith provided).2 = .failed (.unmatchedBracket b) ↔
      b = ⟨'[', m.pc⟩ ∧ b ∈ m.program.unmatched ∧ m.cell = 0 := by
  have hmem := Program.unclosed_mem_unmatched_iff_partner current
  rcases stepWith_of_current provided current budget with ⟨m', effect, heq⟩ |
    ⟨m', fault, effect, heq⟩
  · rw [heq]
    constructor
    · exact fun hfault ↦ False.elim (settle_ne_unmatchedBracket _ _ hfault)
    · rintro ⟨rfl, hb, hzero⟩
      cases effect with
      | enter nonzero => exact False.elim (nonzero hzero)
      | skip _ partner =>
        have := (hmem.mp hb).symm.trans partner
        contradiction
  · rw [heq]
    cases effect with
    | unclosed zero alone =>
      simp only [Status.failed.injEq, Fault.unmatchedBracket.injEq]
      constructor
      · rintro rfl
        exact ⟨rfl, hmem.mpr alone, zero⟩
      · exact fun hb ↦ hb.1.symm

/-- A bracket that a step fails at was reported. -/
theorem StackSound.mem_unmatched (h : m.StackSound) {b : UnmatchedBracket}
    (hfault : (m.stepWith provided).2 = .failed (.unmatchedBracket b)) :
    b ∈ m.program.unmatched := by
  have hspec := stepWith_spec m provided
  rw [hfault] at hspec
  generalize (m.stepWith provided).1 = m' at hspec
  generalize hstatus : Status.failed (.unmatchedBracket b) = status at hspec
  cases hspec with
  | ended => simp at hstatus
  | spent => simp [stepLimitFault] at hstatus
  | refused current budget effect =>
    cases effect with
    | noRoom => simp at hstatus
    | unclosed => exact ((fault_loopStart_iff current budget b).mp hfault).2.1
    | stray => exact ((h.fault_loopEnd_iff current budget b).mp hfault).2
  | executed => exact False.elim (settle_ne_unmatchedBracket _ _ hstatus.symm)

/-- A closing bracket that was not reported leads behind its partner, or behind itself if the loop
is left. -/
theorem StackSound.jump_loopEnd (h : m.StackSound) (current : m.current? = some .loopEnd)
    (budget : m.outOfSteps = false) (hmatched : ⟨']', m.pc⟩ ∉ m.program.unmatched) :
    ∃ start, m.program.partners.getD m.pc none = some start ∧
      m.program.get? start = some .loopStart ∧
      (m.stepWith provided).1.pc = if m.cell = 0 then m.pc + 1 else start + 1 := by
  obtain ⟨start, outer, stack⟩ : ∃ start outer, m.loopStack = start :: outer := by
    cases hstack : m.loopStack with
    | nil =>
      rw [Program.stray_mem_unmatched_iff, ← h.loopStack_eq] at hmatched
      exact False.elim (hmatched ⟨current, hstack⟩)
    | cons start outer => exact ⟨start, outer, rfl⟩
  have hpair : m.program.Pair start m.pc := ⟨current, outer, h.loopStack_eq.symm.trans stack⟩
  refine ⟨start, (Program.partners_loopEnd current).mpr hpair, hpair.get?_start, ?_⟩
  rcases stepWith_of_current provided current budget with ⟨m', effect, heq⟩ |
    ⟨m', fault, effect, heq⟩
  · rw [heq]
    cases effect with
    | again nonzero stack' =>
      obtain ⟨rfl, -⟩ := List.cons.inj (stack.symm.trans stack')
      rw [if_neg nonzero]
      rfl
    | leave zero =>
      rw [if_pos zero]
      rfl
  · cases effect with
    | stray empty => simp [stack] at empty

/-! ### The three agree -/

/-- A step or a run ends with the fault of a bracket. -/
inductive Raises (m : Machine) (b : UnmatchedBracket) : Prop
  | step (fault : m.step.2 = .failed (.unmatchedBracket b))
  | stepFed (feed : Feed) (fault : (m.stepFed feed).2.2 = .failed (.unmatchedBracket b))
  | run (fault : m.run.2 = .error (.unmatchedBracket b))
  | runSliced (fault : m.runSliced.2 = .error (.unmatchedBracket b))
  | runFed (feed : Feed) (fault : (m.runFed feed).2.2 = .error (.unmatchedBracket b))

private theorem mem_unmatched_of_step (h : Reachable p l m) {b : UnmatchedBracket}
    (hfault : m.step.2 = .failed (.unmatchedBracket b)) : b ∈ p.unmatched :=
  h.program_eq ▸ h.stackSound.mem_unmatched hfault

private theorem mem_unmatched_of_stepFed (h : Reachable p l m) {feed : Feed}
    {b : UnmatchedBracket} (hfault : (m.stepFed feed).2.2 = .failed (.unmatchedBracket b)) :
    b ∈ p.unmatched := by
  rcases stepFed_spec m feed with ⟨-, heq⟩ | ⟨-, -, heq⟩ | ⟨_, _, -, -, -, heq⟩ |
    ⟨value, requestsStop, -, -, -, heq⟩
  · rw [heq] at hfault
    exact mem_unmatched_of_step h hfault
  · simp [heq, stepLimitFault] at hfault
  · simp [heq] at hfault
  · rw [heq] at hfault
    have hasked : Reachable p l (m.heed requestsStop) := h.heed requestsStop
    exact hasked.program_eq ▸ hasked.stackSound.mem_unmatched hfault

/-- The fault of a bracket is one of those reported. -/
theorem Reachable.mem_unmatched_of_raises (h : Reachable p l m) {b : UnmatchedBracket}
    (hraises : m.Raises b) : b ∈ p.unmatched := by
  cases hraises with
  | step hfault => exact mem_unmatched_of_step h hfault
  | stepFed feed hfault => exact mem_unmatched_of_stepFed h hfault
  | run hfault =>
    obtain ⟨m', hm', hstep⟩ := h.exists_step_of_run hfault
    exact mem_unmatched_of_step hm' hstep
  | runSliced hfault =>
    obtain ⟨m', hm', hstep⟩ := h.exists_step_of_runSliced hfault
    exact mem_unmatched_of_step hm' hstep
  | runFed feed hfault =>
    obtain ⟨m', feed', hm', hstep⟩ := h.exists_stepFed_of_runFed hfault
    exact mem_unmatched_of_stepFed hm' hstep

/-- The loop stack, the table of partners and the report on unmatched brackets tell the same about
the brackets of a program. -/
structure BracketsAgree (p : Program) (m : Machine) : Prop where
  /-- The loops under way are the brackets that the search for unmatched ones holds open behind the
  instructions in front of the next one. -/
  loopStack_eq : m.loopStack = (p.unmatchedScan m.pc).stack
  /-- No closing bracket without a partner has been passed. -/
  pc_le : ∀ j, ⟨']', j⟩ ∈ p.unmatched → m.pc ≤ j
  /-- At a bracket a step on a feed is the step of the machine alone. -/
  stepFed_eq : m.current? = some .loopStart ∨ m.current? = some .loopEnd →
    ∀ feed, m.stepFed feed = (m.step.1, feed, m.step.2)
  /-- A closing bracket fails exactly if it was reported. -/
  loopEnd_fails : m.outOfSteps = false → m.current? = some .loopEnd → ∀ b,
    m.step.2 = .failed (.unmatchedBracket b) ↔ b = ⟨']', m.pc⟩ ∧ b ∈ p.unmatched
  /-- Otherwise it has an opening bracket for a partner, and a jump leads just behind that. -/
  loopEnd_jumps : m.outOfSteps = false → m.current? = some .loopEnd →
    ⟨']', m.pc⟩ ∉ p.unmatched → ∃ start, p.partners.getD m.pc none = some start ∧
      p.get? start = some .loopStart ∧
      m.step.1.pc = if m.cell = 0 then m.pc + 1 else start + 1
  /-- An opening bracket fails exactly if it was reported and its loop is not entered. -/
  loopStart_fails : m.outOfSteps = false → m.current? = some .loopStart → ∀ b,
    m.step.2 = .failed (.unmatchedBracket b) ↔
      b = ⟨'[', m.pc⟩ ∧ b ∈ p.unmatched ∧ m.cell = 0
  /-- Every bracket that a step or a run fails at was reported. -/
  reported : ∀ b, m.Raises b → b ∈ p.unmatched
  /-- No bracket of a balanced program fails. -/
  balanced : p.unmatched = [] → ∀ b, ¬ m.Raises b

/-- On every reachable machine, of a balanced program or any other, the loop stack agrees with the
scans of the program. -/
theorem loopStack_agrees_with_scans (h : Reachable p l m) : BracketsAgree p m := by
  have hsound := h.stackSound
  obtain rfl := h.program_eq
  constructor
  · rw [Program.stack_unmatchedScan, hsound.loopStack_eq]
  · intro j hj
    apply hsound.pc_le
    simpa [Program.isStray] using Program.stray_mem_unmatched_iff.mp hj
  · intro hbracket feed
    rcases stepFed_spec m feed with ⟨-, heq⟩ | ⟨hi, -⟩ | ⟨_, _, hi, -⟩ | ⟨_, _, hi, -⟩
    · exact heq
    all_goals simp [hi] at hbracket
  · exact fun budget current b ↦ hsound.fault_loopEnd_iff current budget b
  · exact fun budget current ↦ hsound.jump_loopEnd current budget
  · exact fun budget current b ↦ fault_loopStart_iff current budget b
  · exact fun b ↦ h.mem_unmatched_of_raises
  · intro hbalanced b hraises
    have hmem := h.mem_unmatched_of_raises hraises
    simp [hbalanced] at hmem

/-- A program with stray brackets of both kinds, behind a run that fails at one of them. -/
theorem loopStack_agrees_behind_a_stray :
    let p := Program.ofList [.increment, .loopStart, .decrement, .loopEnd, .loopEnd, .loopStart]
    let m := (Machine.load p { maxSteps := 9 }).run.1
    (Reachable p { maxSteps := 9 } m ∧ m.pc = 4 ∧ p.unmatched = [⟨']', 4⟩, ⟨'[', 5⟩]) ∧
      BracketsAgree p m :=
  ⟨⟨(Reachable.load .standard).run, by decide, by decide⟩,
    loopStack_agrees_with_scans (Reachable.load .standard).run⟩

end TapeLang.Machine
