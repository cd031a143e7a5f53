import TapeLang.Proofs.Machine.Course
import TapeLang.Proofs.Machine.LoopStack
import TapeLang.Proofs.Session.Reachable

/-!
# Bounds

What the limits bound. The pointer and the allocated cells stay within the
allowed cells, of which there is always one, and the count of instructions
within the budget; the output is no longer than the count. The registers stay
inside what they point into. These bounds hold together of every machine that
is reachable (`Reachable.bounds`), so no sum that a step makes leaves the range
of the limits, no partner is looked up outside the table, and every run ends.

Main statement: `resources_stay_within_limits`.
-/

namespace TapeLang

namespace Machine

variable {p : Program} {l : Limits} {m m' : Machine} {provided : Option UInt8} {i : Instruction}
  {fault : Fault} {status : Status}

/-- The bounds that a program and its limits set to a machine. -/
structure Bounds (p : Program) (l : Limits) (m : Machine) : Prop where
  pc_le : m.pc ≤ p.size
  pointer_lt : m.pointer < max 1 l.maxMemory
  cells_le : m.tape.size ≤ max 1 l.maxMemory
  stepCount_le : m.stepCount ≤ l.maxSteps
  inputPosition_le : m.inputPosition ≤ l.userInput.length
  output_le : m.outputText.length ≤ m.stepCount

theorem length_outputText (m : Machine) : m.outputText.length = m.printed.length := by
  rw [outputText, Latin1.length_decode, output, List.length_reverse]

/-- There is one byte of input for each character of the input text. -/
theorem size_input (m : Machine) : m.image.input.size = m.limits.userInput.length := by
  rw [m.image.input_eq, List.size_toArray, Limits.inputBytes, Latin1.length_encode]
  rfl

/-- A machine is in front of an instruction exactly if it is inside its program. -/
theorem pc_lt (current : m.current? = some i) : m.pc < m.program.size :=
  Program.lt_size_of_get? current

/-! ### One step -/

private theorem Bounds.size_allocate (h : Bounds p l m) :
    (m.tape.allocate m.pointer).size ≤ max 1 l.maxMemory := by
  rw [Tape.size_allocate]
  exact Nat.max_le.mpr ⟨h.cells_le, h.pointer_lt⟩

private theorem Bounds.size_set (h : Bounds p l m) (value : UInt8) :
    (m.tape.set m.pointer value).size ≤ max 1 l.maxMemory := by
  rw [Tape.size_set]
  exact Nat.max_le.mpr ⟨h.cells_le, h.pointer_lt⟩

/-- An executed instruction goes to a position inside the program. -/
theorem pc_performs (sound : m.StackSound) (current : m.current? = some i)
    (effect : m.Performs provided i m') : m'.pc < m.program.size := by
  have hpc := pc_lt current
  cases effect with
  | increment | decrement | left | right | enter | leave | output | provided => exact hpc
  | read =>
    have hread : m.readInput.2.pc = m.pc := (congrArg pc m.readInput_frame :)
    rwa [← hread] at hpc
  | skip zero partner =>
    exact Program.lt_size_of_get? ((Program.partners_loopStart current).mp partner).1
  | again nonzero stack =>
    rename_i start outer
    have hopen : m.program.openAt m.pc = start :: outer := sound.loopStack_eq.symm.trans stack
    exact Nat.lt_trans (Program.openAt_eq_cons hopen).2.1 hpc

private theorem inputPosition_readInput (h : m.inputPosition ≤ m.limits.userInput.length) :
    m.readInput.2.inputPosition ≤ m.limits.userInput.length := by
  unfold readInput
  split
  · next value hvalue =>
    rw [← size_input]
    exact Nat.succ_le_of_lt (Array.getElem?_eq_some_iff.mp hvalue).1
  · exact h

/-- An executed instruction keeps the bounds. -/
theorem Bounds.performs (h : Bounds m.program m.limits m) (sound : m.StackSound)
    (current : m.current? = some i) (budget : m.outOfSteps = false)
    (effect : m.Performs provided i m') : Bounds m.program m.limits m'.moveOn := by
  have hpc := pc_performs sound current effect
  have hcount := effect.stepCount_moveOn
  have hbudget : m.stepCount < m.limits.maxSteps := by simpa [outOfSteps] using budget
  have houtput := h.output_le
  rw [length_outputText] at houtput
  suffices hrest : m'.pointer < max 1 m.limits.maxMemory ∧
      m'.tape.size ≤ max 1 m.limits.maxMemory ∧
      m'.inputPosition ≤ m.limits.userInput.length ∧
      m'.printed.length ≤ m.printed.length + 1 by
    obtain ⟨hpointer, hcells, hinput, hprinted⟩ := hrest
    refine ⟨hpc, hpointer, hcells, ?_, hinput, ?_⟩
    · rw [hcount]
      exact hbudget
    · rw [length_outputText, hcount]
      exact Nat.le_trans hprinted (Nat.succ_le_succ houtput)
  have hpointer := h.pointer_lt
  have hinput := h.inputPosition_le
  have hprinted := Nat.le_succ m.printed.length
  cases effect with
  | increment | decrement | provided => exact ⟨hpointer, h.size_set _, hinput, hprinted⟩
  | left => exact ⟨Nat.lt_of_le_of_lt (Nat.sub_le _ _) hpointer, h.cells_le, hinput, hprinted⟩
  | right room => exact ⟨Nat.lt_of_lt_of_le room (Nat.le_max_right _ _), h.cells_le, hinput, hprinted⟩
  | enter | skip | again | leave => exact ⟨hpointer, h.size_allocate, hinput, hprinted⟩
  | output => exact ⟨hpointer, h.size_allocate, hinput, Nat.le_refl _⟩
  | read =>
    have hframe := m.readInput_frame
    have hread : m.readInput.2.pointer = m.pointer := (congrArg pointer hframe :)
    have htape : m.readInput.2.tape = m.tape := (congrArg tape hframe :)
    have hsame : m.readInput.2.printed = m.printed := (congrArg printed hframe :)
    refine ⟨?_, ?_, inputPosition_readInput hinput, ?_⟩
    · exact hread ▸ hpointer
    · show (m.readInput.2.tape.set m.readInput.2.pointer _).size ≤ _
      rw [hread, htape]
      exact h.size_set _
    · show m.readInput.2.printed.length ≤ _
      rw [hsame]
      exact hprinted

/-- A refused instruction keeps the bounds: it allocates the current cell at most. -/
theorem Bounds.refuses (h : Bounds m.program m.limits m) (effect : m.Refuses i m' fault) :
    Bounds m.program m.limits m' := by
  cases effect with
  | noRoom | stray => exact h
  | unclosed => exact { h with cells_le := h.size_allocate }

/-- A step keeps the bounds, also a step that fails. -/
theorem Bounds.stepsTo (h : Bounds m.program m.limits m) (sound : m.StackSound)
    (hstep : m.StepsTo provided m' status) : Bounds m.program m.limits m' := by
  cases hstep with
  | ended | spent => exact h
  | refused current budget effect => exact h.refuses effect
  | executed current budget effect => exact h.performs sound current budget effect

/-! ### All histories -/

private theorem bounds_start (hpc : m.pc = 0)
    (hpointer : m.pointer = 0) (hcells : m.tape = {}) (hcount : m.stepCount = 0)
    (hinput : m.inputPosition = 0) (hprinted : m.printed = []) : Bounds p l m := by
  constructor
  · rw [hpc]
    exact Nat.zero_le _
  · rw [hpointer]
    exact Nat.lt_of_lt_of_le Nat.zero_lt_one (Nat.le_max_left _ _)
  · rw [hcells]
    exact Nat.zero_le _
  · rw [hcount]
    exact Nat.zero_le _
  · rw [hinput]
    exact Nat.zero_le _
  · rw [length_outputText, hprinted]
    exact Nat.zero_le _

/-- The bounds hold of every reachable machine. -/
theorem Reachable.bounds (h : Reachable p l m) : Bounds p l m := by
  refine preserves (P := Bounds p l) ?_ ?_ ?_ ?_ ?_ ?_ ?_ ?_ h
  · exact fun _ ↦ bounds_start rfl rfl rfl rfl rfl rfl
  · exact fun _ _ hm ↦ { hm with }
  · intro m provided hm hbounds
    obtain rfl := hm.program_eq
    obtain rfl := hm.limits_eq
    exact hbounds.stepsTo hm.stackSound (stepWith_spec m provided)
  · exact fun _ hm ↦ { hm with }
  · exact fun _ hm ↦ { hm with }
  · exact fun _ _ ↦ bounds_start rfl rfl rfl rfl rfl rfl
  · exact fun _ _ ↦ bounds_start rfl rfl rfl rfl rfl rfl
  · exact fun _ _ hm ↦ { hm with }

/-! ### Sums, lookups and ends -/

/-- Every character of the output is the character of a byte. -/
theorem toNat_lt_of_mem_outputText {c : Char} (h : c ∈ m.outputText.toList) : c.toNat < 0x100 := by
  rw [outputText, Latin1.decode, String.toList_ofList] at h
  obtain ⟨b, -, rfl⟩ := List.mem_map.mp h
  rw [Latin1.toNat_ofUInt8]
  exact b.toNat_lt

/-- In front of an instruction the table of partners has an entry for its position. -/
theorem pc_lt_size_partners (current : m.current? ≠ none) : m.pc < m.image.partners.size := by
  obtain ⟨i, hi⟩ := Option.ne_none_iff_exists'.mp current
  rw [partners_image, Program.size_partners]
  exact pc_lt hi

/-- A loop over steps comes to an answer with one step behind at most as many as the budget allows, and has executed
no more instructions than that. -/
structure EndsWithin {σ : Type} (next : σ → σ × Status) (machine : σ → Machine) (s : σ)
    (budget : Nat) (last : σ × Status) : Prop where
  ends : ∃ k ≤ budget, Ends next s k last
  stepCount_le : (machine last.1).stepCount ≤ budget

/-- The loop of a straight run ends within the budget. -/
theorem Reachable.run_ends (h : Reachable p l m) :
    ∃ last, EndsWithin Machine.step id m.begin l.maxSteps last ∧
      m.run = last.1.conclude last.2 := by
  obtain ⟨k, hk, last, hends, hrun⟩ := m.run_ends
  have hcount : m.run.1.stepCount ≤ l.maxSteps := h.run.bounds.stepCount_le
  rw [h.limits_eq] at hk
  rw [hrun] at hcount
  exact ⟨last, ⟨⟨k, hk, hends⟩, hcount⟩, hrun⟩

/-- The loop of a run in slices ends within the budget. -/
theorem Reachable.runSliced_ends (h : Reachable p l m) :
    ∃ last, EndsWithin Machine.step id m.begin l.maxSteps last ∧
      m.runSliced = last.1.conclude last.2 := by
  rw [runSliced_eq_run]
  exact h.run_ends

/-- The loop of a run on a feed ends within the budget. -/
theorem Reachable.runFed_ends (h : Reachable p l m) (feed : Feed) :
    ∃ last, EndsWithin stepOnFeed Prod.fst (m.begin, feed) l.maxSteps last ∧
      m.runFed feed =
        ((last.1.1.conclude last.2).1, last.1.2, (last.1.1.conclude last.2).2) := by
  obtain ⟨k, hk, last, hends, hrun⟩ := m.runFed_ends feed
  have hcount : (m.runFed feed).1.stepCount ≤ l.maxSteps := (h.runFed feed).bounds.stepCount_le
  rw [h.limits_eq] at hk
  rw [hrun] at hcount
  exact ⟨last, ⟨⟨k, hk, hends⟩, hcount⟩, hrun⟩

/-- A machine stays within limits that are machine words, and so does all that it goes on to compute. -/
structure WithinLimits (p : Program) (l : Limits) (m : Machine) : Prop extends Bounds p l m where
  /-- The output consists of bytes. -/
  output_lt : ∀ c ∈ m.outputText.toList, c.toNat < 0x100
  /-- The pointer behind the next cell, which is also the number of cells allocated up to the pointer, is a word. -/
  pointer_succ_le : m.pointer + 1 ≤ Limits.largest
  /-- The count behind an instruction that the budget lets execute is a word. -/
  stepCount_succ_le : m.outOfSteps = false → m.stepCount + 1 ≤ Limits.largest
  /-- No partner is looked up outside the table. -/
  pc_lt_partners : m.current? ≠ none → m.pc < m.image.partners.size
  /-- A run from here ends, whichever way it is driven. -/
  run_ends : ∃ last, EndsWithin Machine.step id m.begin l.maxSteps last ∧
    m.run = last.1.conclude last.2
  runSliced_ends : ∃ last, EndsWithin Machine.step id m.begin l.maxSteps last ∧
    m.runSliced = last.1.conclude last.2
  runFed_ends : ∀ feed, ∃ last, EndsWithin stepOnFeed Prod.fst (m.begin, feed) l.maxSteps last ∧
    m.runFed feed = ((last.1.1.conclude last.2).1, last.1.2, (last.1.1.conclude last.2).2)

/-- A reachable machine stays within its limits, on its way through a run as well as between the operations on a
session, if the limits are any machine words. -/
theorem resources_stay_within_limits (hmemory : l.maxMemory ≤ Limits.largest)
    (hsteps : l.maxSteps ≤ Limits.largest) :
    (∀ m, Reachable p l m → WithinLimits p l m) ∧
      ∀ timed s, Session.Reachable p l timed s → WithinLimits p l s.machine := by
  have hwithin : ∀ m, Reachable p l m → WithinLimits p l m := by
    intro m h
    have hbounds := h.bounds
    refine ⟨hbounds, fun _ ↦ toNat_lt_of_mem_outputText, ?_, ?_, pc_lt_size_partners, h.run_ends,
      h.runSliced_ends, h.runFed_ends⟩
    · have hone : 1 ≤ Limits.largest := by decide
      have hword := Nat.max_le.mpr ⟨hone, hmemory⟩
      exact Nat.le_trans hbounds.pointer_lt hword
    · intro budget
      have hlt : m.stepCount < l.maxSteps := by
        rw [← h.limits_eq]
        simpa [outOfSteps] using budget
      exact Nat.le_trans hlt hsteps
  exact ⟨hwithin, fun _ s h ↦ hwithin s.machine h.machine⟩

/-- The greatest budget and no memory at all, behind a run that fails for want of a cell and one that is stepped. -/
theorem resources_stay_within_extreme_limits :
    let p := Program.ofList [.increment, .output, .right]
    let l : Limits := { maxMemory := 0, maxSteps := Limits.largest }
    let s := (Session.load p l).step.1.run.1.step.1
    (l.maxMemory ≤ Limits.largest ∧ l.maxSteps ≤ Limits.largest ∧
        Session.Reachable p l (· = .standard) s) ∧
      WithinLimits p l s.machine := by
  intro p l s
  have hload : Session.Reachable p l (· = .standard) (.load p l) := .load rfl
  have hreachable : Session.Reachable p l (· = .standard) s := hload.step.run.step
  have hmemory : l.maxMemory ≤ Limits.largest := Nat.zero_le _
  exact ⟨⟨hmemory, Nat.le_refl _, hreachable⟩,
    (resources_stay_within_limits hmemory (Nat.le_refl _)).2 _ s hreachable⟩

end Machine

end TapeLang
