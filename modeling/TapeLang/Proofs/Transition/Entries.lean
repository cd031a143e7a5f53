import TapeLang.Proofs.Structured.Run
import TapeLang.Proofs.Transition.Words

/-!
# Entries are transitions

A machine that executes a word of a table alone, from any tape with only zeros
right of the current cell, comes to the end of the word with the value the word
leads to. It never goes to the left of where it started, and since no entry
holds an input or an output instruction (`silent_afterPasses`), it reads nothing
and prints nothing. This holds after any number of passes
(`entries_are_transitions`).
-/

namespace TapeLang

namespace Transition

def Silent (w : Word) : Prop := ∀ i ∈ w, i ≠ .input ∧ i ≠ .output

theorem silent_unaryWord (start target : UInt8) : Silent (unaryWord start target) := by
  intro i hi
  obtain ⟨-, rfl⟩ := Array.mem_replicate.mp hi
  split <;> decide

theorem MultiplyLoop.silent_word (l : MultiplyLoop) : Silent l.word := by
  obtain ⟨direction, outer, inner⟩ := l
  intro i hi
  cases direction <;>
  · simp only [word, Array.mem_append, Array.mem_replicate, List.mem_toArray, List.mem_cons,
      List.not_mem_nil, or_false] at hi
    grind

theorem Silent.append {w w' : Word} (h : Silent w) (h' : Silent w') : Silent (w ++ w') :=
  fun i hi ↦ (Array.mem_append.mp hi).elim (h i) (h' i)

/-- No entry of a table built by passes reads or prints. -/
theorem silent_afterPasses (n : Nat) (start target : UInt8) :
    Silent ((Table.afterPasses n).word start target) :=
  afterPasses_induction (Q := fun w _ _ ↦ Silent w) silent_unaryWord
    (fun _ candidate _ ↦ candidate.1.silent_word) Silent.append n start target

end Transition

namespace Machine

open Transition

variable {m m' e : Machine} {w : Word} {a b : UInt8} {status : Status}

/-! ### Words without input and output -/

/-- The next instruction is one of the program. -/
theorem mem_code_of_current? {i : Instruction} (h : m.current? = some i) : i ∈ m.program.code :=
  Array.mem_of_getElem? h

/-- A step that neither reads nor prints leaves the output and the position in the input. -/
theorem StepsTo.silent (h : m.StepsTo none m' status) (hcode : Silent m.program.code) :
    m'.printed = m.printed ∧ m'.inputPosition = m.inputPosition := by
  cases h with
  | ended | spent => exact ⟨rfl, rfl⟩
  | refused _ _ effect => cases effect <;> exact ⟨rfl, rfl⟩
  | executed current _ effect =>
    have hsilent := hcode _ (mem_code_of_current? current)
    cases effect with
    | output => exact absurd rfl hsilent.2
    | provided | read => exact absurd rfl hsilent.1
    | _ => exact ⟨rfl, rfl⟩

/-- What was printed and read before a silent word is what was printed and read on its way. -/
theorem silent_advance (hcode : Silent m.program.code) (n : Nat) :
    (advance step n m).1.image = m.image ∧ (advance step n m).1.printed = m.printed ∧
      (advance step n m).1.inputPosition = m.inputPosition := by
  refine advance_preserves (P := fun e : Machine ↦ e.image = m.image ∧ e.printed = m.printed ∧
    e.inputPosition = m.inputPosition) ?_ n ⟨rfl, rfl, rfl⟩
  rintro e ⟨himage, hprinted, hposition⟩
  have hstep := stepWith_spec e none
  have hsame : e.program = m.program := congrArg Image.program himage
  obtain ⟨hprinted', hposition'⟩ := hstep.silent (by rwa [hsame])
  exact ⟨hstep.image_eq.trans himage, hprinted'.trans hprinted, hposition'.trans hposition⟩

/-! ### Executing a word alone -/

/-- The machine is about to execute a word, with nothing before or behind it. -/
structure Starts (m : Machine) (w : Word) : Prop where
  code_eq : m.program.code = w
  pc_eq : m.pc = 0
  loopStack_eq : m.loopStack = []
  unasked : m.stopRequested = false

/-- The limits suffice for a word: one cell for each instruction, 256 steps for each, and a time budget that lasts. -/
structure Suffices (m : Machine) (w : Word) : Prop where
  room : m.pointer + w.size < m.limits.maxMemory
  budget : m.stepCount + 256 * w.size ≤ m.limits.maxSteps
  lasting : m.clock.Lasts m.limits.timeout

/-- The current cell of `e` is at or right of the one of `m` and has a value, every other cell from there on is zero,
and the cells on the left are the same. -/
structure Crosses (m e : Machine) (b : UInt8) : Prop where
  pointer_le : m.pointer ≤ e.pointer
  cell_eq : e.cell = b
  zero : ∀ i, m.pointer ≤ i → i ≠ e.pointer → e.tape.get i = 0
  left_eq : ∀ i, i < m.pointer → e.tape.get i = m.tape.get i

/-- What a machine shows. -/
def store (m : Machine) : Store where
  cells := m.tape.get
  pointer := m.pointer
  printed := m.printed
  inputPosition := m.inputPosition

theorem shows_store (m : Machine) : m.Shows m.store := ⟨fun _ ↦ rfl, rfl, rfl, rfl⟩

/-- A machine that shows a value placed right of another machine's current cell crosses from there. -/
theorem crosses_of_shows_place {q : Nat} (hq : m.pointer ≤ q) (h : e.Shows (m.store.place q b)) :
    m.Crosses e b := by
  have hpointer : e.pointer = q := h.pointer_eq
  have hget (i : Nat) :
      e.tape.get i = if i < m.pointer then m.tape.get i else if i = q then b else 0 := h.get_eq i
  refine ⟨hpointer ▸ hq, ?_, fun i hi hne ↦ ?_, fun i hi ↦ ?_⟩
  · rw [cell, hget, hpointer, if_neg (Nat.not_lt.mpr hq), if_pos rfl]
  · rw [hget, if_neg (Nat.not_lt.mpr hi), if_neg (hpointer ▸ hne)]
  · rw [hget, if_pos hi]

/-- A word that brings a value does so on every machine that starts it with enough room, and stays right of where it
started. -/
theorem crosses_of_brings (hbrings : Brings w a b) (hstart : m.Starts w) (hlimits : m.Suffices w)
    (hcell : m.cell = a) (hright : ∀ i, m.pointer < i → m.tape.get i = 0) :
    ∃ n ≤ 256 * w.size + 1, (advance step n m).2 = .finished ∧ m.Crosses (advance step n m).1 b ∧
      ∀ k, m.pointer ≤ (advance step k m).1.pointer := by
  obtain ⟨block, hcode, hbrings⟩ := hbrings
  obtain ⟨q, hq, -, vs, hevaluates, hlength, hcells⟩ :=
    hbrings m.limits.inputBytes m.store ⟨hcell, hright⟩
  have hq : m.pointer ≤ q := hq
  have hlist : block.code = m.program.toList := by rw [hcode, Program.toList, hstart.code_eq]
  have hquiet : m.Quiet :=
    ⟨stackSound_of_start hstart.pc_eq hstart.loopStack_eq, unmatched_eq_nil hlist, hlimits.lasting,
      hstart.unasked⟩
  have hat : At m.program m.limits 0 m.store m :=
    ⟨rfl, rfl, hstart.pc_eq, hquiet.sound, m.shows_store⟩
  have hpasses := passes_of_at hlist hat hevaluates
  have hroom : ∀ v ∈ vs, ¬ v.Leaves m.limits.maxMemory := by
    rintro v hv ⟨hmove, hfull⟩
    have hle : v.store.pointer + 1 ≤ m.pointer + w.size := (hcells v hv).2 hmove
    have hroom := hlimits.room
    omega
  have hbudget : m.stepCount + vs.length ≤ m.limits.maxSteps := by
    have hbudget := hlimits.budget
    omega
  obtain ⟨e, hlast, hshows⟩ := finishes_of_evaluates hlist hat hquiet hevaluates hroom hbudget
  have hcross := crosses_of_shows_place hq hshows
  refine ⟨vs.length + 1, Nat.succ_le_succ hlength, by rw [hlast], by rw [hlast]; exact hcross, ?_⟩
  intro k
  by_cases hk : k ≤ vs.length
  · have hvisits := passes_advance hpasses hquiet hroom hbudget hk
    cases hrest : vs.drop k with
    | nil =>
      rw [hrest] at hvisits
      exact Nat.le_trans hq (Nat.le_of_eq (hvisits _ rfl).shows.pointer_eq.symm)
    | cons v rest =>
      rw [hrest] at hvisits
      have hv : v ∈ vs := List.mem_of_mem_drop (hrest ▸ List.mem_cons_self)
      rw [hvisits.2.1.pointer_eq]
      exact (hcells v hv).1
  · rw [advance_of_answered (Nat.lt_of_not_le hk) (by rw [hlast]; exact Status.noConfusion), hlast]
    exact hcross.pointer_le

end Machine

namespace Transition

open Machine

/-- Every entry of a table built by any number of passes is a transition. Executed alone, from any tape with the
entry's first value in the current cell and zeros to its right, it comes to its end with its second value in the
current cell, zeros around it and the cells on the left untouched. On its way the pointer never stands left of where it
started, and nothing is printed or read. -/
theorem entries_are_transitions (passes : Nat) (a b : UInt8) {m : Machine}
    (hstart : m.Starts ((Table.afterPasses passes).word a b))
    (hlimits : m.Suffices ((Table.afterPasses passes).word a b))
    (hcell : m.cell = a) (hright : ∀ i, m.pointer < i → m.tape.get i = 0) :
    (∃ n, (advance step n m).2 = .finished ∧ m.Crosses (advance step n m).1 b) ∧
      ∀ k, m.pointer ≤ (advance step k m).1.pointer ∧
        (advance step k m).1.current? ≠ some .input ∧
        (advance step k m).1.current? ≠ some .output ∧
        (advance step k m).1.inputPosition = m.inputPosition ∧
        (advance step k m).1.output = m.output := by
  have hsilent : Silent m.program.code := by
    rw [hstart.code_eq]
    exact silent_afterPasses passes a b
  obtain ⟨n, -, hfinished, hcross, hpointer⟩ :=
    crosses_of_brings (sound_afterPasses passes a b) hstart hlimits hcell hright
  refine ⟨⟨n, hfinished, hcross⟩, fun k ↦ ?_⟩
  obtain ⟨himage, hprinted, hposition⟩ := silent_advance hsilent k
  have hcurrent {i : Instruction} (h : (advance step k m).1.current? = some i) :
      i ≠ .input ∧ i ≠ .output := by
    have hmem := mem_code_of_current? h
    rw [program, himage] at hmem
    exact hsilent i hmem
  exact ⟨hpointer k, fun h ↦ (hcurrent h).1 rfl, fun h ↦ (hcurrent h).2 rfl, hposition,
    congrArg List.reverse hprinted⟩

/-- An entry of the table in use, executed in the second cell with just the room and the budget that it is sure to
need. The first cell keeps its value. -/
theorem entry_is_transition_in_second_cell :
    let w := (Table.afterPasses passes).word 200 72
    let m : Machine :=
      { Machine.load ⟨w⟩ { maxMemory := w.size + 2, maxSteps := 256 * w.size } with
        tape := ⟨#[7, 200]⟩
        pointer := 1 }
    (m.Starts w ∧ m.Suffices w ∧ m.cell = 200 ∧ ∀ i, m.pointer < i → m.tape.get i = 0) ∧
      ∃ n, (advance step n m).2 = .finished ∧ (advance step n m).1.cell = 72 ∧
        (advance step n m).1.tape.get 0 = 7 := by
  intro w m
  have hstart : m.Starts w := ⟨rfl, rfl, rfl, rfl⟩
  have hlimits : m.Suffices w := by
    refine ⟨?_, Nat.le_of_eq (Nat.zero_add _), Clock.standard_lasts (by decide)⟩
    show 1 + w.size < w.size + 2
    omega
  have hright : ∀ i, m.pointer < i → m.tape.get i = 0 := by
    intro i hi
    have hsize : (#[7, 200] : Array UInt8).size ≤ i := hi
    rw [Tape.get, Array.getD_eq_getD_getElem?, Array.getElem?_eq_none hsize, Option.getD_none]
  obtain ⟨⟨n, hfinished, hcross⟩, -⟩ := entries_are_transitions passes 200 72 hstart hlimits rfl hright
  exact ⟨⟨hstart, hlimits, rfl, hright⟩, n, hfinished, hcross.cell_eq,
    hcross.left_eq 0 Nat.one_pos⟩

end Transition

end TapeLang
