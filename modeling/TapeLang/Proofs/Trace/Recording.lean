import TapeLang.Trace.Recorder
import TapeLang.Proofs.Machine.Timing

/-!
# Recordings and runs

A recording and a run drive the same machine with different ways of stopping.
As long as instructions remain and there is room, a recorder keeps one snapshot
for each machine the run passes (`Follows`). The last step of the run ends the
program, is cut off behind its effect, or is refused
(`Machine.StepsTo.answer_cases`), and its kind decides how many snapshots the
recording needs to tell the answer (`Reported`).

Main statement: `Recorder.recordAll_agrees_with_run`.
-/

namespace TapeLang

/-- The ending of a recording that tells what a run answered. -/
def Ending.ofAnswer : Except Fault (List UInt8) → Ending
  | .ok _ => .completed
  | .error fault => .failed fault

namespace Machine

/-- A run passes the same machines as the steps of the machine with its clock started, with the mark of a run
on them. -/
theorem advance_begin_load (p : Program) (l : Limits) (κ : Clock) (k : Nat) :
    (advance step k (load p l κ).begin).2 = (advance step k (load p l κ).startClock).2 ∧
      (advance step k (load p l κ).begin).1 =
        (advance step k (load p l κ).startClock).1.withRunning true := by
  have hbegin : (load p l κ).begin = (load p l κ).startClock.withRunning true := rfl
  refine advance_simulates (R := fun s (t : Machine) ↦ s = t.withRunning true) ?_ k hbegin
  rintro s t rfl
  rw [step_withRunning]
  exact ⟨rfl, rfl⟩

end Machine

namespace Recorder

open Machine

variable {start : Machine} {j k n : Nat} {r : Recorder} {κ : Clock}

/-- To count the time of a step changes nothing else. -/
theorem timeStep_eq (r : Recorder) : r.timeStep = { r with time := r.timeStep.time } := by
  rw [timeStep]
  split <;> rfl

theorem timeStep_machine (r : Recorder) : r.timeStep.machine = r.machine :=
  (congrArg machine r.timeStep_eq :)

theorem timeStep_snapshots (r : Recorder) : r.timeStep.snapshots = r.snapshots :=
  (congrArg snapshots r.timeStep_eq :)

theorem timeStep_cap (r : Recorder) : r.timeStep.cap = r.cap := (congrArg cap r.timeStep_eq :)

/-- A recorder that has ended answers no request. -/
theorem forward_of_isFinished (h : r.isFinished = true) : r.forward = (r, none) := by
  unfold forward blocked?
  rw [if_pos h]

/-- A full recorder is closed by the next request. -/
theorem forward_of_full (h : r.isFinished = false) (hfull : r.cap ≤ r.size) :
    r.forward = ({ r with ending := some .capped }, none) := by
  unfold forward blocked?
  rw [h, if_neg Bool.false_ne_true, if_pos hfull]

/-- With room left a recorder takes note of the next step. -/
theorem forward_of_room (h : r.isFinished = false) (hroom : r.size < r.cap) :
    r.forward = r.timeStep.note r.machine.step.1 r.machine.step.2 := by
  unfold forward blocked?
  rw [h, if_neg Bool.false_ne_true, if_neg (Nat.not_le.mpr hroom)]

/-- Extending in two parts: the second is made if the first was answered throughout. -/
theorem extend_add (a b : Nat) (r : Recorder) :
    r.extend (a + b) = if (r.extend a).2 then (r.extend a).1.extend b else r.extend a := by
  induction a generalizing r with
  | zero => simp [extend]
  | succ a ih =>
    rw [Nat.add_right_comm, extend, extend]
    split
    · exact ih _
    · rfl

/-- A recorder without an ending that has followed a machine for `j` instructions. -/
structure Follows (start : Machine) (j : Nat) (r : Recorder) : Prop where
  machine_eq : r.machine = (advance step j start).1
  size_eq : r.snapshots.size = j + 1
  snapshot_eq : ∀ i ≤ j, r.snapshots[i]? = some (.ofMachine (advance step i start).1)
  ending_eq : r.ending = none

theorem Follows.timeStep (h : Follows start j r) : Follows start j r.timeStep where
  machine_eq := (timeStep_machine r).trans h.machine_eq
  size_eq := by rw [timeStep_snapshots, h.size_eq]
  snapshot_eq i hi := by rw [timeStep_snapshots, h.snapshot_eq i hi]
  ending_eq := (congrArg ending r.timeStep_eq :).trans h.ending_eq

/-- A snapshot of the next machine goes behind those taken before. -/
theorem Follows.keep (h : Follows start j r) {m : Machine}
    (hm : m = (advance step (j + 1) start).1) :
    (r.keep m).snapshots.size = j + 2 ∧
      ∀ i ≤ j + 1, (r.keep m).snapshots[i]? = some (.ofMachine (advance step i start).1) := by
  constructor
  · rw [Recorder.keep, Array.size_push, h.size_eq]
  · intro i hi
    rw [Recorder.keep, Array.getElem?_push, h.size_eq]
    split
    · next hlast => rw [hlast, hm]
    · next hbefore => exact h.snapshot_eq i (by omega)

theorem Follows.isFinished_eq (h : Follows start j r) : r.isFinished = false := by
  rw [isFinished, h.ending_eq]
  rfl

theorem Follows.forward_eq (h : Follows start j r) (hroom : j + 1 < r.cap) :
    r.forward = r.timeStep.note r.machine.step.1 r.machine.step.2 := by
  rw [← h.size_eq] at hroom
  exact forward_of_room h.isFinished_eq hroom

theorem Follows.forward_full (h : Follows start j r) (hfull : r.cap ≤ j + 1) :
    r.forward = ({ r with ending := some .capped }, none) := by
  rw [← h.size_eq] at hfull
  exact forward_of_full h.isFinished_eq hfull

/-- If instructions remain behind the next step, a recorder with room keeps following. -/
theorem Follows.forward (h : Follows start j r) (hroom : j + 1 < r.cap)
    (hmore : (advance step (j + 1) start).2 = .more) :
    Follows start (j + 1) r.forward.1 ∧ r.forward.1.cap = r.cap ∧ r.forward.2.isSome := by
  have hnext := advance_succ_of_more (advance_more_of_le (Nat.le_succ j) hmore)
  rw [← h.machine_eq] at hnext
  rw [hnext] at hmore
  obtain ⟨hsize, hsnapshots⟩ := h.timeStep.keep (congrArg Prod.fst hnext.symm)
  rw [h.forward_eq hroom, hmore, note]
  refine ⟨⟨(congrArg Prod.fst hnext).symm, hsize, hsnapshots, h.timeStep.ending_eq⟩, timeStep_cap r, ?_⟩
  simp only [last?, Recorder.keep, Array.back?_push, Option.isSome_some]

/-- As long as instructions remain and there is room, an extension follows the machine. -/
theorem Follows.extend (h : Follows start 0 r) (hroom : j + 1 ≤ r.cap)
    (hmore : (advance step j start).2 = .more) :
    Follows start j (r.extend j).1 ∧ (r.extend j).1.cap = r.cap ∧ (r.extend j).2 = true := by
  induction j with
  | zero => exact ⟨h, rfl, rfl⟩
  | succ j ih =>
    obtain ⟨hfollows, hcap, hanswered⟩ :=
      ih (Nat.le_of_succ_le hroom) (advance_more_of_le (Nat.le_succ j) hmore)
    obtain ⟨hnext, hcap', hsome⟩ := hfollows.forward (by rwa [hcap]) hmore
    rw [extend_add, if_pos hanswered, Recorder.extend]
    split
    · next r' s hforward =>
      rw [hforward] at hnext hcap'
      exact ⟨hnext, hcap'.trans hcap, rfl⟩
    · next r' hforward =>
      rw [hforward] at hsome
      contradiction

/-! ### The end of a recording -/

/-- An extension of a recorder that has ended changes nothing. -/
theorem extend_of_isFinished (h : r.isFinished = true) (n : Nat) : (r.extend n).1 = r := by
  cases n with
  | zero => rfl
  | succ n => rw [extend, forward_of_isFinished h]

/-- A note of an answer ends the recording. -/
theorem isFinished_note (r : Recorder) (m : Machine) {status : Status}
    (h : status ≠ .more) : (r.note m status).1.isFinished = true := by
  cases status with
  | more => exact False.elim (h rfl)
  | finished | failed => rfl

/-- An extension past a full recorder closes it. -/
private theorem extend_full (h : Follows start j r) (hfull : r.cap ≤ j + 1) (n : Nat) :
    (r.extend (n + 1)).1 = { r with ending := some .capped } := by
  rw [extend, h.forward_full hfull]

/-- An extension past the last step of a run takes note of that step. -/
private theorem extend_last (h : Follows start j r) (hroom : j + 1 < r.cap)
    (hlast : r.machine.step.2 ≠ .more) (n : Nat) :
    (r.extend (n + 1)).1 = (r.timeStep.note r.machine.step.1 r.machine.step.2).1 := by
  have hfinished := isFinished_note r.timeStep r.machine.step.1 hlast
  rw [extend, h.forward_eq hroom]
  split
  · next r' s heq =>
    rw [heq] at hfinished ⊢
    exact extend_of_isFinished hfinished n
  · next r' heq => rw [heq]

/-- A recorder that holds snapshots of the first `count` machines and has ended. -/
structure Shows (start : Machine) (count : Nat) (ending : Ending) (r : Recorder) : Prop where
  size_eq : r.snapshots.size = count
  snapshot_eq : ∀ i < count, r.snapshots[i]? = some (.ofMachine (advance step i start).1)
  ending_eq : r.ending = some ending

/-- The last step of a run leaves a snapshot exactly if it executes an instruction, and its answer as the ending. -/
private theorem shows_note (h : Follows start j r) (hmore : (advance step j start).2 = .more)
    (hcurrent : r.machine.current? ≠ none) (hlast : r.machine.step.2 ≠ .more)
    (hstop : r.machine.stopRequested = false) (hcount : r.machine.stepCount = j) :
    Shows start (r.machine.step.1.stepCount + 1)
      (.ofAnswer (r.machine.step.1.conclude r.machine.step.2).2)
      (r.timeStep.note r.machine.step.1 r.machine.step.2).1 := by
  have hnext : r.machine.step.1 = (advance step (j + 1) start).1 := by
    rw [advance_succ_of_more hmore, h.machine_eq]
  obtain ⟨hsize, hsnapshots⟩ := h.timeStep.keep hnext
  rcases (stepWith_spec r.machine none).answer_cases hlast hstop with ⟨hnone, -, -⟩ |
    ⟨hexecuted, hanswer⟩ | ⟨hrefused, fault, hanswer, heffect⟩
  · exact False.elim (hcurrent hnone)
  · rw [step, hexecuted, hcount]
    rcases hanswer with hanswer | ⟨limit, hanswer⟩
    · rw [hanswer]
      exact ⟨hsize, fun i hi ↦ hsnapshots i (Nat.le_of_lt_succ hi), rfl⟩
    · rw [hanswer]
      exact ⟨hsize, fun i hi ↦ hsnapshots i (Nat.le_of_lt_succ hi), rfl⟩
  · rw [step, hrefused, hanswer, hcount, note, heffect]
    exact ⟨h.timeStep.size_eq, fun i hi ↦ h.timeStep.snapshot_eq i (Nat.le_of_lt_succ hi), rfl⟩

/-! ### Recordings of whole runs -/

/-- What a recording with room for `c` snapshots needs to tell the answer of a run of `n` instructions: an
answer behind the last instruction comes with the last snapshot, and any other fault takes one request more. -/
def Reported (answer : Except Fault (List UInt8)) (n c : Nat) : Prop :=
  match answer with
  | .ok _ | .error (.timeout _) => n + 1 ≤ c
  | .error _ => n + 1 < c

/-- A recording tells the answer of a run exactly if it can ask for its last step. -/
private theorem reported_iff {m : Machine} (hcurrent : m.current? ≠ none) (hlast : m.step.2 ≠ .more)
    (hstop : m.stopRequested = false) (c : Nat) :
    Reported (m.step.1.conclude m.step.2).2 m.step.1.stepCount c ↔ m.stepCount + 1 < c := by
  rcases (stepWith_spec m none).answer_cases hlast hstop with ⟨hnone, -, -⟩ |
    ⟨hexecuted, hanswer⟩ | ⟨hrefused, fault, hanswer, heffect⟩
  · exact False.elim (hcurrent hnone)
  · rw [step, hexecuted]
    rcases hanswer with hanswer | ⟨limit, hanswer⟩
    · rw [hanswer]
      exact Iff.rfl
    · rw [hanswer]
      exact Iff.rfl
  · rw [step, hrefused, hanswer]
    cases fault with
    | timeout | userStopped => contradiction
    | unmatchedBracket | memoryLimit | stepLimit | inputUnavailable => exact Iff.rfl

/-- The recorder in front of the first instruction, with the clock of its machine started. -/
def started (p : Program) (l : Limits) (cap : Nat) (κ : Clock) : Recorder :=
  { load p l cap κ with machine := (Machine.load p l κ).startClock }

private theorem recordAll_eq (p : Program) (l : Limits) (cap : Nat) :
    (load p l cap κ).recordAll = ((started p l cap κ).extend (max cap 1 + 1)).1 := rfl

private theorem follows_started {p : Program} (l : Limits) (cap : Nat) (hp : p.size ≠ 0) :
    Follows (Machine.load p l κ).startClock 0 (started p l cap κ) := by
  have hpending : (Machine.load p l κ).isFinished = false :=
    decide_eq_false (fun hsize ↦ hp (Nat.le_zero.mp hsize))
  refine ⟨rfl, rfl, ?_, ?_⟩
  · intro i hi
    rw [Nat.le_zero.mp hi]
    rfl
  · rw [started, load, hpending]
    rfl

/-- A full recording holds the machines up to its cap. -/
private theorem recordAll_full {p : Program} {l : Limits} {cap : Nat} (hp : p.size ≠ 0)
    (hmore : (advance step k (Machine.load p l κ).startClock).2 = .more)
    (hfull : max cap 1 ≤ k + 1) :
    Shows (Machine.load p l κ).startClock (max cap 1) .capped (load p l cap κ).recordAll := by
  obtain ⟨j, hj⟩ : ∃ j, max cap 1 = j + 1 := ⟨max cap 1 - 1, by omega⟩
  have hjk : j ≤ k := by omega
  obtain ⟨hfollows, hcap, hanswered⟩ :=
    (follows_started l cap hp).extend (Nat.le_of_eq hj.symm) (advance_more_of_le hjk hmore)
  have hcap' := hcap.trans hj
  have hsplit : max cap 1 + 1 = j + (1 + 1) := by omega
  rw [recordAll_eq, hsplit, extend_add, if_pos hanswered, extend_full hfollows (Nat.le_of_eq hcap')]
  refine ⟨hfollows.size_eq.trans hj.symm, fun i hi ↦ hfollows.snapshot_eq i (by omega), rfl⟩

/-- A recording with room holds the machines up to the answer of the run. -/
private theorem recordAll_room {p : Program} {l : Limits} {cap : Nat} (hp : p.size ≠ 0)
    {m : Machine} (hm : m = (advance step k (Machine.load p l κ).startClock).1)
    (hmore : (advance step k (Machine.load p l κ).startClock).2 = .more)
    (hcurrent : m.current? ≠ none) (hlast : m.step.2 ≠ .more) (hcount : m.stepCount = k)
    (hroom : k + 1 < max cap 1) :
    Shows (Machine.load p l κ).startClock (m.step.1.stepCount + 1)
      (.ofAnswer (m.step.1.conclude m.step.2).2) (load p l cap κ).recordAll := by
  obtain ⟨hfollows, hcap, hanswered⟩ :=
    (follows_started l cap hp).extend (Nat.le_of_lt hroom) hmore
  have hroom' : k + 1 < _ := Nat.lt_of_lt_of_eq hroom hcap.symm
  have hm' := hm.trans hfollows.machine_eq.symm
  have hstop : m.stopRequested = false := by
    rw [hm, stopRequested_advance]
    rfl
  obtain ⟨d, hd⟩ : ∃ d, max cap 1 + 1 = k + (d + 1) := ⟨max cap 1 - k, by omega⟩
  rw [hm'] at hlast hcurrent hstop hcount ⊢
  rw [recordAll_eq, hd, extend_add, if_pos hanswered, extend_last hfollows hroom' hlast]
  exact shows_note hfollows hmore hcurrent hlast hstop hcount

private theorem recordAll_empty {p : Program} (l : Limits) (cap : Nat) (hp : p.size = 0) :
    Shows (Machine.load p l κ).startClock 1 .completed (load p l cap κ).recordAll := by
  have hended : (Machine.load p l κ).isFinished = true := decide_eq_true (Nat.le_of_eq hp)
  have hending : (started p l cap κ).ending = some .completed := by
    rw [started, load, hended]
    rfl
  have hfinished : (started p l cap κ).isFinished = true := by rw [isFinished, hending]; rfl
  rw [recordAll_eq, extend_of_isFinished hfinished]
  refine ⟨rfl, ?_, hending⟩
  intro i hi
  rw [Nat.lt_one_iff.mp hi]
  rfl

private theorem run_of_empty {p : Program} (l : Limits) (hp : p.size = 0) :
    (Machine.load p l κ).run.1.stepCount = 0 ∧ (Machine.load p l κ).run.2 = .ok [] := by
  have hcurrent : (Machine.load p l κ).begin.current? = none :=
    current?_eq_none_iff.mpr (decide_eq_true (Nat.le_of_eq hp))
  rw [run_eq, stepsToAnswer, advance_succ, step_of_end hcurrent, if_neg Status.noConfusion]
  exact ⟨rfl, rfl⟩

/-- A recording of a whole program either tells the answer of the run, with a snapshot for each instruction
executed and one of the start, or is full. -/
private theorem recordAll_cases (p : Program) (l : Limits) (cap : Nat) :
    (Reported (Machine.load p l κ).run.2 (Machine.load p l κ).run.1.stepCount (max cap 1) ∧
      (Machine.load p l κ).run.1.stepCount + 1 ≤ max cap 1 ∧
      Shows (Machine.load p l κ).startClock ((Machine.load p l κ).run.1.stepCount + 1)
        (.ofAnswer (Machine.load p l κ).run.2) (load p l cap κ).recordAll) ∨
    (¬ Reported (Machine.load p l κ).run.2 (Machine.load p l κ).run.1.stepCount (max cap 1) ∧
      max cap 1 ≤ (Machine.load p l κ).run.1.stepCount + 1 ∧
      Shows (Machine.load p l κ).startClock (max cap 1) .capped (load p l cap κ).recordAll) := by
  by_cases hp : p.size = 0
  · obtain ⟨hcount, hanswer⟩ := run_of_empty l hp
    rw [hcount, hanswer]
    have hroom : 0 + 1 ≤ max cap 1 := Nat.le_max_right cap 1
    exact Or.inl ⟨hroom, hroom, recordAll_empty l cap hp⟩
  obtain ⟨k, hmore, hcount, hlast, hrun⟩ := course_of_run (Machine.load p l κ)
  obtain ⟨hstatus, hmachine⟩ := advance_begin_load p l κ k
  rw [hmachine, step_withRunning] at hlast hrun
  rw [hmachine] at hcount
  rw [hstatus] at hmore
  obtain ⟨m, hm⟩ : ∃ m, m = (advance step k (Machine.load p l κ).startClock).1 := ⟨_, rfl⟩
  rw [← hm] at hlast hrun hcount
  have hcount : m.stepCount = k := hcount
  have hcurrent : m.current? ≠ none := by
    rw [hm]
    refine current?_advance hmore (fun hnone ↦ hp ?_)
    exact Nat.le_zero.mp (of_decide_eq_true (current?_eq_none_iff.mp hnone))
  have hstop : m.stopRequested = false := by
    rw [hm, stopRequested_advance]
    rfl
  have hn : (Machine.load p l κ).run.1.stepCount = m.step.1.stepCount := congrArg (·.1.stepCount) hrun
  have hanswer : (Machine.load p l κ).run.2 = (m.step.1.conclude m.step.2).2 := congrArg Prod.snd hrun
  have hreported := reported_iff hcurrent hlast hstop (max cap 1)
  obtain ⟨hlower, hupper⟩ := (stepWith_spec m none).stepCount_bounds
  rw [← step, hcount] at hlower hupper
  rw [hn, hanswer, hreported, hcount]
  by_cases hroom : k + 1 < max cap 1
  · refine Or.inl ⟨hroom, by omega, ?_⟩
    exact recordAll_room hp hm hmore hcurrent hlast hcount hroom
  · refine Or.inr ⟨hroom, by omega, ?_⟩
    exact recordAll_full hp hmore (Nat.le_of_not_lt hroom)

/-- The snapshots show the machines that the run passes, each behind as many instructions as its place tells. -/
private theorem Shows.passed {p : Program} {l : Limits} {count : Nat} {ending : Ending}
    (h : Shows (Machine.load p l κ).startClock count ending r)
    (hcount : count ≤ (Machine.load p l κ).run.1.stepCount + 1) :
    ∀ i < count, (advance step i (Machine.load p l κ).begin).1.stepCount = i ∧
      r.snapshots[i]? = some (.ofMachine (advance step i (Machine.load p l κ).begin).1) := by
  intro i hi
  constructor
  · exact stepCount_advance_begin (Nat.le_of_lt_succ (Nat.lt_of_lt_of_le hi hcount))
  · rw [(advance_begin_load p l κ i).2, h.snapshot_eq i hi]
    rfl

/-- The record of a program tells what its run does, if the time budget is used up behind the same instructions in
both. It holds a snapshot of the machine behind each number of instructions executed, as far as there is room; if the
answer of the run fits, it names the cause and the report of that answer and counts the instructions of the run, and
otherwise it is full. -/
theorem recordAll_agrees_with_run (p : Program) (l : Limits) (cap : Nat) {κ κ' : Clock}
    (alike : Clock.Alike l.timeout κ κ') :
    let start := (Machine.load p l κ).begin
    let run := (Machine.load p l κ).run
    let record := (load p l cap κ').recordAll.record
    let n := run.1.stepCount
    let c := max cap 1
    record.snapshots.size = min (n + 1) c ∧
      (∀ i < min (n + 1) c,
        let m := (advance step i start).1
        m.stepCount = i ∧
          record.snapshots[i]? =
            some { pc := m.pc, pointer := m.pointer, tape := m.tape, printed := m.printed
                   instruction := m.current?, inputPosition := m.inputPosition }) ∧
      (Reported run.2 n c →
        (match run.2 with
          | .ok _ => record.cause = .completed ∧ record.message? = none
          | .error fault =>
            record.cause = fault.cause ∧ record.message? = some fault.message) ∧
          record.totalSteps = n) ∧
      (¬ Reported run.2 n c →
        record.snapshots.size = c ∧ record.cause = .maxSteps ∧ record.message? = none) := by
  intro start run record n c
  have hrun : (Machine.load p l κ').run = (run.1.withClock κ', run.2) :=
    run_withClock (m := Machine.load p l κ) alike
  have hsteps : (Machine.load p l κ').run.1.stepCount = n := congrArg (·.1.stepCount) hrun
  have hanswer : (Machine.load p l κ').run.2 = run.2 := by rw [hrun]
  have hpassed (i : Nat) : (advance step i (Machine.load p l κ').begin).1 =
      (advance step i start).1.withClock κ' :=
    congrArg Prod.fst (advance_withClock (m := start) alike i)
  -- The recorder's own clock is alike to that of the run, so the run can be made under it.
  rcases recordAll_cases p l cap (κ := κ') with ⟨hreported, hroom, hshows⟩ |
    ⟨hreported, hfull, hshows⟩
  · rw [hsteps, hanswer] at hreported hshows
    rw [hsteps] at hroom
    have hsize : record.snapshots.size = n + 1 := hshows.size_eq
    have hending : record.ending = some (.ofAnswer run.2) := hshows.ending_eq
    rw [Nat.min_eq_left hroom]
    refine ⟨hsize, fun i hi ↦ ?_, ?_, fun hnot ↦ False.elim (hnot hreported)⟩
    · have hthere := hshows.passed (Nat.succ_le_succ (Nat.le_of_eq hsteps.symm)) i hi
      rw [hpassed i] at hthere
      exact hthere
    · intro _
      rw [Record.cause, Record.message?, Record.totalSteps, hending, hsize]
      refine ⟨?_, rfl⟩
      cases run.2 with
      | ok output => exact ⟨rfl, rfl⟩
      | error fault => exact ⟨rfl, rfl⟩
  · rw [hsteps, hanswer] at hreported
    have hsize : record.snapshots.size = c := hshows.size_eq
    have hending : record.ending = some .capped := hshows.ending_eq
    have hfull' : c ≤ n + 1 := hsteps ▸ hfull
    rw [Nat.min_eq_right hfull']
    refine ⟨hsize, fun i hi ↦ ?_, fun hyes ↦ False.elim (hreported hyes), ?_⟩
    · have hthere := hshows.passed hfull i hi
      rw [hpassed i] at hthere
      exact hthere
    · intro _
      rw [Record.cause, Record.message?, hending]
      exact ⟨hsize, rfl, rfl⟩

/-- A move past the last cell is reported if there is room for one snapshot more than the run needs. A time budget that
is used up at once is reported without it. -/
theorem recordAll_agrees_with_run_at_the_cap :
    let p := Program.ofList [.increment, .right]
    let l : Limits := { timeout := 1, maxMemory := 1, maxSteps := 9 }
    let l₀ : Limits := { timeout := 0, maxMemory := 1, maxSteps := 9 }
    let κ : Clock := .standard
    let κ' : Clock := {
      elapsed _ := 1000000, elapsed_pos _ := by decide, stepTime? := some fun n ↦ 700000 * n }
    let wide := (load p l 3 κ').recordAll.record
    let full := (load p l 2 κ').recordAll.record
    let late := (load p l₀ 2 κ').recordAll.record
    (Clock.Alike l.timeout κ κ' ∧
        (Machine.load p l κ).run.2 = .error (.memoryLimit 1 1) ∧
        (Machine.load p l κ).run.1.stepCount = 1) ∧
      (Clock.Alike l₀.timeout κ κ' ∧ (Machine.load p l₀ κ).run.2 = .error (.timeout 0)) ∧
      (wide.cause = .error ∧ wide.message? = some (Fault.memoryLimit 1 1).message ∧
        wide.totalSteps = 1) ∧
      (full.cause = .maxSteps ∧ full.message? = none) ∧
      late.cause = .timeout ∧ late.message? = some (Fault.timeout 0).message := by
  intro p l l₀ κ κ' wide full late
  have halike : Clock.Alike l.timeout κ κ' := by
    intro n
    simp [Clock.exceeds, Clock.standard, Clock.millisecond, l, κ, κ']
  have halike₀ : Clock.Alike l₀.timeout κ κ' := Clock.alike_zero κ κ'
  have hanswer : (Machine.load p l κ).run.2 = .error (.memoryLimit 1 1) := rfl
  have hsteps : (Machine.load p l κ).run.1.stepCount = 1 := rfl
  have hanswer₀ : (Machine.load p l₀ κ).run.2 = .error (.timeout 0) := rfl
  have hsteps₀ : (Machine.load p l₀ κ).run.1.stepCount = 1 := rfl
  obtain ⟨-, -, hreports, -⟩ := recordAll_agrees_with_run p l 3 halike
  obtain ⟨-, -, -, hfull⟩ := recordAll_agrees_with_run p l 2 halike
  obtain ⟨-, -, hlate, -⟩ := recordAll_agrees_with_run p l₀ 2 halike₀
  rw [hanswer, hsteps] at hreports hfull
  rw [hanswer₀, hsteps₀] at hlate
  obtain ⟨⟨hcause, hmessage⟩, htotal⟩ := hreports (Nat.lt_succ_self 2)
  exact ⟨⟨halike, hanswer, hsteps⟩, ⟨halike₀, hanswer₀⟩, ⟨hcause, hmessage, htotal⟩,
    (hfull (Nat.lt_irrefl 2)).2, (hlate (Nat.le_refl 2)).1⟩

end Recorder

end TapeLang
