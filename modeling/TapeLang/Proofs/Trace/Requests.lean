import TapeLang.Proofs.Machine.Calls
import TapeLang.Proofs.Trace.Browsing

/-!
# Requests to a recorder

A recorder may be asked for instructions one by one, with its own input or on a
feed, for snapshots, for everything, in any order. All of this comes down to one
instruction, one instruction on the feed, and the start of the clock
(`Request.preserves`). An instruction that is executed adds a snapshot, whatever is
answered behind it; one that is refused ends the recording and adds none (`Moves`).
So the snapshots count the instructions executed (`InStep`), and a recorder that has
ended stays at rest (`AtRest`).

Main statement: `recorder_stays_in_step`.
-/

namespace TapeLang

/-- A snapshot shows a machine where it stands. The cells read alike; fewer of them may be allocated. -/
structure Snapshot.Matches (s : Snapshot) (m : Machine) : Prop where
  pc_eq : s.pc = m.pc
  pointer_eq : s.pointer = m.pointer
  printed_eq : s.printed = m.printed
  inputPosition_eq : s.inputPosition = m.inputPosition
  get_eq : ∀ index, s.tape.get index = m.tape.get index

/-- It shows the machine as well that has failed in place of an instruction. -/
theorem Snapshot.Matches.untouched {s : Snapshot} {m m' : Machine} {requestsStop : Bool}
    {fault : Fault} (h : s.Matches m) (untouched : m.Untouched requestsStop m' fault) :
    s.Matches m' := by
  have hget : ∀ index, s.tape.get index = m'.tape.get index :=
    fun index ↦ (h.get_eq index).trans (untouched.get_eq index).symm
  rw [untouched.machine_eq]
  exact ⟨h.pc_eq, h.pointer_eq, h.printed_eq, h.inputPosition_eq, hget⟩

namespace Recorder

open Machine

variable {r r' : Recorder} {m : Machine} {feed : Feed} {cap : Nat} {s : Recorder × Feed}

inductive Request where
  | forward
  | forwardFed
  | seek (index : Nat)
  | get (index : Nat)
  | recordAll
  | record

/-- The recorder and the feed behind a request. A look at a snapshot or at the record as it stands leaves both as they
are. -/
def Request.make : Request → Recorder × Feed → Recorder × Feed
  | forward, (r, feed) => (r.forward.1, feed)
  | forwardFed, (r, feed) => ((r.forwardFed feed).1, (r.forwardFed feed).2.1)
  | seek index, (r, feed) => ((r.seek index).1, feed)
  | recordAll, (r, feed) => (r.recordAll, feed)
  | get _, s => s
  | record, s => s

def makeAll (requests : List Request) (s : Recorder × Feed) : Recorder × Feed :=
  requests.foldl (fun s request ↦ request.make s) s

section Preserves

variable {P : Recorder × Feed → Prop}
  (hforward : ∀ r feed, P (r, feed) → P (r.forward.1, feed))
  (hfed : ∀ r feed, P (r, feed) → P ((r.forwardFed feed).1, (r.forwardFed feed).2.1))
  (hclock : ∀ r feed, P (r, feed) → P (r.startClock, feed))

include hforward in
private theorem extend_preserves (n : Nat) (h : P (r, feed)) : P ((r.extend n).1, feed) := by
  induction n generalizing r with
  | zero => exact h
  | succ n ih =>
    rw [extend_succ]
    exact ih (hforward r feed h)

include hforward hfed hclock

/-- What one instruction, one instruction on the feed and the start of the clock keep is kept by every request. -/
theorem Request.preserves (request : Request) (h : P s) : P (request.make s) := by
  cases request with
  | forward => exact hforward s.1 s.2 h
  | forwardFed => exact hfed s.1 s.2 h
  | seek index =>
    show P ((s.1.seek index).1, s.2)
    rw [seek_fst]
    exact extend_preserves hforward _ h
  | recordAll => exact extend_preserves hforward (s.1.cap + 1) (hclock s.1 s.2 h)
  | get | record => exact h

theorem makeAll_preserves (requests : List Request) (h : P s) : P (makeAll requests s) := by
  induction requests generalizing s with
  | nil => exact h
  | cons request requests ih => exact ih (request.preserves hforward hfed hclock h)

end Preserves

/-! ### One instruction -/

/-- What asking for one instruction makes of a recorder. -/
inductive Moves (r : Recorder) : Recorder → Prop
  | ended (finished : r.isFinished = true) : Moves r r
  | full (unfinished : r.isFinished = false) (full : r.cap ≤ r.size) :
    Moves r { r with ending := some .capped }
  /-- The instruction is executed, and the machine behind it is shown. -/
  | executed {m : Machine} {ending : Option Ending} {time : Nat} (room : r.size < r.cap)
      (count : m.stepCount = r.machine.stepCount + 1)
      (pending : ending = none → m.current? ≠ none) : Moves r { r.keep m with ending, time }
  /-- The instruction is refused, or gets no byte. -/
  | refused {m : Machine} {requestsStop : Bool} {fault : Fault} {time : Nat} (room : r.size < r.cap)
      (untouched : r.machine.Untouched requestsStop m fault) :
    Moves r { r with machine := m, ending := some (.failed fault), time }

/-- In front of a recorder that has not ended there is an instruction. -/
def Pending (r : Recorder) : Prop := r.isFinished = false → r.machine.current? ≠ none

private theorem current?_of_settle (h : m.settle = .more) : m.current? ≠ none := by
  intro hnone
  rw [settle, current?_eq_none_iff.mp hnone, if_pos rfl] at h
  split at h
  · contradiction
  split at h <;> contradiction

/-- A note of a call is a move. -/
theorem moves_note {requestsStop : Bool} {status : Status} (hpending : r.machine.current? ≠ none)
    (hroom : r.size < r.cap) (h : r.machine.CallsTo requestsStop m status) :
    Moves r (r.timeStep.note m status).1 := by
  rw [timeStep_eq]
  generalize r.timeStep.time = time
  cases h with
  | ended current => exact absurd current hpending
  | declined refusal =>
    rw [note, refusal.followsEffect_eq]
    exact .refused hroom refusal.untouched
  | unserved failure =>
    exact .refused hroom (untouched_heed requestsStop fun _ h ↦ (Option.some.inj h).symm)
  | executed _ count =>
    cases hstatus : m.settle with
    | more =>
      have hgoesOn : r.ending = none → m.current? ≠ none := fun _ ↦ current?_of_settle hstatus
      exact .executed hroom count hgoesOn
    | finished => exact .executed hroom count fun h ↦ absurd h (Option.some_ne_none _)
    | failed fault =>
      rw [note, followsEffect_of_settle hstatus]
      exact .executed hroom count fun h ↦ absurd h (Option.some_ne_none _)

/-- A recorder behind a request for one instruction, which a call executes if it may go on. -/
def afterCall (r : Recorder) (call : Call) : Recorder :=
  match r.blocked? with
  | some r => r
  | none => (r.timeStep.note (call.make r.machine).1 (call.make r.machine).2).1

theorem forward_fst (r : Recorder) : r.forward.1 = r.afterCall .step := by
  unfold forward afterCall
  cases r.blocked? <;> rfl

theorem forwardFed_fst (r : Recorder) (feed : Feed) :
    (r.forwardFed feed).1 = r.afterCall (.stepFed feed) := by
  unfold forwardFed afterCall
  cases r.blocked? <;> rfl

/-- A request for one instruction is a move, whichever call executes it. -/
theorem Pending.moves (h : r.Pending) (call : Call) : Moves r (r.afterCall call) := by
  unfold afterCall blocked?
  cases hfinished : r.isFinished with
  | true => exact .ended hfinished
  | false =>
    rw [if_neg Bool.false_ne_true]
    rcases Nat.lt_or_ge r.size r.cap with hroom | hfull
    · rw [if_neg (Nat.not_le.mpr hroom)]
      exact moves_note (h hfinished) hroom (call.make_spec r.machine)
    · rw [if_pos hfull]
      exact .full hfinished hfull

theorem size_keep (r : Recorder) (m : Machine) (ending : Option Ending) (time : Nat) :
    ({ r.keep m with ending, time } : Recorder).size = r.size + 1 :=
  Array.size_push _

/-- A move keeps the snapshots taken before. -/
theorem Moves.snapshots_prefix (h : Moves r r') :
    r.snapshots.toList <+: r'.snapshots.toList := by
  cases h with
  | ended | full | refused => exact List.prefix_rfl
  | executed =>
    show _ <+: (r.snapshots.push _).toList
    rw [Array.toList_push]
    exact List.prefix_append _ _

/-! ### Recorders in step -/

/-- A recorder whose snapshots keep step with its machine. -/
structure InStep (cap : Nat) (r : Recorder) : Prop where
  cap_eq : r.cap = max cap 1
  size_le : r.size ≤ r.cap
  size_eq : r.size = r.machine.stepCount + 1
  last : ∃ snapshot, r.last? = some snapshot ∧ snapshot.Matches r.machine
  pending : r.Pending

theorem inStep_load (p : Program) (l : Limits) (cap : Nat) (κ : Clock) :
    InStep cap (load p l cap κ) := by
  refine ⟨rfl, Nat.le_max_right cap 1, rfl, ⟨_, rfl, rfl, rfl, rfl, rfl, fun _ ↦ rfl⟩, ?_⟩
  intro hunfinished hnone
  have hending : (load p l cap κ).ending = some .completed := if_pos (current?_eq_none_iff.mp hnone)
  rw [isFinished, hending] at hunfinished
  contradiction

theorem InStep.startClock (h : InStep cap r) : InStep cap r.startClock := by
  obtain ⟨snapshot, hlast, hmatches⟩ := h.last
  exact ⟨h.cap_eq, h.size_le, h.size_eq, ⟨snapshot, hlast, { hmatches with }⟩, h.pending⟩

/-- A move keeps the snapshots in step with the machine. -/
theorem InStep.moves (h : InStep cap r) (hmove : Moves r r') : InStep cap r' := by
  obtain ⟨snapshot, hlast, hmatches⟩ := h.last
  cases hmove with
  | ended => exact h
  | full => exact ⟨h.cap_eq, h.size_le, h.size_eq, h.last, nofun⟩
  | @executed m ending time room count pending =>
    have hsize := r.size_keep m ending time
    have hshown : (Snapshot.ofMachine m).Matches m := ⟨rfl, rfl, rfl, rfl, fun _ ↦ rfl⟩
    refine ⟨h.cap_eq, Nat.le_trans (Nat.le_of_eq hsize) room, ?_,
      ⟨.ofMachine m, Array.back?_push, hshown⟩, fun hunfinished ↦ pending ?_⟩
    · show _ = m.stepCount + 1
      rw [hsize, count, h.size_eq]
    · exact Option.isNone_iff_eq_none.mp (Option.isSome_eq_false_iff.mp hunfinished)
  | @refused m requestsStop fault time room untouched =>
    refine ⟨h.cap_eq, h.size_le, ?_, ⟨snapshot, hlast, hmatches.untouched untouched⟩, nofun⟩
    show r.size = m.stepCount + 1
    rw [untouched.machine_eq]
    exact h.size_eq

/-! ### Requests one after another -/

/-- A recorder in step that begins with the snapshots of another one. -/
structure Continues (cap : Nat) (r r' : Recorder) : Prop where
  inStep : InStep cap r'
  begins : r.snapshots.toList <+: r'.snapshots.toList

theorem Continues.moves {r'' : Recorder} (h : Continues cap r r') (hmove : Moves r' r'') :
    Continues cap r r'' :=
  ⟨h.inStep.moves hmove, h.begins.trans hmove.snapshots_prefix⟩

/-- Requests keep the snapshots in step with the machine, and the snapshots taken before. -/
theorem InStep.continues (h : InStep cap s.1) (requests : List Request) :
    Continues cap s.1 (makeAll requests s).1 := by
  refine makeAll_preserves (P := fun s' ↦ Continues cap s.1 s'.1) ?_ ?_ ?_ requests
    ⟨h, List.prefix_rfl⟩
  · intro r feed hr
    rw [forward_fst]
    exact hr.moves (hr.inStep.pending.moves .step)
  · intro r feed hr
    rw [forwardFed_fst]
    exact hr.moves (hr.inStep.pending.moves (.stepFed feed))
  · intro r feed hr
    exact ⟨hr.inStep.startClock, hr.begins⟩

/-- A recorder at rest, whose clock may have been started, and its feed. -/
inductive AtRest (s : Recorder × Feed) : Recorder × Feed → Prop
  | same : AtRest s s
  | clocked : AtRest s (s.1.startClock, s.2)

theorem AtRest.isFinished_eq {s' : Recorder × Feed} (h : AtRest s s') :
    s'.1.isFinished = s.1.isFinished := by
  cases h <;> rfl

theorem forwardFed_of_isFinished (h : r.isFinished = true) (feed : Feed) :
    r.forwardFed feed = (r, feed, none) := by
  rw [forwardFed, blocked?, h]
  rfl

/-- A recorder that has ended is at rest. All that requests do is to start its clock. -/
theorem atRest_makeAll (h : s.1.isFinished = true) (requests : List Request) :
    AtRest s (makeAll requests s) := by
  refine makeAll_preserves (P := AtRest s) ?_ ?_ ?_ requests .same
  · intro r feed hr
    rw [forward_of_isFinished (hr.isFinished_eq.trans h)]
    exact hr
  · intro r feed hr
    rw [forwardFed_of_isFinished (hr.isFinished_eq.trans h)]
    exact hr
  · intro r feed hr
    cases hr with
    | same | clocked => exact .clocked

/-- A recorder and the feed it reads from, wherever requests have brought them. -/
structure Steady (cap : Nat) (s : Recorder × Feed) : Prop where
  size_pos : 1 ≤ s.1.size
  size_le : s.1.size ≤ max cap 1
  /-- The snapshots are the one of the start and one for each instruction executed. -/
  size_eq : s.1.size = 1 + s.1.machine.stepCount
  /-- The last of them shows the machine as it stands. -/
  last : ∃ snapshot, s.1.last? = some snapshot ∧ snapshot.Matches s.1.machine
  /-- Whatever is asked for later, they stay the first ones. -/
  kept : ∀ later, s.1.snapshots.toList <+: (makeAll later s).1.snapshots.toList
  /-- A request to record everything brings the recording to its end. -/
  ends : s.1.recordAll.isFinished = true
  /-- Behind the end of the recording nothing is executed, read from the feed or recorded, whatever is asked for. -/
  closed : s.1.isFinished = true → ∀ later,
    ((makeAll later s).1.machine = s.1.machine ∨
        (makeAll later s).1.machine = s.1.machine.startClock) ∧
      (makeAll later s).2 = s.2 ∧ (makeAll later s).1.record = s.1.record

theorem InStep.steady (h : InStep cap s.1) : Steady cap s where
  size_pos := by
    rw [h.size_eq]
    exact Nat.succ_pos _
  size_le := h.cap_eq ▸ h.size_le
  size_eq := h.size_eq.trans (Nat.add_comm _ _)
  last := h.last
  kept later := (h.continues later).begins
  ends := isFinished_extend (r := s.1.startClock) h.size_le
    (Nat.lt_add_left _ (Nat.lt_succ_self _))
  closed hfinished later := by
    have hrest := atRest_makeAll hfinished later
    generalize makeAll later s = s' at hrest
    cases hrest with
    | same => exact ⟨Or.inl rfl, rfl, rfl⟩
    | clocked => exact ⟨Or.inr rfl, rfl, rfl⟩

/-- Whatever is asked of a recorder, and in whichever order, its snapshots number one more than the instructions its
machine has executed, and at most the cap; the last of them shows the machine as it stands. None of them is changed or
lost by what is asked for later, and to ask for everything ends the recording. Once it has ended, no request executes
an instruction, asks the feed for a byte, adds a snapshot or changes the ending. -/
theorem recorder_stays_in_step (p : Program) (l : Limits) (cap : Nat) (κ : Clock) (feed : Feed)
    (requests : List Request) : Steady cap (makeAll requests (load p l cap κ, feed)) :=
  ((inStep_load p l cap κ).continues (s := (load p l cap κ, feed)) requests).inStep.steady

/-- A recorder whose feed gives one byte of two. The missing one ends the recording, and is not asked for again. -/
theorem recorder_stays_in_step_behind_a_missing_byte :
    let p := Program.ofList [.input, .input]
    let s := makeAll [.forwardFed, .seek 0, .forwardFed] (load p {} 10, .ofBytes [7])
    let s' := makeAll [.recordAll, .forwardFed, .seek 5] s
    s.1.ending = some (.failed (.inputUnavailable 1 .closed)) ∧ s.2.calls = 2 ∧ s.1.size = 2 ∧
      s'.2 = s.2 ∧ s'.1.record = s.1.record := by
  intro p s s'
  have hsteady : Steady 10 s := recorder_stays_in_step p {} 10 .standard (.ofBytes [7]) _
  have hending : s.1.ending = some (.failed (.inputUnavailable 1 .closed)) := by decide +kernel
  have hfinished : s.1.isFinished = true := by
    rw [isFinished, hending]
    rfl
  obtain ⟨-, hfeed, hrecord⟩ := hsteady.closed hfinished [.recordAll, .forwardFed, .seek 5]
  exact ⟨hending, by decide +kernel, by decide +kernel, hfeed, hrecord⟩

end Recorder

end TapeLang
