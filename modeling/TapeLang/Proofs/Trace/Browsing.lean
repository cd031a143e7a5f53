import TapeLang.Proofs.Trace.Recording

/-!
# Browsing a recording

A recorder executes only as far as it is asked to. Whatever is asked for, and in
whichever order, it shows the beginning of one recording: the one it would make
if it were asked to record everything. Each request that executes an instruction
brings the recorder one snapshot closer to that recording (`LeadsTo`), and one
that does not is the last. The clock, which only a whole recording starts, makes
no difference unless it cuts the recording off (`TimedOut`).

Main statement: `browsing_shows_the_whole_recording`.
-/

namespace TapeLang

namespace Recorder

variable {p : Program} {l : Limits} {cap : Nat} {κ κ' : Clock} {r full : Recorder}

/-- A recorder that requests lead to. Looking at a snapshot or at the record as it stands is no move of the recorder. -/
inductive Browsed (p : Program) (l : Limits) (cap : Nat) (κ : Clock) : Recorder → Prop
  | load : Browsed p l cap κ (.load p l cap κ)
  | forward {r : Recorder} (h : Browsed p l cap κ r) : Browsed p l cap κ r.forward.1
  | seek {r : Recorder} (h : Browsed p l cap κ r) (index : Nat) :
    Browsed p l cap κ (r.seek index).1

/-! ### One request -/

/-- What a request does: nothing if the recording has ended, and else close it if it is full, or note a step. -/
theorem forward_cases (r : Recorder) :
    r.isFinished = true ∧ r.forward = (r, none) ∨
      r.isFinished = false ∧ r.cap ≤ r.size ∧
        r.forward = ({ r with ending := some .capped }, none) ∨
      r.isFinished = false ∧ r.size < r.cap ∧
        r.forward = r.timeStep.note r.machine.step.1 r.machine.step.2 := by
  cases hfinished : r.isFinished with
  | true => exact Or.inl ⟨rfl, forward_of_isFinished hfinished⟩
  | false =>
    rcases Nat.lt_or_ge r.size r.cap with hroom | hfull
    · exact Or.inr (Or.inr ⟨rfl, hroom, forward_of_room hfinished hroom⟩)
    · exact Or.inr (Or.inl ⟨rfl, hfull, forward_of_full hfinished hfull⟩)

/-- A note of a step takes over the machine behind it. -/
theorem note_frame (r : Recorder) (m : Machine) (status : Status) :
    (r.note m status).1.machine = m ∧ (r.note m status).1.cap = r.cap := by
  cases status with
  | more | finished => exact ⟨rfl, rfl⟩
  | failed fault =>
    rw [note]
    split <;> exact ⟨rfl, rfl⟩

/-- A request makes a step of the machine at most. -/
theorem forward_frame (r : Recorder) :
    (r.forward.1.machine = r.machine ∨ r.forward.1.machine = r.machine.step.1) ∧
      r.forward.1.cap = r.cap := by
  rcases r.forward_cases with ⟨-, heq⟩ | ⟨-, -, heq⟩ | ⟨-, -, heq⟩
  · rw [heq]
    exact ⟨Or.inl rfl, rfl⟩
  · rw [heq]
    exact ⟨Or.inl rfl, rfl⟩
  · obtain ⟨hmachine, hcap⟩ := r.timeStep.note_frame r.machine.step.1 r.machine.step.2
    rw [heq]
    exact ⟨Or.inr hmachine, hcap.trans r.timeStep_cap⟩

/-- A request that is not answered is the last one. -/
theorem isFinished_of_unanswered (h : r.forward.2 = none) : r.forward.1.isFinished = true := by
  rcases r.forward_cases with ⟨hfinished, heq⟩ | ⟨-, -, heq⟩ | ⟨-, -, heq⟩
  · rw [heq]
    exact hfinished
  · rw [heq]
    rfl
  · rw [heq] at h ⊢
    cases hstatus : r.machine.step.2 with
    | failed => rfl
    | more | finished =>
      rw [hstatus, note, last?, keep, Array.back?_push] at h
      contradiction

/-- An answer is a snapshot that has been added. -/
theorem size_of_answered {s : Snapshot} (h : r.forward.2 = some s) :
    r.forward.1.size = r.size + 1 ∧ r.size < r.cap := by
  rcases r.forward_cases with ⟨-, heq⟩ | ⟨-, -, heq⟩ | ⟨-, hroom, heq⟩
  · rw [heq] at h
    contradiction
  · rw [heq] at h
    contradiction
  · refine ⟨?_, hroom⟩
    rw [heq] at h ⊢
    cases hstatus : r.machine.step.2 with
    | failed fault =>
      rw [hstatus] at h
      contradiction
    | more | finished =>
      show (r.timeStep.snapshots.push _).size = r.size + 1
      rw [Array.size_push, r.timeStep_snapshots, size]

/-! ### Requests one after another -/

/-- An extension by one request more makes a request and extends behind it. -/
theorem extend_succ (n : Nat) (r : Recorder) :
    (r.extend (n + 1)).1 = (r.forward.1.extend n).1 := by
  rw [extend]
  split
  · next r' s heq => rw [heq]
  · next r' heq =>
    have hfinished := isFinished_of_unanswered (congrArg Prod.snd heq)
    rw [heq] at hfinished
    rw [heq, extend_of_isFinished hfinished]

theorem extend_extend (a b : Nat) (r : Recorder) :
    ((r.extend a).1.extend b).1 = (r.extend (a + b)).1 := by
  induction a generalizing r with
  | zero => rw [Nat.zero_add, extend]
  | succ a ih => rw [Nat.add_right_comm, extend_succ, extend_succ, ih]

/-- A recorder comes to one end only. -/
theorem extend_eq_of_isFinished {a b : Nat} (ha : (r.extend a).1.isFinished = true)
    (hb : (r.extend b).1.isFinished = true) : (r.extend a).1 = (r.extend b).1 :=
  calc (r.extend a).1
      _ = ((r.extend a).1.extend b).1 := (extend_of_isFinished ha b).symm
      _ = ((r.extend b).1.extend a).1 := by rw [extend_extend, extend_extend, Nat.add_comm]
      _ = (r.extend b).1 := extend_of_isFinished hb a

/-- To seek a snapshot is to extend the recording up to it. -/
theorem seek_fst (r : Recorder) (index : Nat) :
    (r.seek index).1 = (r.extend (index + 1 - r.size)).1 := by
  unfold seek
  split
  · next r' heq => rw [heq]
  · next r' heq => rw [heq]

/-- An extension past the cap ends the recording. -/
theorem isFinished_extend {n : Nat} (h : r.size ≤ r.cap) (hn : r.cap < r.size + n) :
    (r.extend n).1.isFinished = true := by
  induction n generalizing r with
  | zero => exact absurd h (Nat.not_le.mpr hn)
  | succ n ih =>
    rw [extend_succ]
    cases hanswer : r.forward.2 with
    | none => rw [extend_of_isFinished (isFinished_of_unanswered hanswer),
        isFinished_of_unanswered hanswer]
    | some s =>
      obtain ⟨hsize, hroom⟩ := size_of_answered hanswer
      refine ih ?_ ?_
      · rw [hsize, r.forward_frame.2]
        exact hroom
      · rw [hsize, r.forward_frame.2]
        omega

/-! ### Calm recorders -/

/-- A recorder within its cap, with no clock and no request to stop. -/
structure Calm (r : Recorder) : Prop where
  size_le : r.size ≤ r.cap
  clockRunning_eq : r.machine.clockRunning = false
  stopRequested_eq : r.machine.stopRequested = false

theorem calm_load (p : Program) (l : Limits) (cap : Nat) (κ : Clock) : (load p l cap κ).Calm :=
  ⟨Nat.le_max_right cap 1, rfl, rfl⟩

/-- A request to a calm recorder either adds a snapshot and answers with it, or adds none. -/
theorem Calm.forward_cases (h : r.Calm) :
    (∃ s, r.forward.2 = some s ∧ r.forward.1.snapshots = r.snapshots.push s ∧ r.size < r.cap) ∨
      r.forward.2 = none ∧ r.forward.1.snapshots = r.snapshots := by
  rcases r.forward_cases with ⟨hfinished, heq⟩ | ⟨-, -, heq⟩ | ⟨-, hroom, heq⟩
  · rw [heq]
    exact Or.inr ⟨rfl, rfl⟩
  · rw [heq]
    exact Or.inr ⟨rfl, rfl⟩
  · rw [heq]
    cases hstatus : r.machine.step.2 with
    | more | finished =>
      rw [← r.timeStep_snapshots]
      exact Or.inl ⟨_, Array.back?_push, rfl, hroom⟩
    | failed fault =>
      have heffect :=
        Machine.followsEffect_of_failed h.clockRunning_eq h.stopRequested_eq hstatus
      rw [note, heffect]
      exact Or.inr ⟨rfl, r.timeStep_snapshots⟩

/-- A calm recorder stays calm. -/
theorem Calm.forward (h : r.Calm) : r.forward.1.Calm := by
  obtain ⟨-, hclock, -, hstop⟩ := r.machine.flags_stepWith none
  obtain ⟨hmachine, hcap⟩ := r.forward_frame
  have hsize : r.forward.1.size ≤ r.forward.1.cap := by
    rw [hcap, size]
    rcases h.forward_cases with ⟨s, -, hpush, hroom⟩ | ⟨-, hsame⟩
    · rw [hpush, Array.size_push]
      exact hroom
    · rw [hsame]
      exact h.size_le
  have hflags : r.forward.1.machine.clockRunning = r.machine.clockRunning ∧
      r.forward.1.machine.stopRequested = r.machine.stopRequested := by
    rcases hmachine with hmachine | hmachine
    · rw [hmachine]
      exact ⟨rfl, rfl⟩
    · rw [hmachine]
      exact ⟨hclock, hstop⟩
  exact ⟨hsize, hflags.1.trans h.clockRunning_eq, hflags.2.trans h.stopRequested_eq⟩

/-- An extension keeps what is recorded. -/
theorem Calm.snapshots_extend (h : r.Calm) (n : Nat) :
    r.snapshots.toList <+: (r.extend n).1.snapshots.toList := by
  induction n generalizing r with
  | zero => exact List.prefix_rfl
  | succ n ih =>
    rw [extend_succ]
    refine List.IsPrefix.trans ?_ (ih h.forward)
    rcases h.forward_cases with ⟨s, -, hpush, -⟩ | ⟨-, hsame⟩
    · rw [hpush, Array.toList_push]
      exact List.prefix_append _ _
    · exact hsame ▸ List.prefix_rfl

/-! ### The whole recording -/

/-- Requests to a calm recorder lead to a recording that has ended. -/
structure LeadsTo (r full : Recorder) : Prop where
  calm : r.Calm
  finished : full.isFinished = true
  reaches : ∃ n, (r.extend n).1 = full

namespace LeadsTo

/-- A recorder that has ended has got where requests lead it. -/
theorem eq_of_isFinished (h : LeadsTo r full) (hr : r.isFinished = true) : r = full := by
  obtain ⟨n, hn⟩ := h.reaches
  rwa [extend_of_isFinished hr] at hn

theorem forward (h : LeadsTo r full) : LeadsTo r.forward.1 full := by
  refine ⟨h.calm.forward, h.finished, ?_⟩
  obtain ⟨n, hn⟩ := h.reaches
  cases n with
  | zero =>
    obtain rfl : r = full := hn
    exact ⟨0, congrArg Prod.fst (forward_of_isFinished h.finished)⟩
  | succ n =>
    rw [extend_succ] at hn
    exact ⟨n, hn⟩

theorem extend (h : LeadsTo r full) (n : Nat) : LeadsTo (r.extend n).1 full := by
  induction n generalizing r with
  | zero => exact h
  | succ n ih =>
    rw [extend_succ]
    exact ih h.forward

/-- What is recorded is the beginning of the whole recording. -/
theorem snapshots_eq (h : LeadsTo r full) :
    r.snapshots.toList = full.snapshots.toList.take r.size := by
  obtain ⟨n, hn⟩ := h.reaches
  have hbegin := h.calm.snapshots_extend n
  rw [hn] at hbegin
  exact List.prefix_iff_eq_take.mp hbegin

theorem size_le (h : LeadsTo r full) : r.size ≤ full.size := by
  have hlength := congrArg List.length h.snapshots_eq
  rw [List.length_take] at hlength
  calc r.size
      _ = min r.size full.size := hlength
      _ ≤ full.size := Nat.min_le_right _ _

/-- A snapshot taken is the one of the whole recording at its place. -/
theorem get?_eq (h : LeadsTo r full) (index : Nat) :
    r.get? index = if index < r.size then full.snapshots[index]? else none := by
  rw [get?, ← Array.getElem?_toList, ← Array.getElem?_toList, h.snapshots_eq, List.getElem?_take]

/-- A request is answered with the next snapshot of the whole recording. -/
theorem forward_eq (h : LeadsTo r full) :
    r.forward.2 = full.snapshots[r.size]? ∧ r.forward.1.size = min (r.size + 1) full.size := by
  rcases h.calm.forward_cases with ⟨s, hanswer, hpush, -⟩ | ⟨hnone, hsame⟩
  · have hsize : r.forward.1.size = r.size + 1 := by rw [size, hpush, Array.size_push]; rfl
    have hnext := h.forward.get?_eq r.size
    rw [get?, hpush, size, Array.getElem?_push_size, ← size, hsize, if_pos (Nat.lt_succ_self _)]
      at hnext
    refine ⟨hanswer.trans hnext, ?_⟩
    rw [hsize, Nat.min_eq_left]
    rw [← hsize]
    exact h.forward.size_le
  · have hfull := h.forward.eq_of_isFinished (isFinished_of_unanswered hnone)
    rw [← hfull, hnone, size, size, hsame, Array.getElem?_size]
    exact ⟨rfl, (Nat.min_eq_right (Nat.le_succ _)).symm⟩

/-- An extension goes on up to the end of the whole recording, and is answered throughout if it stays within it. -/
theorem extend_eq (h : LeadsTo r full) (n : Nat) :
    (r.extend n).1.size = min (r.size + n) full.size ∧
      (r.extend n).2 = decide (r.size + n ≤ full.size) := by
  induction n generalizing r with
  | zero => exact ⟨(Nat.min_eq_left h.size_le).symm, (decide_eq_true h.size_le).symm⟩
  | succ n ih =>
    obtain ⟨hanswer, hsize⟩ := h.forward_eq
    cases hforward : r.forward.2 with
    | some s =>
      have heq : r.extend (n + 1) = r.forward.1.extend n := by
        rw [Recorder.extend, show r.forward = (r.forward.1, some s) from Prod.ext rfl hforward]
      obtain ⟨hlt, -⟩ := Array.getElem?_eq_some_iff.mp (hanswer.symm.trans hforward)
      have hlt : r.size < full.size := hlt
      obtain ⟨hsize', hanswered⟩ := ih h.forward
      have hnext : r.forward.1.size + n = r.size + (n + 1) := by omega
      rw [heq, hsize', hanswered, hnext]
      exact ⟨rfl, rfl⟩
    | none =>
      have heq : r.extend (n + 1) = (r.forward.1, false) := by
        rw [Recorder.extend, show r.forward = (r.forward.1, none) from Prod.ext rfl hforward]
      have hge : full.size ≤ r.size := Array.getElem?_eq_none_iff.mp (hanswer.symm.trans hforward)
      rw [heq, hsize]
      exact ⟨by omega, (decide_eq_false (by omega)).symm⟩

/-- A snapshot asked for is the one of the whole recording at its place, and what is recorded then reaches up to it, as
far as there is one. -/
theorem seek_eq (h : LeadsTo r full) (index : Nat) :
    (r.seek index).2 = full.snapshots[index]? ∧
      (r.seek index).1.size = max r.size (min (index + 1) full.size) := by
  obtain ⟨hsize, hanswered⟩ := h.extend_eq (index + 1 - r.size)
  have hextended := (h.extend (index + 1 - r.size)).get?_eq index
  have hle := h.size_le
  unfold seek
  generalize r.extend (index + 1 - r.size) = extended at hsize hanswered hextended
  obtain ⟨r', answered⟩ := extended
  cases answered with
  | true =>
    have hwithin := of_decide_eq_true hanswered.symm
    rw [if_pos (by omega)] at hextended
    exact ⟨hextended, hsize.trans (by omega)⟩
  | false =>
    have hbeyond := of_decide_eq_false hanswered.symm
    refine ⟨(Array.getElem?_eq_none ?_).symm, hsize.trans (by omega)⟩
    show full.size ≤ index
    omega

end LeadsTo

/-! ### The clock -/

def startClock (r : Recorder) : Recorder := { r with machine := r.machine.startClock }

/-- The time budget has cut the recording off. -/
def TimedOut (r : Recorder) : Prop := ∃ limit, r.ending = some (.failed (.timeout limit))

theorem TimedOut.isFinished_eq (h : r.TimedOut) : r.isFinished = true := by
  obtain ⟨limit, hending⟩ := h
  rw [isFinished, hending]
  rfl

theorem timeStep_startClock (r : Recorder) : r.startClock.timeStep = r.timeStep.startClock := by
  have hclock : r.startClock.machine.clock = r.machine.clock := rfl
  unfold timeStep
  rw [hclock]
  cases r.machine.clock.stepTime? <;> rfl

/-- A note of a step is the same with the clock. -/
theorem note_startClock (r : Recorder) (m : Machine) (status : Status) :
    r.startClock.note m.startClock status =
      ((r.note m status).1.startClock, (r.note m status).2) := by
  cases status with
  | more | finished => rfl
  | failed fault =>
    rw [note, note]
    split <;> rfl

/-- The clock does not change what a calm recorder does, unless it cuts the recording off. -/
theorem Calm.forward_startClock (h : r.Calm) :
    r.startClock.forward.1 = r.forward.1.startClock ∨ r.startClock.forward.1.TimedOut := by
  rcases r.forward_cases with ⟨hfinished, heq⟩ | ⟨hfinished, hfull, heq⟩ | ⟨hfinished, hroom, heq⟩
  · have hthere : r.startClock.forward = _ := forward_of_isFinished hfinished
    rw [hthere, heq]
    exact Or.inl rfl
  · have hthere : r.startClock.forward = _ := forward_of_full hfinished hfull
    rw [hthere, heq]
    exact Or.inl rfl
  · have hthere : r.startClock.forward =
        r.startClock.timeStep.note r.machine.startClock.step.1 r.machine.startClock.step.2 :=
      forward_of_room hfinished hroom
    have hstep := Machine.step_startClock h.clockRunning_eq h.stopRequested_eq
    rw [hthere, heq, hstep]
    split
    · exact Or.inr ⟨_, rfl⟩
    · rw [timeStep_startClock, note_startClock]
      exact Or.inl rfl

theorem Calm.extend_startClock (h : r.Calm) (n : Nat) :
    (r.startClock.extend n).1 = (r.extend n).1.startClock ∨
      (r.startClock.extend n).1.TimedOut := by
  induction n generalizing r with
  | zero => exact Or.inl rfl
  | succ n ih =>
    rw [extend_succ, extend_succ]
    rcases h.forward_startClock with hsame | hlate
    · rw [hsame]
      exact ih h.forward
    · rw [extend_of_isFinished hlate.isFinished_eq]
      exact Or.inr hlate

/-- The recorder with its machine timed by another clock, and another time counted. -/
def retime (r : Recorder) (κ : Clock) (time : Nat) : Recorder :=
  { r with machine := r.machine.withClock κ, time }

theorem timeStep_retime (r : Recorder) (κ : Clock) (time : Nat) :
    (r.retime κ time).timeStep = r.timeStep.retime κ (r.retime κ time).timeStep.time := by
  rw [r.timeStep_eq]
  exact timeStep_eq _

theorem note_retime (r : Recorder) (m : Machine) (status : Status) (κ : Clock) (time : Nat) :
    (r.retime κ time).note (m.withClock κ) status =
      ((r.note m status).1.retime κ time, (r.note m status).2) := by
  cases status with
  | more | finished => rfl
  | failed fault =>
    rw [note, note]
    split <;> rfl

/-- A clock that is alike, and any clock as long as none has been started. -/
def Retimes (r : Recorder) (κ : Clock) : Prop :=
  r.machine.clockRunning = true → Clock.Alike r.machine.limits.timeout r.machine.clock κ

theorem Calm.retimes (h : r.Calm) (κ : Clock) : r.Retimes κ :=
  fun hclock ↦ absurd hclock (Bool.eq_false_iff.mp h.clockRunning_eq)

/-- Such a clock only changes the time counted. -/
theorem Retimes.forward_eq (h : r.Retimes κ) (time : Nat) :
    ∃ time', (r.retime κ time).forward.1 = r.forward.1.retime κ time' := by
  rcases r.forward_cases with ⟨hfinished, heq⟩ | ⟨hfinished, hfull, heq⟩ | ⟨hfinished, hroom, heq⟩
  · have hthere : (r.retime κ time).forward = _ := forward_of_isFinished hfinished
    rw [hthere, heq]
    exact ⟨time, rfl⟩
  · have hthere : (r.retime κ time).forward = _ := forward_of_full hfinished hfull
    rw [hthere, heq]
    exact ⟨time, rfl⟩
  · have hthere : (r.retime κ time).forward =
        (r.retime κ time).timeStep.note (r.machine.withClock κ).step.1
          (r.machine.withClock κ).step.2 :=
      forward_of_room hfinished hroom
    have hstep : (r.machine.withClock κ).step = _ :=
      Machine.stepWith_withClock r.machine none fun hclock ↦ h hclock _
    rw [hthere, heq, hstep, timeStep_retime, note_retime]
    exact ⟨_, rfl⟩

theorem Retimes.forward (h : r.Retimes κ) : r.forward.1.Retimes κ := by
  rcases r.forward_frame.1 with hmachine | hmachine
  · rw [Retimes, hmachine]
    exact h
  · have hspec := Machine.stepWith_spec r.machine none
    rw [Retimes, hmachine, Machine.step, hspec.limits_eq, hspec.clock_eq,
      (r.machine.flags_stepWith none).2.1]
    exact h

theorem Retimes.extend_eq (h : r.Retimes κ) (n time : Nat) :
    ∃ time', ((r.retime κ time).extend n).1 = (r.extend n).1.retime κ time' := by
  induction n generalizing r time with
  | zero => exact ⟨time, rfl⟩
  | succ n ih =>
    obtain ⟨time', hsame⟩ := h.forward_eq time
    rw [extend_succ, extend_succ, hsame]
    exact ih h.forward time'

/-- Recordings of everything under clocks that are alike give the same record apart from the time the steps took. -/
theorem untimed_recordAll (alike : Clock.Alike l.timeout κ κ') :
    (load p l cap κ).recordAll.record.untimed = (load p l cap κ').recordAll.record.untimed := by
  have hretimes : (load p l cap κ).startClock.Retimes κ' := fun _ ↦ alike
  obtain ⟨time, htime⟩ := hretimes.extend_eq (max cap 1 + 1) 0
  have hthere : (load p l cap κ').recordAll = (load p l cap κ).recordAll.retime κ' time := htime
  rw [hthere]
  rfl

/-! ### Browsed recorders -/

/-- The recording that a recorder in front of the first instruction leads to. -/
def whole (p : Program) (l : Limits) (cap : Nat) (κ : Clock) : Recorder :=
  ((load p l cap κ).extend (max cap 1 + 1)).1

theorem leadsTo_load (p : Program) (l : Limits) (cap : Nat) (κ : Clock) :
    LeadsTo (load p l cap κ) (whole p l cap κ) := by
  have hcalm := calm_load p l cap κ
  exact ⟨hcalm, isFinished_extend hcalm.size_le (Nat.lt_add_left _ (Nat.lt_succ_self _)), _, rfl⟩

/-- All that requests do is to extend the recording. -/
theorem Browsed.exists_extend (h : Browsed p l cap κ r) :
    ∃ n, r = ((Recorder.load p l cap κ).extend n).1 := by
  induction h with
  | load => exact ⟨0, rfl⟩
  | forward _ ih =>
    obtain ⟨n, rfl⟩ := ih
    exact ⟨n + 1, by rw [← extend_extend, extend_succ, extend]⟩
  | seek _ index ih =>
    obtain ⟨n, rfl⟩ := ih
    exact ⟨_, by rw [seek_fst, extend_extend]⟩

/-- The recording of everything is the one that requests lead to, unless the time budget cuts it off. -/
theorem recordAll_load (intime : ¬ (load p l cap κ).recordAll.TimedOut) :
    (load p l cap κ).recordAll = (whole p l cap κ).startClock :=
  ((calm_load p l cap κ).extend_startClock (max cap 1 + 1)).resolve_right intime

/-- It is whole no matter what has been recorded before. -/
theorem Browsed.recordAll_eq (h : Browsed p l cap κ r)
    (intime : ¬ (Recorder.load p l cap κ).recordAll.TimedOut) : r.recordAll = (Recorder.load p l cap κ).recordAll := by
  have hcalm := calm_load p l cap κ
  obtain ⟨n, rfl⟩ := h.exists_extend
  have hextended := (leadsTo_load p l cap κ).extend n
  generalize hr : ((Recorder.load p l cap κ).extend n).1 = r at hextended ⊢
  have hends : (Recorder.load p l cap κ).recordAll.isFinished = true :=
    isFinished_extend (r := (Recorder.load p l cap κ).startClock) hcalm.size_le
      (Nat.lt_add_left _ (Nat.lt_succ_self _))
  have hends' : r.recordAll.isFinished = true :=
    isFinished_extend (r := r.startClock) hextended.calm.size_le
      (Nat.lt_add_left _ (Nat.lt_succ_self _))
  rcases hcalm.extend_startClock n with hsame | hlate
  · have hsplit : r.recordAll = ((Recorder.load p l cap κ).startClock.extend (n + (r.cap + 1))).1 := by
      rw [← extend_extend, hsame, hr]
      rfl
    rw [hsplit] at hends' ⊢
    exact extend_eq_of_isFinished hends' hends
  · have hfull : (Recorder.load p l cap κ).recordAll = _ :=
      extend_eq_of_isFinished hends hlate.isFinished_eq
    exact absurd (hfull ▸ hlate) intime

/-- Whatever was asked of a recorder, and in whichever order, it shows the recording that is made if everything is
recorded at once, provided that the time budget cuts off neither that one nor its own. What it holds is the beginning of
that recording. The next request is answered with the next of its snapshots, and a snapshot asked for is the one at its
place; what is recorded then reaches as far as asked for, or to the end. A recorder that has ended, or is asked to
record everything, gives the same record apart from the time the steps took. -/
theorem browsing_shows_the_whole_recording (p : Program) (l : Limits) (cap : Nat) {κ κ' : Clock}
    (intime : ¬ (load p l cap κ).recordAll.TimedOut)
    (intime' : ¬ (load p l cap κ').recordAll.TimedOut)
    {r : Recorder} (h : Browsed p l cap κ' r) :
    let full := (load p l cap κ).recordAll
    r.snapshots.toList = full.snapshots.toList.take r.size ∧
      (r.forward.2 = full.snapshots[r.size]? ∧ r.forward.1.size = min (r.size + 1) full.size) ∧
      (∀ i, (r.seek i).2 = full.snapshots[i]? ∧
        (r.seek i).1.size = max r.size (min (i + 1) full.size)) ∧
      (∀ i, r.get? i = if i < r.size then full.snapshots[i]? else none) ∧
      (r.isFinished = true → r.record.untimed = full.record.untimed) ∧
      r.recordAll.record.untimed = full.record.untimed := by
  intro full
  have hleads : LeadsTo r (whole p l cap κ') := by
    obtain ⟨n, rfl⟩ := h.exists_extend
    exact (leadsTo_load p l cap κ').extend n
  obtain ⟨time, htime⟩ : ∃ time, whole p l cap κ = (whole p l cap κ').retime κ time :=
    ((calm_load p l cap κ').retimes κ).extend_eq (max cap 1 + 1) 0
  have hfull : full = ((whole p l cap κ').retime κ time).startClock := by
    rw [← htime]
    exact recordAll_load intime
  rw [hfull, h.recordAll_eq intime', recordAll_load intime']
  generalize whole p l cap κ' = whole at hleads ⊢
  refine ⟨hleads.snapshots_eq, hleads.forward_eq, hleads.seek_eq, hleads.get?_eq, ?_, rfl⟩
  intro hends
  rw [hleads.eq_of_isFinished hends]
  rfl

/-- A recorder asked for a snapshot far behind a stray bracket, at which the recording ends. Only its own steps are
timed. -/
theorem browsing_shows_the_whole_recording_at_a_fault :
    let p := Program.ofList [.increment, .output, .loopEnd]
    let κ : Clock := { elapsed _ := 1, elapsed_pos _ := by decide, stepTime? := some (1000000 * ·) }
    let r := ((load p {} 10 κ).forward.1.seek 7).1
    let full := (load p {} 10).recordAll
    ((¬ full.TimedOut ∧ ¬ (load p {} 10 κ).recordAll.TimedOut) ∧ Browsed p {} 10 κ r ∧
        r.isFinished = true ∧ full.size = 3) ∧
      r.record.untimed = full.record.untimed ∧ r.forward.2 = none ∧
        (r.seek 2).2 = full.snapshots[2]? ∧
        r.record.executionTime? = some 6 ∧ full.record.executionTime? = none := by
  intro p κ r full
  have hending : full.ending = some (.failed (.unmatchedBracket ⟨']', 2⟩)) := rfl
  have hending' : (load p {} 10 κ).recordAll.ending =
      some (.failed (.unmatchedBracket ⟨']', 2⟩)) := rfl
  have hintime : ¬ full.TimedOut := by simp [TimedOut, hending]
  have hintime' : ¬ (load p {} 10 κ).recordAll.TimedOut := by simp [TimedOut, hending']
  have hbrowsed : Browsed p {} 10 κ r := Browsed.load.forward.seek 7
  obtain ⟨-, ⟨hnext, -⟩, hseek, -, hends, -⟩ :=
    browsing_shows_the_whole_recording p {} 10 hintime hintime' hbrowsed
  have hfinished : r.isFinished = true := by decide +kernel
  have hsize : full.size = 3 := by decide +kernel
  have htime : r.record.executionTime? = some 6 := by decide +kernel
  exact ⟨⟨⟨hintime, hintime'⟩, hbrowsed, hfinished, hsize⟩, hends hfinished, hnext, (hseek 2).1,
    htime, rfl⟩

end Recorder

end TapeLang
