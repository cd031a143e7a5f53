import TapeLang.Proofs.Machine.Timing
import TapeLang.Proofs.Session.Reachable
import TapeLang.Proofs.Trace.Browsing

/-!
# Histories of sessions

What was done with a session before leaves no mark on what a reset or a run makes
of it, or on its trace. Both start from the program and its limits, which no
operation changes, and from the clock, which is not up to the session; what else
a reset keeps or a trace reads is known of every session with a history
(`Consistent`): no run is under way, and what is remembered is a record of the
program.

A stop may also come in the middle of a run, through a handle. Such a run leads
to a session that has a history without it (`Reachable.interrupt`).

Main statement: `history_leaves_no_mark`.
-/

namespace TapeLang

namespace Machine

variable {m m' : Machine}

/-- A machine in a run that starts from another one, in which anyone may ask to stop at any time. -/
inductive Underway (start : Machine) : Machine → Prop
  | begin : Underway start start.begin
  | step {m : Machine} (h : Underway start m) : Underway start m.step.1
  | stepFed {m : Machine} (h : Underway start m) (feed : Feed) : Underway start (m.stepFed feed).1
  | stop {m : Machine} (h : Underway start m) : Underway start m.stop

/-- Of a machine a run sees its program, with the limits and the tables, and the clock, and nothing else. -/
theorem begin_of_image_eq (h : m.image = m'.image) (hclock : m.clock = m'.clock) :
    m.begin = m'.begin := by
  unfold begin reset
  rw [h, hclock]

theorem run_of_image_eq (h : m.image = m'.image) (hclock : m.clock = m'.clock) :
    m.run = m'.run := by
  have hsteps : m.stepsToAnswer = m'.stepsToAnswer :=
    congrArg (fun image ↦ image.limits.maxSteps + 1) h
  rw [run_eq, run_eq, begin_of_image_eq h hclock, hsteps]

theorem runFed_of_image_eq (h : m.image = m'.image) (hclock : m.clock = m'.clock) (feed : Feed) :
    m.runFed feed = m'.runFed feed := by
  have hsteps : m.stepsToAnswer = m'.stepsToAnswer :=
    congrArg (fun image ↦ image.limits.maxSteps + 1) h
  rw [runFed_eq, runFed_eq, fedSteps, fedSteps, begin_of_image_eq h hclock, hsteps]

/-- Runs are timed by the clock the machine was given. -/
theorem clock_run (m : Machine) : m.run.1.clock = m.clock := by
  have hstep (m' : Machine) (h : m'.clock = m.clock) : m'.step.1.clock = m.clock :=
    (stepWith_spec m' none).clock_eq.trans h
  have hclock : (advance step m.stepsToAnswer m.begin).1.clock = m.clock :=
    advance_preserves hstep _ (show m.begin.clock = m.clock from rfl)
  rw [run_eq]
  exact hclock

theorem clock_runFed (m : Machine) (feed : Feed) : (m.runFed feed).1.clock = m.clock := by
  have hstep (s : Machine × Feed) (h : s.1.clock = m.clock) :
      (stepOnFeed s).1.1.clock = m.clock :=
    (stepOnFeed_spec s).clock_eq.trans h
  have hclock : (m.fedSteps feed).1.1.clock = m.clock := by
    rw [fedSteps, advance_mul]
    exact advance_preserves hstep _ (show (m.begin, feed).1.clock = m.clock from rfl)
  rw [runFed_eq]
  exact hclock

/-- A step on a feed does not change the mark of a run. -/
theorem running_stepFed (m : Machine) (feed : Feed) : (m.stepFed feed).1.running = m.running :=
  congrArg (·.1.running) (stepFed_withRunning m feed m.running)

end Machine

namespace Session

variable {p : Program} {l : Limits} {timed : Clock → Prop} {s : Session} {m : Machine} {κ κ' : Clock}

/-! ### What a history leaves alone -/

/-- No run is under way, and what is remembered is a record of the program under its limits, made under one of the
clocks of the history. -/
structure Consistent (p : Program) (l : Limits) (timed : Clock → Prop) (s : Session) : Prop where
  image_eq : s.machine.image = (Machine.load p l).image
  running_eq : s.machine.running = false
  clock_timed : timed s.machine.clock
  remembered_eq : ∀ record ∈ s.remembered, ∃ κ, timed κ ∧ record = Record.ofProgram p l κ

/-- The trace is a record of the program, recorded or remembered, and remembered from then on. -/
theorem Consistent.exists_trace_eq (h : s.Consistent p l timed) :
    ∃ κ, timed κ ∧ s.trace =
      (Record.ofProgram p l κ, { s with remembered := some (Record.ofProgram p l κ) }) := by
  have hprogram : s.machine.program = p := congrArg Image.program h.image_eq
  have hlimits : s.machine.limits = l := congrArg Image.limits h.image_eq
  unfold trace
  cases hs : s.remembered with
  | some record =>
    obtain ⟨κ, hκ, rfl⟩ := h.remembered_eq record hs
    exact ⟨κ, hκ, congrArg (Prod.mk _) (congrArg (Session.mk s.machine) hs)⟩
  | none =>
    rw [hprogram, hlimits]
    exact ⟨s.machine.clock, h.clock_timed, rfl⟩

/-- No operation disturbs the consistency of a session. -/
theorem Reachable.consistent (h : Reachable p l timed s) : s.Consistent p l timed := by
  have himage := h.machine.image_eq
  induction h with
  | load hclock => exact ⟨himage, rfl, hclock, nofun⟩
  | withClock h hclock ih =>
    have hs := ih h.machine.image_eq
    exact ⟨himage, hs.running_eq, hclock, hs.remembered_eq⟩
  | @step s h ih =>
    have hs := ih h.machine.image_eq
    obtain ⟨hclock, -, hrunning, -⟩ := s.machine.flags_stepWith none
    exact ⟨himage, hrunning.trans hs.running_eq, hclock ▸ hs.clock_timed, hs.remembered_eq⟩
  | @stepFed s h feed ih =>
    have hs := ih h.machine.image_eq
    have hclock : (s.machine.stepFed feed).1.clock = s.machine.clock :=
      (Machine.stepOnFeed_spec (s.machine, feed)).clock_eq
    exact ⟨himage, (s.machine.running_stepFed feed).trans hs.running_eq, hclock ▸ hs.clock_timed,
      hs.remembered_eq⟩
  | @run s h ih =>
    have hs := ih h.machine.image_eq
    exact ⟨himage, rfl, s.machine.clock_run ▸ hs.clock_timed, nofun⟩
  | @runSliced s h ih =>
    have hs := ih h.machine.image_eq
    have hclock : s.machine.runSliced.1.clock = s.machine.clock := by
      rw [Machine.runSliced_eq_run, Machine.clock_run]
    exact ⟨himage, rfl, hclock ▸ hs.clock_timed, nofun⟩
  | @runFed s h feed ih =>
    have hs := ih h.machine.image_eq
    exact ⟨himage, rfl, s.machine.clock_runFed feed ▸ hs.clock_timed, nofun⟩
  | stop h ih | startClock h ih =>
    have hs := ih h.machine.image_eq
    exact ⟨himage, hs.running_eq, hs.clock_timed, hs.remembered_eq⟩
  | trace h ih =>
    have hs := ih h.machine.image_eq
    obtain ⟨κ, hκ, heq⟩ := hs.exists_trace_eq
    rw [heq] at himage ⊢
    refine ⟨himage, hs.running_eq, hs.clock_timed, ?_⟩
    intro record hrecord
    exact ⟨κ, hκ, (Option.mem_some.mp hrecord).symm⟩
  | reset h ih =>
    have hs := ih h.machine.image_eq
    exact ⟨himage, hs.running_eq, hs.clock_timed, nofun⟩

/-! ### Stops in the middle of a run -/

/-- A run in which someone asks to stop leads to a session with a history. -/
theorem Reachable.interrupt (h : Reachable p l timed s) (hm : Machine.Underway s.machine m)
    (status : Status) : Reachable p l timed { machine := (m.conclude status).1 } := by
  show Reachable p l timed { machine := m.withRunning false }
  induction hm with
  | begin =>
    have hstart : s.machine.begin.withRunning false = s.machine.reset.startClock := by
      rw [Machine.startClock, Machine.reset, h.consistent.running_eq]
      rfl
    rw [hstart]
    exact h.reset.startClock
  | @step m _ ih =>
    have hstep := ih.step
    rw [Session.step, Machine.step_withRunning] at hstep
    exact hstep
  | @stepFed m _ feed ih =>
    have hstep := ih.stepFed feed
    rw [Session.stepFed, Machine.stepFed_withRunning] at hstep
    exact hstep
  | stop _ ih => exact ih.stop

/-! ### Resets, runs and traces -/

/-- What was done with a session before does not show. A reset leads back to the session in front of the first
instruction. A run does what it does from there, under the same clock or one under which the time budget is used up
behind the same instructions. The trace is the one that a new recorder makes of the whole program under one of the
clocks of the history; apart from the time the steps took it is the one made under any clock that is alike to all of
them. To ask for it does not disturb the machine. A run that is stopped in its middle leads to a session with a history
too, so all this holds behind it as well. -/
theorem history_leaves_no_mark (p : Program) (l : Limits) {timed : Clock → Prop} {s : Session}
    (h : Reachable p l timed s) :
    (∀ κ, (s.withClock κ).reset = load p l κ) ∧
      (∀ κ κ', Clock.Alike l.timeout κ κ' →
        let new := load p l κ
        let s := s.withClock κ'
        s.run = (new.run.1.withClock κ', new.run.2) ∧
          s.runSliced = (new.runSliced.1.withClock κ', new.runSliced.2) ∧
          ∀ feed, s.runFed feed = ((new.runFed feed).1.withClock κ', (new.runFed feed).2)) ∧
      ((∃ κ, timed κ ∧
          s.trace.1 = (Recorder.load p l Recorder.defaultCap κ).recordAll.record) ∧
        (∀ κ', (∀ κ, timed κ → Clock.Alike l.timeout κ κ') → s.trace.1.untimed =
          (Recorder.load p l Recorder.defaultCap κ').recordAll.record.untimed) ∧
        s.trace.2.machine = s.machine) ∧
      ∀ m, Machine.Underway s.machine m → ∀ status,
        Reachable p l timed { machine := (m.conclude status).1 } := by
  have hs := h.consistent
  obtain ⟨κ₀, hκ₀, htrace⟩ := hs.exists_trace_eq
  refine ⟨fun κ ↦ ?_, fun κ κ' alike ↦ ?_, ⟨⟨κ₀, hκ₀, ?_⟩, fun κ' halike ↦ ?_, machine_trace s⟩,
    fun m hm status ↦ h.interrupt hm status⟩
  · show ({ machine := { image := s.machine.image, clock := κ, running := s.machine.running } } :
      Session) = load p l κ
    rw [hs.image_eq, hs.running_eq]
    rfl
  · have himage : (s.withClock κ').machine.image = (Machine.load p l κ').image := hs.image_eq
    have hthere := Machine.run_of_image_eq himage rfl
    have hrun : (Machine.load p l κ').run = _ :=
      Machine.run_withClock (m := Machine.load p l κ) alike
    refine ⟨?_, ?_, fun feed ↦ ?_⟩
    · rw [run, hthere, hrun]
      rfl
    · rw [runSliced, Machine.runSliced_eq_run, hthere, hrun, ← Machine.runSliced_eq_run]
      rfl
    · have hthere := Machine.runFed_of_image_eq himage rfl feed
      have hfed : (Machine.load p l κ').runFed feed = _ :=
        Machine.runFed_withClock (m := Machine.load p l κ) alike feed
      rw [runFed, hthere, hfed]
      rfl
  · rw [htrace]
    rfl
  · rw [htrace]
    exact Recorder.untimed_recordAll (halike κ₀ hκ₀)

/-- A session whose trace was asked for between two steps and which was stopped before the second. Only the first step
and the trace were timed by a clock that measures steps. -/
theorem history_leaves_no_mark_behind_a_stop :
    let p := Program.ofList [.increment, .output, .loopEnd]
    let l : Limits := { maxSteps := 4 }
    let κ : Clock := { elapsed _ := 1, elapsed_pos _ := by decide, stepTime? := some (1000000 * ·) }
    let timed : Clock → Prop := fun c ↦ c = κ ∨ c = .standard
    let s := ((load p l κ).step.1.trace.2.withClock .standard).stop.step.1
    (Reachable p l timed s ∧ s.machine.stopRequested = true ∧ s.machine.output = [1] ∧
        s.remembered.isSome = true) ∧
      (s.withClock κ).reset = load p l κ ∧ s.run.2 = .error (.unmatchedBracket ⟨']', 2⟩) ∧
      s.trace.1.untimed = (Recorder.load p l Recorder.defaultCap).recordAll.record.untimed := by
  intro p l κ timed s
  have hs : Reachable p l timed s :=
    ((Reachable.load (Or.inl rfl)).step.trace.withClock (Or.inr rfl)).stop.step
  obtain ⟨hreset, hruns, ⟨-, htrace, -⟩, -⟩ := history_leaves_no_mark p l hs
  obtain ⟨hrun, -⟩ := hruns .standard .standard (Clock.Alike.refl _)
  have halike (c : Clock) (hc : timed c) : Clock.Alike l.timeout c .standard := by
    rcases hc with rfl | rfl
    · exact fun _ ↦ rfl
    · exact Clock.Alike.refl _
  refine ⟨⟨hs, rfl, rfl, rfl⟩, hreset κ, ?_, htrace _ halike⟩
  have hanswer : s.run.2 = (load p l).run.2 := congrArg Prod.snd hrun
  rw [hanswer]
  rfl

end Session

end TapeLang
