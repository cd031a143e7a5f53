import TapeLang.Session
import TapeLang.Proofs.Machine.Course
import TapeLang.Proofs.Machine.Transfer
import TapeLang.Proofs.Machine.Timing
import Mathlib.Data.List.Basic

/-!
# Ways to drive a run

A straight run, a run in slices and a run on a feed make the same steps. The
slices do not show at all. A feed that supplies the bytes of the input text
shows in one place: a machine that reads from it does not move its position in
the text. The relation between the machines of the two runs is `Twin`; it counts
the input instructions executed, which are the requests to the feed and, up to
the length of the text, the bytes read from it. The runs are timed one by one,
so they agree if their clocks are alike.

Main statement: `Session.runs_agree`.
-/

namespace TapeLang

/-- What the feed answers from now on are the given bytes and then zeros, without a request to stop. -/
def Feed.Supplies (feed : Feed) (bytes : List UInt8) : Prop :=
  ∀ n, feed.reply (feed.calls + n) = .byte (bytes.getD n 0) false

/-- A reader that finds some bytes and then the end of its stream supplies them. -/
theorem Feed.supplies_ofReader {read : Nat → Reading} {bytes : List UInt8}
    (h : ∀ n, read n = Reading.ofBytes bytes.toArray n) : (Feed.ofReader read).Supplies bytes := by
  intro n
  have hreply : (Feed.ofReader read).reply ((Feed.ofReader read).calls + n) =
      .ofReading (read n) := by
    show Reply.ofReading (read (0 + n)) = _
    rw [Nat.zero_add]
  rw [hreply, h, Reading.ofBytes, List.getElem?_toArray, List.getD_eq_getElem?_getD]
  cases bytes[n]? <;> rfl

theorem Feed.supplies_ofStream (bytes : List UInt8) :
    (Feed.ofStream bytes.toArray).Supplies bytes := supplies_ofReader fun _ ↦ rfl

/-- The instructions in front of the first `n` machines that an advance passes. -/
def instructionsOf {σ : Type} (next : σ → σ × Status) (machine : σ → Machine) (s : σ) (n : Nat) :
    List Instruction :=
  (List.range n).filterMap fun i ↦ (machine (advance next i s).1).current?

namespace Machine

variable {m : Machine}

/-- The instructions executed by a run, in order. -/
def executed (m : Machine) : List Instruction :=
  instructionsOf step id m.begin m.run.1.stepCount

def executedFed (m : Machine) (feed : Feed) : List Instruction :=
  instructionsOf stepOnFeed Prod.fst (m.begin, feed) (m.runFed feed).1.stepCount

def atInput (m : Machine) (position : Nat) : Machine := { m with inputPosition := position }

/-! ### The position in the input text -/

/-- A step that reads no input is the same at every position of the input text. -/
theorem step_atInput (idle : ¬ m.Asks) (n : Nat) :
    (m.atInput n).step = (m.step.1.atInput n, m.step.2) := by
  have himage : m.step.1.image = m.image := (stepWith_spec m none).image_eq
  calc (m.atInput n).step
      _ = (m.step.1.transfer m.image n, m.step.2) :=
        step_transfer_of_agrees idle rfl ⟨rfl, rfl, rfl⟩ n
      _ = (m.step.1.atInput n, m.step.2) := by
        rw [← himage]
        rfl

/-- A step that reads no input does not move in the input text. -/
theorem inputPosition_of_idle (idle : ¬ m.Asks) : m.step.1.inputPosition = m.inputPosition :=
  congrArg (·.1.inputPosition) (step_atInput idle m.inputPosition)

/-- A machine that asks executes its input instruction on the next byte of the input text. -/
theorem step_of_asks (asks : m.Asks) :
    m.step = (((m.receive m.readInput.1 false).atInput m.readInput.2.inputPosition),
      (m.receive m.readInput.1 false).settle) := by
  obtain ⟨current, budget⟩ := asks_iff.mp asks
  unfold step stepWith
  simp only [current, budget, perform, Bool.false_eq_true, ↓reduceIte]
  unfold readInput receive
  rw [Bool.or_false]
  split <;> rfl

/-- A step that reads input is the same under another image that allows as much and has the same byte next. -/
theorem step_transfer_of_asks {image : Image} {n : Nat} (asks : m.Asks)
    (hprogram : image.program = m.program) (narrow : m.limits.Narrows image.limits)
    (byte : (m.transfer image n).readInput.1 = m.readInput.1) :
    (m.transfer image n).step =
      (m.step.1.transfer image (m.transfer image n).readInput.2.inputPosition, m.step.2) := by
  have hasks : (m.transfer image n).Asks :=
    ⟨(current?_transfer hprogram n).trans asks.1, Nat.lt_of_lt_of_le asks.2 narrow.maxSteps_le⟩
  have hsettle : ((m.receive m.readInput.1 false).transfer image n).settle =
      (m.receive m.readInput.1 false).settle :=
    settle_transfer (m := m.receive m.readInput.1 false) hprogram narrow.timeout_eq n
  rw [step_of_asks hasks, step_of_asks asks, byte, ← hsettle]
  rfl

/-- Reading takes the byte at the position, or a zero past the end. -/
theorem readInput_eq {c : Nat} (h : m.inputPosition = min c m.limits.inputBytes.length) :
    m.readInput.1 = m.limits.inputBytes.getD c 0 ∧
      m.readInput.2.inputPosition = min (c + 1) m.limits.inputBytes.length := by
  have hinput : m.image.input = m.limits.inputBytes.toArray := m.image.input_eq
  unfold readInput
  rw [hinput, List.getElem?_toArray, List.getD_eq_getElem?_getD]
  by_cases hc : c < m.limits.inputBytes.length
  · have hat : m.inputPosition = c := by omega
    rw [hat, List.getElem?_eq_getElem hc]
    exact ⟨rfl, (Nat.min_eq_left hc).symm⟩
  · have hat : m.inputPosition = m.limits.inputBytes.length := by omega
    rw [hat, List.getElem?_eq_none (Nat.le_refl _), List.getElem?_eq_none (Nat.le_of_not_lt hc)]
    refine ⟨rfl, ?_⟩
    rw [Nat.min_eq_right (by omega), ← hat]

/-! ### Twins -/

/-- A machine that reads its input text, and one in the same state that reads from a feed, behind `c` input
instructions. -/
structure Twin (feed : Feed) (c : Nat) (m : Machine) (s : Machine × Feed) : Prop where
  machine_eq : s.1 = m.atInput 0
  feed_eq : s.2 = { feed with calls := feed.calls + c }
  position_eq : m.inputPosition = min c m.limits.inputBytes.length

/-- Twins answer alike and stay twins. -/
theorem Twin.step {feed : Feed} {c : Nat} {s : Machine × Feed}
    (hfeed : feed.Supplies m.limits.inputBytes) (h : Twin feed c m s) :
    (stepOnFeed s).2 = m.step.2 ∧
      Twin feed (c + if m.Asks then 1 else 0) m.step.1 (stepOnFeed s).1 := by
  have hlimits : m.step.1.limits = m.limits :=
    (stepWith_spec m none).limits_eq
  by_cases asks : m.Asks
  · obtain ⟨hbyte, hnext⟩ := readInput_eq h.position_eq
    have hasks : s.1.Asks := by
      rw [h.machine_eq]
      exact asks
    have hreply : s.2.next.1 = .byte m.readInput.1 false := by
      rw [h.feed_eq, hbyte]
      exact hfeed c
    rw [stepOnFeed_of_byte hasks hreply, step_of_asks asks, if_pos asks, h.machine_eq, h.feed_eq]
    refine ⟨rfl, rfl, rfl, ?_⟩
    exact hnext
  · have hidle : ¬ s.1.Asks := by
      rw [h.machine_eq]
      exact asks
    rw [stepOnFeed_of_idle hidle, h.machine_eq, step_atInput asks, if_neg asks]
    refine ⟨rfl, rfl, h.feed_eq, ?_⟩
    rw [inputPosition_of_idle asks, h.position_eq, hlimits]
    rfl

section

variable {σ : Type} {next : σ → σ × Status} {machine : σ → Machine} {s : σ}

/-- One step more passes one instruction more, unless the program has ended. -/
theorem instructionsOf_succ (n : Nat) :
    instructionsOf next machine s (n + 1) =
      instructionsOf next machine s n ++ (machine (advance next n s).1).current?.toList := by
  rw [instructionsOf, filterMap_range_succ, instructionsOf]

end

/-- A step that executes an instruction in front of which the machine does not ask is no input instruction,
and one in front of which it asks is. -/
theorem count_step {k : Nat} {a : Machine} (ha : a = (advance step k m).1)
    (hcount : a.stepCount = k) :
    (instructionsOf step id m a.step.1.stepCount).count .input =
      (instructionsOf step id m k).count .input + if a.Asks then 1 else 0 := by
  have hlast : (id (advance step k m).1).current? = a.current? := by rw [ha]; rfl
  by_cases asks : a.Asks
  · have hnext : a.step.1.stepCount = k + 1 := by
      rw [step_of_asks asks, ← hcount]
      rfl
    rw [hnext, instructionsOf_succ, hlast, asks.1, if_pos asks, List.count_append]
    rfl
  · obtain ⟨hlower, hupper⟩ := (stepWith_spec a none).stepCount_bounds
    rw [← Machine.step, hcount] at hlower hupper
    rw [if_neg asks, Nat.add_zero]
    rcases Nat.eq_or_lt_of_le hlower with hsame | hnext
    · rw [← hsame]
    · have hcurrent : a.current? ≠ some .input := by
        intro current
        rw [step_of_idle_input asks current, hcount] at hnext
        exact Nat.lt_irrefl k hnext
      have hsucc : a.step.1.stepCount = k + 1 := Nat.le_antisymm hupper hnext
      rw [hsucc, instructionsOf_succ, hlast, List.count_append]
      cases hc : a.current? with
      | none => rfl
      | some i =>
        have hi : i ≠ .input := fun he ↦ hcurrent (by rw [hc, he])
        simp [hi]

/-- The machines of a run and of a run on a feed are twins as long as instructions remain. -/
private theorem twin_advance {feed : Feed} (hfeed : feed.Supplies m.limits.inputBytes) {k : Nat}
    (hmore : (advance step k m.begin).2 = .more) :
    (advance stepOnFeed k (m.begin, feed)).2 = .more ∧
      Twin feed ((instructionsOf step id m.begin k).count .input) (advance step k m.begin).1
        (advance stepOnFeed k (m.begin, feed)).1 := by
  induction k with
  | zero => exact ⟨rfl, rfl, rfl, (Nat.zero_min _).symm⟩
  | succ k ih =>
    have hbefore := advance_more_of_le (Nat.le_succ k) hmore
    obtain ⟨hfed, htwin⟩ := ih hbefore
    have hcount : (advance step k m.begin).1.stepCount = k :=
      (stepCount_advance hbefore).trans (Nat.zero_add k)
    have hlimits : (advance step k m.begin).1.limits = m.limits :=
      congrArg Image.limits (image_advance m.begin k)
    obtain ⟨hstatus, hnext⟩ := htwin.step (by rwa [hlimits])
    rw [advance_succ_of_more hbefore] at hmore ⊢
    rw [← count_step rfl hcount, (step_of_more hmore).1, hcount] at hnext
    rw [advance_succ_of_more hfed]
    exact ⟨hstatus.trans hmore, hnext⟩

/-- A run on a feed that supplies the bytes of the input text and the straight run end in twins with the
same answer, and on their way they pass twins. -/
private theorem exists_twin_ends (m : Machine) {feed : Feed}
    (hfeed : feed.Supplies m.limits.inputBytes) :
    ∃ (last : Machine × Status) (fed : (Machine × Feed) × Status),
      m.run = last.1.conclude last.2 ∧
      m.runFed feed = ((fed.1.1.conclude fed.2).1, fed.1.2, (fed.1.1.conclude fed.2).2) ∧
      fed.2 = last.2 ∧
      Twin feed (m.executed.count .input) last.1 fed.1 ∧
      ∀ i ≤ m.run.1.stepCount, (advance stepOnFeed i (m.begin, feed)).1.1 =
        (advance step i m.begin).1.atInput 0 := by
  obtain ⟨k, hk, last, hends, hrun⟩ := run_ends m
  obtain ⟨hfed, htwin⟩ := twin_advance hfeed hends.more
  have hcount : (advance step k m.begin).1.stepCount = k :=
    (stepCount_advance hends.more).trans (Nat.zero_add k)
  have hlimits : (advance step k m.begin).1.limits = m.limits :=
    congrArg Image.limits (image_advance m.begin k)
  obtain ⟨hstatus, hnext⟩ := htwin.step (by rwa [hlimits])
  rw [← count_step rfl hcount, hends.last_eq] at hnext
  rw [hends.last_eq] at hstatus
  have hfedEnds : Ends stepOnFeed (m.begin, feed) k
      (stepOnFeed (advance stepOnFeed k (m.begin, feed)).1) :=
    ⟨hfed, rfl, by rw [hstatus]; exact hends.answered⟩
  have hsteps : m.run.1.stepCount = last.1.stepCount := by rw [hrun]; rfl
  refine ⟨last, _, hrun, runFed_eq_of_ends hfedEnds hk, hstatus, ?_, ?_⟩
  · rw [executed, hsteps]
    exact hnext
  · intro i hi
    by_cases hik : i ≤ k
    · exact (twin_advance hfeed (advance_more_of_le hik hends.more)).2.machine_eq
    · have hupper := (stepWith_spec (advance step k m.begin).1 none).stepCount_bounds.2
      rw [← step, hends.last_eq, hcount, ← hsteps] at hupper
      obtain rfl : i = k + 1 := by omega
      rw [advance_succ_of_more hends.more, advance_succ_of_more hfed, hends.last_eq]
      exact hnext.machine_eq

/-- A run on a feed that supplies the bytes of the input text gives the answer of the straight run. It ends in the
same machine, in front of the input text, with one request for each input instruction executed. -/
theorem runFed_eq_run (m : Machine) {feed : Feed} (hfeed : feed.Supplies m.limits.inputBytes) :
    m.runFed feed =
      (m.run.1.atInput 0, { feed with calls := feed.calls + m.executed.count .input }, m.run.2) := by
  obtain ⟨last, fed, hrun, hrunFed, hstatus, htwin, -⟩ := exists_twin_ends m hfeed
  rw [hrunFed, hrun, hstatus, htwin.machine_eq, htwin.feed_eq]
  rfl

/-- The position in the input text counts the input instructions executed, up to the length of the text. -/
theorem inputPosition_run (m : Machine) :
    m.run.1.inputPosition = min (m.executed.count .input) m.limits.userInput.length := by
  obtain ⟨last, fed, hrun, -, -, htwin, -⟩ :=
    exists_twin_ends m (Feed.supplies_ofStream m.limits.inputBytes)
  have hlimits := congrArg Image.limits (image_run m)
  rw [hrun] at hlimits
  have hposition : m.run.1.inputPosition = last.1.inputPosition := by
    rw [hrun]
    rfl
  rw [hposition, htwin.position_eq, ← Latin1.length_encode]
  exact congrArg (fun l : Limits ↦ min _ l.inputBytes.length) hlimits

/-- A run on a feed that supplies the bytes of the input text executes the instructions of the straight run. -/
theorem executedFed_eq_executed (m : Machine) {feed : Feed}
    (hfeed : feed.Supplies m.limits.inputBytes) : m.executedFed feed = m.executed := by
  obtain ⟨-, -, -, -, -, -, hpassed⟩ := exists_twin_ends m hfeed
  have hsteps : (m.runFed feed).1.stepCount = m.run.1.stepCount := by
    rw [runFed_eq_run m hfeed]
    rfl
  unfold executedFed executed instructionsOf
  rw [hsteps]
  apply List.filterMap_congr
  intro i hi
  rw [hpassed i (Nat.le_of_lt (List.mem_range.mp hi))]
  rfl

/-! ### Runs under other clocks -/

/-- Under a clock that is alike a run on a feed executes the same instructions. -/
theorem executedFed_withClock {κ : Clock} (alike : Clock.Alike m.limits.timeout m.clock κ)
    (feed : Feed) : (m.withClock κ).executedFed feed = m.executedFed feed := by
  have hbegin : (m.withClock κ).begin = m.begin.withClock κ := rfl
  have hsteps : ((m.runFed feed).1.withClock κ).stepCount = (m.runFed feed).1.stepCount := rfl
  unfold executedFed instructionsOf
  rw [runFed_withClock alike, hbegin, hsteps]
  apply List.filterMap_congr
  intro i _
  rw [advance_stepOnFeed_withClock (s := (m.begin, feed)) alike]
  rfl

end Machine

namespace Session

open Machine

/-- The three ways to run a program agree, if the time budget is used up behind the same instructions in each.
Slices do not show in the session behind the run or in the answer. A feed that supplies the bytes of the input text,
as a reader that finds them in front of the end of its stream does, leads through the same machines to the same
answer, except that the position in the input text stays at its start. In a run that reads the text the position
counts the input instructions executed, up to the length of the text, and on a feed as many requests are made. -/
theorem runs_agree (s : Session) {κ κ' : Clock}
    (alike : Clock.Alike s.machine.limits.timeout κ κ') :
    let run := (s.withClock κ).run
    (s.withClock κ').runSliced = (run.1.withClock κ', run.2) ∧
      (∀ read : Nat → Reading,
        (∀ n, read n = Reading.ofBytes s.machine.limits.inputBytes.toArray n) →
        (Feed.ofReader read).Supplies s.machine.limits.inputBytes) ∧
      ∀ feed : Feed, feed.Supplies s.machine.limits.inputBytes →
        let fed := (s.withClock κ').runFed feed
        let reads := (s.machine.withClock κ).executed.count .input
        fed.2.2 = run.2 ∧
          fed.1 = { run.1 with machine := { run.1.machine with clock := κ', inputPosition := 0 } } ∧
          (∀ i ≤ run.1.machine.stepCount,
            (advance stepOnFeed i ((s.machine.withClock κ').begin, feed)).1.1 =
              { (advance Machine.step i (s.machine.withClock κ).begin).1 with
                clock := κ', inputPosition := 0 }) ∧
          run.1.machine.inputPosition = min reads s.machine.limits.userInput.length ∧
          (s.machine.withClock κ').executedFed feed = (s.machine.withClock κ).executed ∧
          fed.2.1 = { feed with calls := feed.calls + reads } := by
  intro run
  refine ⟨?_, fun read ↦ Feed.supplies_ofReader, ?_⟩
  · have hthere : (s.machine.withClock κ').runSliced = _ :=
      runSliced_withClock (m := s.machine.withClock κ) alike
    rw [runSliced_eq_run (s.machine.withClock κ)] at hthere
    unfold runSliced withClock
    rw [hthere]
    rfl
  · intro feed hfeed fed reads
    have hfeed : feed.Supplies (s.machine.withClock κ).limits.inputBytes := hfeed
    have hthere : (s.machine.withClock κ').runFed feed = _ :=
      runFed_withClock (m := s.machine.withClock κ) alike feed
    have hfed : fed = ({ machine := (run.1.machine.atInput 0).withClock κ' },
        { feed with calls := feed.calls + reads }, run.2) := by
      rw [runFed_eq_run _ hfeed] at hthere
      unfold fed runFed withClock
      rw [hthere]
      rfl
    have hexecuted : (s.machine.withClock κ').executedFed feed =
        (s.machine.withClock κ).executed :=
      (executedFed_withClock (m := s.machine.withClock κ) alike feed).trans
        (executedFed_eq_executed _ hfeed)
    obtain ⟨-, -, -, -, -, -, hpassed⟩ := exists_twin_ends (s.machine.withClock κ) hfeed
    rw [hfed]
    refine ⟨rfl, rfl, ?_, inputPosition_run (s.machine.withClock κ), hexecuted, rfl⟩
    intro i hi
    have hsame := advance_stepOnFeed_withClock (s := ((s.machine.withClock κ).begin, feed)) alike i
    have hthere : (advance stepOnFeed i ((s.machine.withClock κ').begin, feed)).1.1 = _ :=
      congrArg (·.1.1) hsame
    rw [hthere]
    exact congrArg (Machine.withClock · κ') (hpassed i hi)

/-- A program that reads past the end of its text and is out of time behind its second input instruction, on two
clocks that show different times. -/
theorem runs_agree_past_the_text :
    let p := Program.ofList [.input, .right, .input, .output]
    let s := Session.load p { timeout := 1, maxSteps := 9, userInput := "é" }
    let κ : Clock := { elapsed n := if n < 3 then 1 else 2000000, elapsed_pos := by grind }
    let κ' : Clock := { elapsed n := if n < 3 then 900000 else 1000001, elapsed_pos := by grind }
    let feed := Feed.ofReader (Reading.ofBytes #[0xE9])
    (Clock.Alike s.machine.limits.timeout κ κ' ∧ feed.Supplies s.machine.limits.inputBytes ∧
        (s.machine.withClock κ).executed.count .input = 2 ∧
        (s.withClock κ).run.2 = .error (.timeout 1)) ∧
      ((s.withClock κ').runFed feed).2.2 = (s.withClock κ).run.2 ∧
        (s.withClock κ).run.1.machine.inputPosition = 1 ∧
        ((s.withClock κ').runFed feed).2.1.calls = 2 := by
  intro p s κ κ' feed
  have halike : Clock.Alike s.machine.limits.timeout κ κ' := by
    intro n
    have hbudget : s.machine.limits.timeout = 1 := rfl
    rw [hbudget]
    by_cases hn : n < 3 <;> simp [Clock.exceeds, Clock.millisecond, κ, κ', hn]
  have hbytes : s.machine.limits.inputBytes = [0xE9] := by decide
  obtain ⟨-, hsupplies, hruns⟩ := runs_agree s halike
  have hfeed : feed.Supplies s.machine.limits.inputBytes := by
    refine hsupplies _ fun n ↦ ?_
    rw [hbytes]
  have hreads : (s.machine.withClock κ).executed.count .input = 2 := by decide +kernel
  obtain ⟨hanswer, -, -, hposition, -, hfed⟩ := hruns feed hfeed
  refine ⟨⟨halike, hfeed, hreads, by decide +kernel⟩, hanswer, ?_, ?_⟩
  · rw [hposition, hreads]
    decide
  · rw [hfed, hreads]
    rfl

end Session

end TapeLang
