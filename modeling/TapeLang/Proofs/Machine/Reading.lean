import TapeLang.Proofs.Machine.Driving

/-!
# What a run reads

Of its input text a run sees the bytes that its input instructions take, and
nothing else. Two machines that read different texts stay in the same state as
long as the bytes they take agree (`ReadsAlike`). The relation counts the input
instructions executed. The position in a text is that count, as far as the text
goes, so one machine may still move in its text when the other is past the end of
its own and reads zeros.

Main statement: `run_depends_on_bytes_read`.
-/

namespace TapeLang

/-- The byte that an input instruction takes behind `j` others: one of the text, or a zero past its end. -/
def Limits.inputByte (l : Limits) (j : Nat) : UInt8 := l.inputBytes.getD j 0

namespace Machine

variable {m m' : Machine} {image : Image} {c : Nat}

/-- The number of input instructions among the first `k` instructions of a run. -/
def reads (m : Machine) (k : Nat) : Nat := (instructionsOf step id m.begin k).count .input

/-- A machine, and one of another image in the same state, both behind `c` input instructions. -/
structure ReadsAlike (image : Image) (c : Nat) (m m' : Machine) : Prop where
  machine_eq : m' = m.transfer image (min c image.limits.inputBytes.length)
  position_eq : m.inputPosition = min c m.limits.inputBytes.length

/-- Machines that read alike answer alike and go on reading alike, if the next byte taken agrees. -/
theorem ReadsAlike.step (h : ReadsAlike image c m m') (hprogram : image.program = m.program)
    (agrees : m.limits.Agrees image.limits)
    (byte : m.Asks → image.limits.inputByte c = m.limits.inputByte c) :
    m'.step.2 = m.step.2 ∧
      ReadsAlike image (c + if m.Asks then 1 else 0) m.step.1 m'.step.1 := by
  obtain ⟨rfl, hposition⟩ := h
  have hlimits : m.step.1.limits = m.limits := (stepWith_spec m none).limits_eq
  by_cases asks : m.Asks
  · obtain ⟨hread, hnext⟩ := readInput_eq hposition
    obtain ⟨hread', hnext'⟩ :=
      readInput_eq (m := m.transfer image (min c image.limits.inputBytes.length)) (c := c) rfl
    have hsame := (hread'.trans (byte asks)).trans hread.symm
    rw [step_transfer_of_asks asks hprogram agrees.narrows hsame, hnext', if_pos asks]
    refine ⟨rfl, rfl, ?_⟩
    rw [hlimits, step_of_asks asks]
    exact hnext
  · rw [step_transfer_of_agrees asks hprogram agrees, if_neg asks]
    refine ⟨rfl, rfl, ?_⟩
    rw [hlimits, inputPosition_of_idle asks]
    exact hposition

/-- A step of a run executes an input instruction if the machine asks in front of it. -/
theorem reads_step {k : Nat} (hmore : (advance step k m.begin).2 = .more) :
    m.reads (advance step k m.begin).1.step.1.stepCount =
      m.reads k + if (advance step k m.begin).1.Asks then 1 else 0 :=
  count_step rfl ((stepCount_advance hmore).trans (Nat.zero_add k))

/-- A machine that reads like the one a run passes does so behind the next step, if the bytes taken agree. -/
private theorem readsAlike_step {k : Nat}
    (h : ReadsAlike image (m.reads k) (advance step k m.begin).1 m')
    (hprogram : image.program = m.program) (agrees : m.limits.Agrees image.limits)
    (bytes : ∀ j < m.reads k + if (advance step k m.begin).1.Asks then 1 else 0,
      image.limits.inputByte j = m.limits.inputByte j) :
    m'.step.2 = (advance step k m.begin).1.step.2 ∧
      ReadsAlike image (m.reads k + if (advance step k m.begin).1.Asks then 1 else 0)
        (advance step k m.begin).1.step.1 m'.step.1 := by
  have himage : (advance step k m.begin).1.image = m.image := image_advance m.begin k
  have hlimits : (advance step k m.begin).1.limits = m.limits := congrArg Image.limits himage
  refine h.step (hprogram.trans (congrArg Image.program himage).symm) (by rwa [hlimits]) ?_
  intro asks
  rw [hlimits]
  refine bytes _ ?_
  rw [if_pos asks]
  exact Nat.lt_succ_self _

/-- As long as instructions remain, runs whose bytes agree pass machines that read alike. -/
theorem readsAlike_advance {k : Nat} (hprogram : image.program = m.program)
    (agrees : m.limits.Agrees image.limits)
    (bytes : ∀ j < m.reads k, image.limits.inputByte j = m.limits.inputByte j)
    (hmore : (advance step k m.begin).2 = .more) :
    (advance step k (m.begin.transfer image 0)).2 = .more ∧
      ReadsAlike image (m.reads k) (advance step k m.begin).1
        (advance step k (m.begin.transfer image 0)).1 := by
  induction k with
  | zero =>
    refine ⟨rfl, ?_, (Nat.zero_min _).symm⟩
    exact congrArg (m.begin.transfer image) (Nat.zero_min _).symm
  | succ k ih =>
    have hbefore := advance_more_of_le (Nat.le_succ k) hmore
    have hreads : m.reads (k + 1) =
        m.reads k + if (advance step k m.begin).1.Asks then 1 else 0 := by
      rw [← reads_step hbefore, ← advance_succ_of_more hbefore, stepCount_advance hmore]
      exact congrArg m.reads (Nat.zero_add (k + 1)).symm
    rw [hreads] at bytes ⊢
    obtain ⟨hgoes, halike⟩ := ih (fun j hj ↦ bytes j (Nat.lt_add_right _ hj)) hbefore
    obtain ⟨hstatus, hnext⟩ := readsAlike_step halike hprogram agrees bytes
    rw [advance_succ_of_more hbefore] at hmore ⊢
    rw [advance_succ_of_more hgoes]
    exact ⟨hstatus.trans hmore, hnext⟩

/-- A run whose bytes agree with those of another ends like it, behind as many input instructions. -/
theorem run_transfer (hprogram : image.program = m.program) (agrees : m.limits.Agrees image.limits)
    (bytes : ∀ j < m.executed.count .input, image.limits.inputByte j = m.limits.inputByte j) :
    (m.transfer image 0).run =
      (m.run.1.transfer image (min (m.executed.count .input) image.limits.inputBytes.length),
        m.run.2) := by
  obtain ⟨k, hk, last, hends, hrun⟩ := run_ends m
  have hreads : m.executed.count .input =
      m.reads k + if (advance step k m.begin).1.Asks then 1 else 0 := by
    rw [← reads_step hends.more, hends.last_eq]
    exact congrArg (fun run : Machine × Except Fault (List UInt8) ↦ m.reads run.1.stepCount) hrun
  rw [hreads] at bytes ⊢
  obtain ⟨hgoes, halike⟩ :=
    readsAlike_advance hprogram agrees (fun j hj ↦ bytes j (Nat.lt_add_right _ hj)) hends.more
  obtain ⟨hstatus, hlast⟩ := readsAlike_step halike hprogram agrees bytes
  rw [hends.last_eq] at hstatus hlast
  have hends' : Ends step (m.transfer image 0).begin k
      (advance step k (m.begin.transfer image 0)).1.step :=
    ⟨hgoes, rfl, by rw [hstatus]; exact hends.answered⟩
  rw [run_eq_of_ends hends' (Nat.le_trans hk agrees.narrows.maxSteps_le), hrun, hstatus,
    hlast.machine_eq]
  rfl

/-- Of its input text a run depends on the bytes that its input instructions take. Under another text with the same
bytes, taken as far and followed by zeros, it gives the same answer and ends in the same machine, but for the text
itself and the position in it, if the time budget is used up behind the same instructions. -/
theorem run_depends_on_bytes_read (p : Program) (l : Limits) (text : String) {κ κ' : Clock}
    (alike : Clock.Alike l.timeout κ κ')
    (bytes : ∀ j < (load p l κ).executed.count .input,
      { l with userInput := text }.inputByte j = l.inputByte j) :
    let run := (load p l κ).run
    let rerun := (load p { l with userInput := text } κ').run
    rerun.2 = run.2 ∧
      rerun.1 = { run.1 with
        image := .of p { l with userInput := text }
        clock := κ'
        inputPosition := min ((load p l κ).executed.count .input) text.length } := by
  have hrun : ((load p l κ).transfer (.of p { l with userInput := text }) 0).run = _ :=
    run_transfer rfl ⟨rfl, rfl, rfl⟩ bytes
  have hretimed := run_withClock
    (m := (load p l κ).transfer (.of p { l with userInput := text }) 0) (κ := κ') alike
  have hrerun : (load p { l with userInput := text } κ').run = _ := hretimed
  rw [hrerun, hrun, ← Latin1.length_encode text]
  exact ⟨rfl, rfl⟩

/-- A text that ends in front of the second input instruction, and one that has a zero there. Both runs are out of time
behind their third instruction. -/
theorem run_depends_on_bytes_read_past_the_text :
    let p := Program.ofList [.input, .output, .input, .output]
    let l : Limits := { timeout := 1, maxSteps := 9, userInput := "A\x00z" }
    let κ : Clock := { elapsed n := if n < 3 then 7 else 3000000, elapsed_pos := by grind }
    let κ' : Clock := { elapsed n := if n < 3 then 800000 else 1000002, elapsed_pos := by grind }
    let run := (load p l κ).run
    let rerun := (load p { l with userInput := "Ł" } κ').run
    (Clock.Alike l.timeout κ κ' ∧ (load p l κ).executed.count .input = 2 ∧
        (∀ j < 2, { l with userInput := "Ł" }.inputByte j = l.inputByte j) ∧
        run.2 = .error (.timeout 1) ∧ run.1.output = [0x41] ∧ run.1.inputPosition = 2) ∧
      rerun.2 = .error (.timeout 1) ∧ rerun.1.tape = run.1.tape ∧ rerun.1.inputPosition = 1 := by
  intro p l κ κ' run rerun
  have halike : Clock.Alike l.timeout κ κ' := by
    intro n
    by_cases hn : n < 3 <;> simp [Clock.exceeds, Clock.millisecond, l, κ, κ', hn]
  have hreads : (load p l κ).executed.count .input = 2 := by decide +kernel
  have hbytes : ∀ j < 2, { l with userInput := "Ł" }.inputByte j = l.inputByte j := by decide
  have htimeout : run.2 = .error (.timeout 1) := by decide +kernel
  obtain ⟨hanswer, hmachine⟩ := run_depends_on_bytes_read p l "Ł" halike (by rwa [hreads])
  refine ⟨⟨halike, hreads, hbytes, htimeout, by decide +kernel, by decide +kernel⟩,
    hanswer.trans htimeout, (congrArg tape hmachine :), ?_⟩
  have hposition := congrArg inputPosition hmachine
  rw [hreads] at hposition
  exact hposition.trans (by decide)

end Machine

end TapeLang
