import TapeLang.Proofs.Command.Texts
import TapeLang.Proofs.Machine.Interaction
import TapeLang.Proofs.Machine.LoopStack
import TapeLang.Proofs.Machine.Printing

/-!
# Running a program from the command line

A run of a program with brackets that have no partner is refused before anything
is executed, with a line of the log for each bracket (`refusesFor_refuse`). Any
other run shows what its executed instructions have printed, and fails exactly if
the machine does (`showsRun_runLoaded`). An interactive run does what a run does
that has the bytes of the standard input for its input text
(`runLoaded_interactive`).

Main statement: `run_command_end_to_end`.
-/

namespace TapeLang.Command

open Machine

variable {w : Surroundings} {κ : Clock} {text : String} {l : Limits} {interactive verbose : Bool}

/-! ### Reports -/

/-- The report on a bracket tells a bracket without a partner from every other fault. -/
theorem message_ne_of_ne_unmatchedBracket {fault : Fault}
    (h : ∀ b, fault ≠ .unmatchedBracket b) (b : UnmatchedBracket) : fault.message ≠ b.message := by
  intro heq
  have hhead := congrArg (fun s : String ↦ s.toList.head?) heq
  unfold Fault.message UnmatchedBracket.message at hhead
  cases fault with
  | unmatchedBracket b => exact h b rfl
  | _ => simp at hhead

/-- The report on a bracket of a program is a single line. -/
theorem newline_notMem_message {p : Program} {b : UnmatchedBracket} (hb : b ∈ p.unmatched) :
    '\n' ∉ b.message.toList := by
  have hsymbol : b.symbol = ']' ∨ b.symbol = '[' := by
    obtain hstray | hopen := List.mem_append.mp hb
    · obtain ⟨-, -, rfl⟩ := List.mem_map.mp hstray
      exact .inl rfl
    · obtain ⟨-, -, rfl⟩ := List.mem_map.mp hopen
      exact .inr rfl
  have hdigits : '\n' ∉ Nat.toDigits 10 b.position := by
    intro hmem
    have hdigit := Nat.isDigit_of_mem_toDigits (by decide) (Nat.le_refl 10) hmem
    contradiction
  unfold UnmatchedBracket.message
  rcases hsymbol with hsymbol | hsymbol
  all_goals simp [hsymbol, hdigits]

/-- The output consists of these lines. -/
structure PrintsLines (t : Transcript) (lines : List String) : Prop where
  output_eq : t.output = (String.join (lines.map (· ++ "\n"))).toUTF8.toList
  /-- None of the lines is more than one. -/
  single : ∀ line ∈ lines, '\n' ∉ line.toList

/-! ### What is asked for -/

/-- The arguments ask for a run of a program whose text and limits can be read, and an interactive run does not have
its program from the standard input. -/
def AsksRun (args : List String) (w : Surroundings) (text : String) (l : Limits)
    (interactive verbose : Bool) : Prop :=
  ∃ source limits, Invocation.ofArguments? args = some ⟨.run source limits interactive, verbose⟩ ∧
    ¬(interactive ∧ source = .standardInput) ∧ source.read w = .ok text ∧
      limits.resolve w = .ok l

/-- The arguments ask for the validation of a program whose text can be read. -/
def AsksValidation (args : List String) (w : Surroundings) (text : String) : Prop :=
  ∃ source verbose, Invocation.ofArguments? args = some ⟨.validate source, verbose⟩ ∧
    source.read w = .ok text

/-- What a command shows if debug messages are shown or not. -/
def Transcript.asShown (t : Transcript) (verbose : Bool) : Transcript :=
  if verbose then t else t.withoutDebug

@[simp] theorem output_asShown (t : Transcript) : (t.asShown verbose).output = t.output := by
  cases verbose <;> rfl

@[simp] theorem error_asShown (t : Transcript) : (t.asShown verbose).error = t.error := by
  cases verbose <;> rfl

@[simp] theorem exitCode_asShown (t : Transcript) : (t.asShown verbose).exitCode = t.exitCode := by
  cases verbose <;> rfl

theorem AsksRun.perform_eq {args : List String}
    (h : AsksRun args w text l interactive verbose) :
    perform? args w κ = some ((runLoaded w κ text l interactive).asShown verbose) := by
  obtain ⟨source, limits, hargs, hfree, hread, hresolve⟩ := h
  have hperform (t : Thunk Transition.Table) :
      Action.perform t w κ (.run source limits interactive) = runLoaded w κ text l interactive := by
    rw [Action.perform, performRun, if_neg hfree, hread]
    simp only [hresolve]
  rw [perform?, hargs, Option.map_some, Invocation.perform, hperform]
  rfl

theorem AsksValidation.perform_eq {args : List String} (h : AsksValidation args w text) :
    ∃ verbose, perform? args w κ = some ((validateText text).asShown verbose) := by
  obtain ⟨source, verbose, hargs, hread⟩ := h
  have hperform (t : Thunk Transition.Table) :
      Action.perform t w κ (.validate source) = validateText text := by
    rw [Action.perform, onSource, hread]
  refine ⟨verbose, ?_⟩
  rw [perform?, hargs, Option.map_some, Invocation.perform, hperform]
  rfl

/-! ### Refused runs -/

/-- The program is refused: nothing is printed, and the messages are a line of the log for each of the brackets. -/
structure RefusesFor (t : Transcript) (brackets : List UnmatchedBracket) : Prop where
  output_eq : t.output = []
  messages_eq : t.messages = brackets.map fun b ↦ say .error b.message
  log_eq : t.log = brackets.map fun b ↦ "ERROR bfkit: " ++ b.message
  error_eq : t.error = some ("program has " ++ toString brackets.length ++ " unmatched bracket(s)")
  exitCode_eq : t.exitCode = 1

theorem refusesFor_refuse (brackets : List UnmatchedBracket) :
    RefusesFor ((refuse brackets).asShown verbose) brackets := by
  have hmessages : ((refuse brackets).asShown verbose).messages =
      brackets.map fun b ↦ say .error b.message := by
    cases verbose <;> simp [refuse, Transcript.after, Transcript.failed, Transcript.asShown,
      Transcript.withoutDebug, say]
  refine ⟨by rw [output_asShown]; rfl, hmessages, ?_, by rw [error_asShown]; rfl,
    by rw [exitCode_asShown]; rfl⟩
  rw [Transcript.log, hmessages, List.filterMap_map]
  simp [Function.comp_def, say, LogLine.render, Level.name]

/-- A run of a program with unmatched brackets is refused for them. -/
theorem runLoaded_of_unmatched (h : (Program.ofText text).unmatched ≠ []) :
    runLoaded w κ text l interactive = refuse (Program.ofText text).unmatched := by
  unfold runLoaded
  dsimp only
  split
  · next hbalanced => exact absurd hbalanced h
  · rfl

/-- The validation of a program with unmatched brackets prints a line for each of them. -/
theorem printsLines_validateText (h : (Program.ofText text).unmatched ≠ []) :
    (validateText text).exitCode = 1 ∧
      PrintsLines (validateText text) ((Program.ofText text).unmatched.map (·.message)) := by
  have hvalidate : validateText text =
      { Transcript.ofLines ((Program.ofText text).unmatched.map (·.message)) with exitCode := 1 } := by
    unfold validateText
    dsimp only
    split
    · next hbalanced => exact absurd hbalanced h
    · rfl
  rw [hvalidate]
  refine ⟨rfl, rfl, fun line hline ↦ ?_⟩
  obtain ⟨b, hb, rfl⟩ := List.mem_map.mp hline
  exact newline_notMem_message hb

/-! ### Runs that are shown -/

/-- The machine behind a run, and the answer of the run. An interactive run reads the standard input. -/
def runOf (w : Surroundings) (κ : Clock) (text : String) (l : Limits) (interactive : Bool) :
    Machine × Except Fault (List UInt8) :=
  let m := Machine.load (Program.ofText text) l κ
  if interactive then
    let fed := m.runFed (Feed.ofStream w.standardInput.data)
    (fed.1, fed.2.2)
  else m.runSliced

/-- The instructions that a run executes, each with the value of the cell it finds. -/
def visitsOfRun (w : Surroundings) (κ : Clock) (text : String) (l : Limits) (interactive : Bool) :
    List (Instruction × UInt8) :=
  let m := Machine.load (Program.ofText text) l κ
  let executed := (runOf w κ text l interactive).1.stepCount
  if interactive then
    visitsOf stepOnFeed Prod.fst (m.begin, Feed.ofStream w.standardInput.data) executed
  else visitsOf step id m.begin executed

theorem runOf_true (w : Surroundings) (κ : Clock) (text : String) (l : Limits) :
    runOf w κ text l true =
      (((Machine.load (Program.ofText text) l κ).runFed (Feed.ofStream w.standardInput.data)).1,
        ((Machine.load (Program.ofText text) l κ).runFed
          (Feed.ofStream w.standardInput.data)).2.2) := by
  simp only [runOf, ↓reduceIte]

theorem runOf_false (w : Surroundings) (κ : Clock) (text : String) (l : Limits) :
    runOf w κ text l false = (Machine.load (Program.ofText text) l κ).run := by
  simp only [runOf, Bool.false_eq_true, ↓reduceIte, runSliced_eq_run]

theorem output_runOf (w : Surroundings) (κ : Clock) (text : String) (l : Limits) (interactive : Bool) :
    (runOf w κ text l interactive).1.output = bytesPrinted (visitsOfRun w κ text l interactive) := by
  cases interactive with
  | true =>
    simp only [visitsOfRun, runOf_true, ↓reduceIte]
    exact output_runFed (.load (Program.ofText text) l κ) (.ofStream w.standardInput.data)
  | false =>
    simp only [visitsOfRun, runOf_false, Bool.false_eq_true, ↓reduceIte]
    exact output_run (.load (Program.ofText text) l κ)

/-- No run of a balanced program fails at a bracket. -/
theorem runOf_ne_unmatchedBracket (w : Surroundings) (κ : Clock) (l : Limits) (interactive : Bool)
    (h : (Program.ofText text).unmatched = []) (b : UnmatchedBracket) :
    (runOf w κ text l interactive).2 ≠ .error (.unmatchedBracket b) := by
  intro hfault
  have hraises : (Machine.load (Program.ofText text) l κ).Raises b := by
    cases interactive with
    | true =>
      simp only [runOf_true] at hfault
      exact .runFed (.ofStream w.standardInput.data) hfault
    | false =>
      rw [runOf_false] at hfault
      exact .run hfault
  have hmem := (Reachable.load κ).mem_unmatched_of_raises hraises
  rw [h] at hmem
  exact absurd hmem List.not_mem_nil

/-- A run of a balanced program shows its machine and its answer, behind messages of the machine. -/
theorem runLoaded_of_balanced (w : Surroundings) (κ : Clock) (l : Limits) (interactive : Bool)
    (h : (Program.ofText text).unmatched = []) :
    ∃ start, runLoaded w κ text l interactive =
      (showRun (runOf w κ text l interactive).1 (runOf w κ text l interactive).2).after
        (runMessages start (runOf w κ text l interactive).1 (runOf w κ text l interactive).2) := by
  have hprogram : (Machine.load (Program.ofText text) l κ).program.unmatched = [] := h
  unfold runLoaded
  dsimp only
  rw [hprogram]
  cases interactive with
  | true =>
    rw [runOf_true]
    generalize (Machine.load (Program.ofText text) l κ).runFed _ = fed
    exact ⟨_, rfl⟩
  | false =>
    rw [runOf_false, runSliced_eq_run]
    generalize (Machine.load (Program.ofText text) l κ).run = run
    exact ⟨_, rfl⟩

/-- The messages of the machine are hidden with the debug messages. -/
theorem asShown_after_runMessages (start : String) (m : Machine)
    (answer : Except Fault (List UInt8)) (t : Transcript) :
    (t.after (runMessages start m answer)).asShown false = t.asShown false := by
  cases answer <;>
    simp [Transcript.asShown, Transcript.withoutDebug, Transcript.after, runMessages, machineSays]

/-- The transcript shows what a run has printed, and how it has ended. -/
structure ShowsRun (t : Transcript) (visits : List (Instruction × UInt8))
    (answer : Except Fault (List UInt8)) : Prop where
  /-- There is one byte for each output instruction executed, the one it found in its cell. -/
  output_eq : t.output = bytesPrinted visits
  /-- The command fails exactly if the run does. -/
  exitCode_iff : t.exitCode = 0 ↔ ∃ bytes, answer = .ok bytes
  /-- An error is the fault of the run. -/
  error_iff : ∀ error, t.error = some error ↔
    ∃ fault, answer = .error fault ∧ error = "execution failed: " ++ fault.message
  /-- No error is a bracket without a partner. -/
  error_ne : ∀ b : UnmatchedBracket,
    answer ≠ .error (.unmatchedBracket b) ∧ t.error ≠ some ("execution failed: " ++ b.message)

theorem ShowsRun.congr {t t' : Transcript} {visits : List (Instruction × UInt8)}
    {answer : Except Fault (List UInt8)} (h : ShowsRun t visits answer)
    (houtput : t'.output = t.output) (herror : t'.error = t.error)
    (hexit : t'.exitCode = t.exitCode) : ShowsRun t' visits answer := by
  refine ⟨houtput.trans h.output_eq, ?_, ?_, ?_⟩
  · rw [hexit]
    exact h.exitCode_iff
  · rw [herror]
    exact h.error_iff
  · rw [herror]
    exact h.error_ne

/-- The end of a run that does not fail at a bracket is shown as it is. -/
theorem showsRun_showRun {m : Machine} {visits : List (Instruction × UInt8)}
    {answer : Except Fault (List UInt8)} (houtput : m.output = bytesPrinted visits)
    (hbracket : ∀ b, answer ≠ .error (.unmatchedBracket b)) :
    ShowsRun (showRun m answer) visits answer := by
  cases answer with
  | ok bytes =>
    exact ⟨houtput, by simp [showRun], by simp [showRun], fun b ↦ ⟨hbracket b, by simp [showRun]⟩⟩
  | error fault =>
    have hfault : ∀ b, fault ≠ .unmatchedBracket b := fun b heq ↦ hbracket b (heq ▸ rfl)
    refine ⟨houtput, by simp [showRun, Transcript.failed], fun error ↦ ?_, fun b ↦
      ⟨hbracket b, fun heq ↦ ?_⟩⟩
    · simp [showRun, Transcript.failed, eq_comm]
    · have hmessage := (String.append_right_inj _).mp (Option.some.inj heq)
      exact message_ne_of_ne_unmatchedBracket hfault b hmessage

/-- A run of a balanced program is shown as it is. -/
theorem showsRun_runLoaded (h : (Program.ofText text).unmatched = []) :
    ShowsRun ((runLoaded w κ text l interactive).asShown verbose) (visitsOfRun w κ text l interactive)
      (runOf w κ text l interactive).2 := by
  obtain ⟨start, hrun⟩ := runLoaded_of_balanced w κ l interactive h
  have hshows := showsRun_showRun (output_runOf w κ text l interactive)
    (runOf_ne_unmatchedBracket w κ l interactive h)
  rw [hrun]
  exact hshows.congr (output_asShown _) (error_asShown _) (exitCode_asShown _)

/-! ### Interactive runs -/

/-- The transcript of a run's end depends on the output, the count and the answer. -/
theorem showRun_congr {m m' : Machine} (houtput : m'.output = m.output)
    (hcount : m'.stepCount = m.stepCount) (answer : Except Fault (List UInt8)) :
    showRun m' answer = showRun m answer := by
  unfold showRun
  rw [houtput, hcount]

/-- The limits of a run that reads what an interactive run is given by the standard input. -/
def Surroundings.limitsWithInput (w : Surroundings) (l : Limits) : Limits :=
  l.withInput (Latin1.decode w.standardInput.data.toList)

variable {κ' : Clock}

/-- An interactive run ends like the run that has the bytes of the standard input for its input text. -/
theorem showRun_interactive (w w' : Surroundings) (text : String)
    (alike : Clock.Alike l.timeout κ κ') :
    showRun (runOf w' κ' text (w.limitsWithInput l) false).1
        (runOf w' κ' text (w.limitsWithInput l) false).2 =
      showRun (runOf w κ text l true).1 (runOf w κ text l true).2 := by
  obtain ⟨hanswer, houtput, hcount⟩ :=
    runFed_ofStream (Program.ofText text) l w.standardInput.data.toList alike.symm
  rw [Array.toArray_toList] at hanswer houtput hcount
  simp only [runOf_true, runOf_false, Surroundings.limitsWithInput]
  rw [← hanswer]
  exact showRun_congr houtput.symm hcount.symm _

/-- What is shown of an interactive run and of the run with the bytes of the standard input for its input text differs
in debug messages at most. -/
theorem runLoaded_interactive (w w' : Surroundings) (text : String)
    (alike : Clock.Alike l.timeout κ κ') :
    (runLoaded w' κ' text (w.limitsWithInput l) false).asShown false =
      (runLoaded w κ text l true).asShown false := by
  by_cases h : (Program.ofText text).unmatched = []
  · obtain ⟨start, hrun⟩ := runLoaded_of_balanced w κ l true h
    obtain ⟨start', hrun'⟩ := runLoaded_of_balanced w' κ' (w.limitsWithInput l) false h
    rw [hrun, hrun', asShown_after_runMessages, asShown_after_runMessages,
      showRun_interactive w w' text alike]
  · rw [runLoaded_of_unmatched h, runLoaded_of_unmatched h]

/-! ### The command as a whole -/

/-- A run from the command line, whichever limits it has and whatever its clock shows. If the program has unmatched
brackets, the run is refused for them, and the validation of the program prints a line for each and fails
too. Otherwise the command prints one byte for each output instruction executed, in order, also if the run fails; it
succeeds exactly if the run does, and no failure is an unmatched bracket. An interactive run prints and fails as the
run does that has the bytes of the standard input for its input text, if the time budget is used up behind the same
instructions in both, as it is if it fires in neither. Without debug messages the two show the same altogether. -/
theorem run_command_end_to_end {args : List String}
    (h : AsksRun args w text l interactive verbose) :
    let p := Program.ofText text
    ∃ t, perform? args w κ = some t ∧
      (p.unmatched ≠ [] → RefusesFor t p.unmatched ∧
        ∀ args' w' κ', AsksValidation args' w' text →
          ∃ t', perform? args' w' κ' = some t' ∧ t'.exitCode = 1 ∧
            PrintsLines t' (p.unmatched.map (·.message))) ∧
      (p.unmatched = [] →
        ShowsRun t (visitsOfRun w κ text l interactive) (runOf w κ text l interactive).2) ∧
      (interactive = true →
        ∀ args' w' κ' verbose', AsksRun args' w' text (w.limitsWithInput l) false verbose' →
          Clock.Alike l.timeout κ κ' →
          ∃ t', perform? args' w' κ' = some t' ∧ t'.output = t.output ∧ t'.error = t.error ∧
            t'.exitCode = t.exitCode ∧ (verbose = false → verbose' = false → t' = t)) := by
  intro p
  refine ⟨_, h.perform_eq, fun hbrackets ↦ ⟨?_, ?_⟩, showsRun_runLoaded, ?_⟩
  · rw [runLoaded_of_unmatched hbrackets]
    exact refusesFor_refuse p.unmatched
  · intro args' w' κ' hvalidation
    obtain ⟨verbose', hperform⟩ := hvalidation.perform_eq
    obtain ⟨hexit, hlines⟩ := printsLines_validateText hbrackets
    refine ⟨_, hperform, ?_, ?_, hlines.single⟩
    · rw [exitCode_asShown, hexit]
    · rw [output_asShown, hlines.output_eq]
  · rintro rfl args' w' κ' verbose' hrun alike
    have hsame := runLoaded_interactive w w' text alike
    have houtput := congrArg Transcript.output hsame
    have herror := congrArg Transcript.error hsame
    have hexit := congrArg Transcript.exitCode hsame
    rw [output_asShown, output_asShown] at houtput
    rw [error_asShown, error_asShown] at herror
    rw [exitCode_asShown, exitCode_asShown] at hexit
    refine ⟨_, hrun.perform_eq, ?_, ?_, ?_, ?_⟩
    · rw [output_asShown, output_asShown, houtput]
    · rw [error_asShown, error_asShown, herror]
    · rw [exitCode_asShown, exitCode_asShown, hexit]
    · rintro rfl rfl
      exact hsame

/-- An interactive run that fails behind its first byte, and the same run on an input text. -/
theorem run_command_shows_partial_output :
    let w : Surroundings := ⟨⟨#[0xE9]⟩, fun _ ↦ none⟩
    let l : Limits := { maxMemory := 1, maxSteps := 9 }
    let limits := ["--max-memory", "1", "--max-steps", "9"]
    let onStream := ["run", "-e", ",.>,.", "--interactive"] ++ limits
    let onText := ["run", "-e", ",.>,.", "--input", "é"] ++ limits
    let κ : Clock := .standard
    let κ' : Clock := { elapsed _ := 5, elapsed_pos _ := by decide }
    (AsksRun onStream w ",.>,." l true false ∧
        AsksRun onText w ",.>,." (w.limitsWithInput l) false false ∧
        κ.Lasts l.timeout ∧ κ'.Lasts l.timeout) ∧
      ∃ t, perform? onStream w κ = some t ∧ t.output = [0xE9] ∧
        t.error = some "execution failed: Memory limit exceeded (1 cells) at position 2" ∧
        t.exitCode ≠ 0 ∧ perform? onText w κ' = some t := by
  intro w l limits onStream onText κ κ'
  have hstream : AsksRun onStream w ",.>,." l true false :=
    ⟨.inline ",.>,.", { options := { maxMemory := some 1, maxSteps := some 9 } },
      by decide +kernel, by decide, rfl, rfl⟩
  have htext : AsksRun onText w ",.>,." (w.limitsWithInput l) false false :=
    ⟨.inline ",.>,.", { options := { maxMemory := some 1, maxSteps := some 9, userInput := some "é" } },
      by decide +kernel, by decide, rfl, by decide +kernel⟩
  have hlasts : κ.Lasts l.timeout := Clock.standard_lasts (by decide)
  have hlasts' : κ'.Lasts l.timeout := fun _ ↦ rfl
  obtain ⟨t, ht, -, hshows, hsame⟩ := run_command_end_to_end (κ := κ) hstream
  have hbalanced : (Program.ofText ",.>,.").unmatched = [] := by decide +kernel
  have hshows := hshows hbalanced
  have hvisits : bytesPrinted (visitsOfRun w κ ",.>,." l true) = [0xE9] := by decide +kernel
  have hanswer : (runOf w κ ",.>,." l true).2 = .error (.memoryLimit 1 2) := by decide +kernel
  obtain ⟨t', ht', -, -, -, heq⟩ := hsame rfl onText w κ' false htext (hlasts.alike hlasts')
  refine ⟨⟨hstream, htext, hlasts, hlasts'⟩, t, ht, hshows.output_eq.trans hvisits, ?_, ?_, ?_⟩
  · rw [hshows.error_iff]
    exact ⟨_, hanswer, by decide +kernel⟩
  · rw [Ne, hshows.exitCode_iff, hanswer]
    rintro ⟨bytes, hbytes⟩
    contradiction
  · rw [ht', heq rfl rfl]

end TapeLang.Command
