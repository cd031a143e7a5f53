import TapeLang.Proofs.Machine.Driving

/-!
# A stream in place of an input text

A run on a feed takes no byte from the input text of its limits, so it is the
same whatever that text is (`runFed_withInput`). If the feed is a stream of bytes
and the text is taken to be the characters of these bytes, the feed supplies what
the text holds. So an interactive run does what a straight run does that has the
bytes for its input text, under a clock that is alike (`runFed_ofStream`).
-/

namespace TapeLang

def Limits.withInput (l : Limits) (input : String) : Limits := { l with userInput := input }

theorem Limits.agrees_withInput (l : Limits) (input : String) : l.Agrees (l.withInput input) :=
  ⟨rfl, rfl, rfl⟩

namespace Machine

variable {m : Machine} {image : Image} {s : Machine × Feed}

/-- Machines whose limits agree ask for input together. -/
theorem asks_transfer_iff (hprogram : image.program = m.program)
    (agrees : m.limits.Agrees image.limits) (n : Nat) : (m.transfer image n).Asks ↔ m.Asks := by
  have hsteps : (m.transfer image n).limits.maxSteps = m.limits.maxSteps := agrees.maxSteps_eq
  rw [Asks, Asks, current?_transfer hprogram, hsteps]
  rfl

/-- A step on a feed is the same under every image of the program whose limits agree. -/
theorem stepOnFeed_transfer (hprogram : image.program = s.1.program)
    (agrees : s.1.limits.Agrees image.limits) (n : Nat) :
    stepOnFeed (s.1.transfer image n, s.2) =
      (((stepOnFeed s).1.1.transfer image n, (stepOnFeed s).1.2), (stepOnFeed s).2) := by
  have hasks : (s.1.transfer image n, s.2).1.Asks ↔ s.1.Asks := asks_transfer_iff hprogram agrees n
  by_cases asks : s.1.Asks
  · cases reply : s.2.next.1 with
    | byte value requestsStop =>
      have hthere := stepOnFeed_of_byte (hasks.mpr asks) reply
      have hsettle := settle_transfer (m := s.1.receive value requestsStop) hprogram
        agrees.timeout_eq n
      rw [stepOnFeed_of_byte asks reply, hthere, ← hsettle]
      rfl
    | unavailable failure =>
      have hthere := stepOnFeed_of_unavailable (hasks.mpr asks) reply
      rw [stepOnFeed_of_unavailable asks reply, hthere]
      rfl
  · have hthere := stepOnFeed_of_idle (mt hasks.mp asks)
    rw [stepOnFeed_of_idle asks, hthere, step_transfer_of_agrees asks hprogram agrees n]

/-- The same machine on the same feed, under an image of its program whose limits agree. -/
private def Transferred (image : Image) (s t : Machine × Feed) : Prop :=
  t = (s.1.transfer image 0, s.2) ∧ image.program = s.1.program ∧ s.1.limits.Agrees image.limits

private theorem transferred_step {s t : Machine × Feed} (h : Transferred image s t) :
    (stepOnFeed s).2 = (stepOnFeed t).2 ∧ Transferred image (stepOnFeed s).1 (stepOnFeed t).1 := by
  obtain ⟨rfl, hprogram, agrees⟩ := h
  have himage := (stepOnFeed_spec s).image_eq
  have hprogram' : (stepOnFeed s).1.1.program = s.1.program := congrArg Image.program himage
  have hlimits' : (stepOnFeed s).1.1.limits = s.1.limits := congrArg Image.limits himage
  rw [stepOnFeed_transfer hprogram agrees 0]
  exact ⟨rfl, rfl, hprogram.trans hprogram'.symm, hlimits' ▸ agrees⟩

/-- A run on a feed does not depend on the input text. -/
theorem runFed_withInput (p : Program) (l : Limits) (κ : Clock) (input : String) (feed : Feed) :
    (load p (l.withInput input) κ).runFed feed =
      (((load p l κ).runFed feed).1.transfer (.of p (l.withInput input)) 0,
        ((load p l κ).runFed feed).2) := by
  have hbegin : Transferred (.of p (l.withInput input)) ((load p l κ).begin, feed)
      ((load p (l.withInput input) κ).begin, feed) := ⟨rfl, rfl, l.agrees_withInput input⟩
  obtain ⟨hstatus, hmachine, -⟩ :=
    advance_simulates (fun _ _ ↦ transferred_step)
      (sliceLength * ((load p l κ).stepsToAnswer / sliceLength + 1)) hbegin
  rw [runFed_eq, runFed_eq, fedSteps, fedSteps, advance_mul, advance_mul]
  have hsteps : (load p (l.withInput input) κ).stepsToAnswer = (load p l κ).stepsToAnswer := rfl
  rw [hsteps, ← hstatus, hmachine]
  rfl

/-- A run on a stream of bytes gives the answer, the output and the count of the run that reads the characters of the
bytes from its input text. -/
theorem runFed_ofStream (p : Program) (l : Limits) (bytes : List UInt8) {κ κ' : Clock}
    (alike : Clock.Alike l.timeout κ κ') :
    let fed := (load p l κ').runFed (Feed.ofStream bytes.toArray)
    let run := (load p (l.withInput (Latin1.decode bytes)) κ).run
    fed.2.2 = run.2 ∧ fed.1.output = run.1.output ∧ fed.1.stepCount = run.1.stepCount := by
  intro fed run
  have hsupplies : (Feed.ofStream bytes.toArray).Supplies
      (load p (l.withInput (Latin1.decode bytes)) κ).limits.inputBytes := by
    have hbytes : (load p (l.withInput (Latin1.decode bytes)) κ).limits.inputBytes = bytes :=
      Latin1.encode_decode bytes
    rw [hbytes]
    exact Feed.supplies_ofStream bytes
  have hrun := runFed_eq_run (load p (l.withInput (Latin1.decode bytes)) κ) hsupplies
  rw [runFed_withInput] at hrun
  have hfed : fed = _ := runFed_withClock (m := load p l κ) alike (Feed.ofStream bytes.toArray)
  rw [hfed]
  obtain ⟨hmachine, hanswer⟩ := Prod.ext_iff.mp hrun
  exact ⟨congrArg Prod.snd hanswer, (congrArg output hmachine :), (congrArg stepCount hmachine :)⟩

end Machine

end TapeLang
