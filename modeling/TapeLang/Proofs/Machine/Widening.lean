import TapeLang.Proofs.Machine.Bounds
import TapeLang.Proofs.Machine.Driving
import TapeLang.Proofs.Machine.Printing
import TapeLang.Proofs.Machine.Timing

/-!
# Wider limits

A run under wider limits does what the run under the narrower ones does, and may
go on where that one is held up. One step shows it (`step_withLimits`): the same
step under both, or a refusal by a limit that leaves the machine as it is. So a
run that no limit refuses is the same under the wider limits (`run_wider`), and
of two budgets the smaller one cuts the run off at its last instruction. All this
is said of one clock first; clocks that are alike do not tell runs apart.

Main statement: `wider_limits_extend_the_run`.
-/

namespace TapeLang

namespace Machine

variable {p : Program} {l l' : Limits} {m m' : Machine} {provided : Option UInt8}
  {i : Instruction} {fault : Fault} {status : Status} {κ κ' : Clock}

def withLimits (m : Machine) (l : Limits) : Machine :=
  m.transfer (.of m.program l) m.inputPosition

/-- The machines behind the instructions that at most `n` steps execute, in order. -/
def executions : Nat → Machine → List Machine
  | 0, _ => []
  | n + 1, m =>
    if m.step.1.stepCount = m.stepCount then []
    else m.step.1 :: if m.step.2 = .more then executions n m.step.1 else []

/-- The machines behind the instructions that a run executes, in order. -/
def trail (m : Machine) : List Machine := executions m.stepsToAnswer m.begin

/-- There is one machine for each instruction executed. -/
theorem length_executions (n : Nat) (m : Machine) :
    m.stepCount + (executions n m).length = (advance step n m).1.stepCount := by
  induction n generalizing m with
  | zero => rfl
  | succ n ih =>
    obtain ⟨hlower, hupper⟩ := (stepWith_spec m none).stepCount_bounds
    rw [← step] at hlower hupper
    rw [executions, advance_succ]
    split
    · next hsame =>
      have hmore : m.step.2 ≠ .more := fun hmore ↦ by
        rw [(step_of_more hmore).1] at hsame
        exact Nat.succ_ne_self _ hsame
      rw [if_neg hmore, hsame]
      rfl
    · next hcounted =>
      split
      · rw [← ih, List.length_cons]
        omega
      · rw [List.length_singleton]
        omega

theorem length_trail (m : Machine) : m.trail.length = m.run.1.stepCount :=
  (Nat.zero_add _).symm.trans (length_executions m.stepsToAnswer m.begin)

/-! ### The output grows -/

/-- A step adds to the output at most. -/
theorem StepsTo.output_grows (h : m.StepsTo provided m' status) : m.output <+: m'.output := by
  rcases h.printsTo with ⟨-, hsame⟩ | ⟨-, i, -, hprinted⟩
  · exact hsame ▸ List.prefix_rfl
  · exact hprinted ▸ List.prefix_append _ _

/-- The output of a machine that a run passes is the beginning of the output of the run. -/
theorem output_grows_run {k : Nat} (hmore : (advance step k m.begin).2 = .more) :
    (advance step k m.begin).1.output <+: m.run.1.output := by
  obtain ⟨n, hn, last, hends, hrun⟩ := run_ends m
  obtain ⟨d, hd⟩ : ∃ d, n + 1 = k + d :=
    Nat.exists_eq_add_of_le (Nat.le_succ_of_le (hends.le_of_more hmore))
  have hlast : advance step (n + 1) m.begin = last := hends.advance_eq (Nat.lt_succ_self n)
  rw [hd, advance_add, if_pos hmore] at hlast
  have hgrows : (advance step k m.begin).1.output <+: last.1.output := by
    rw [← hlast]
    exact advance_preserves
      (P := fun m' ↦ (advance step k m.begin).1.output <+: m'.output)
      (fun m' hm' ↦ hm'.trans (stepWith_spec m' none).output_grows) d List.prefix_rfl
  rw [hrun]
  exact hgrows

/-! ### One step -/

theorem withLimits_withLimits (m : Machine) (l l' : Limits) :
    (m.withLimits l).withLimits l' = m.withLimits l' := rfl

/-- A machine under the limits it was loaded with. -/
theorem withLimits_of_image (h : m.image = Image.of p l) : m.withLimits l = m := by
  have hprogram : m.program = p := congrArg Image.program h
  rw [withLimits, hprogram, ← h]
  rfl

private theorem readInput_withLimits (input : l'.userInput = m.limits.userInput) :
    (m.withLimits l').readInput.1 = m.readInput.1 ∧
      (m.withLimits l').readInput.2.inputPosition = m.readInput.2.inputPosition := by
  have hinput : (m.withLimits l').image.input = m.image.input := by
    rw [m.image.input_eq]
    exact congrArg (fun text ↦ (Latin1.encode text).toArray) input
  unfold readInput
  rw [hinput]
  cases h : m.image.input[m.inputPosition]? with
  | none => simp only [withLimits, transfer, h, and_self]
  | some value => simp only [withLimits, transfer, h, and_self]

/-- A step is the same under wider limits, unless a limit refuses it. -/
theorem step_withLimits (narrow : m.limits.Narrows l') (input : l'.userInput = m.limits.userInput) :
    (m.withLimits l').step = (m.step.1.withLimits l', m.step.2) ∨ ∃ fault, m.HeldUp fault := by
  have hprogram : (Image.of m.program l').program = m.program := rfl
  have hprogram' : m.step.1.program = m.program := (stepWith_spec m none).program_eq
  by_cases asks : m.Asks
  · obtain ⟨hbyte, hnext⟩ := readInput_withLimits input
    have hthere : (m.withLimits l').step = _ := step_transfer_of_asks asks hprogram narrow hbyte
    have hposition : m.step.1.inputPosition = m.readInput.2.inputPosition := by
      rw [step_of_asks asks]
      rfl
    rw [hthere, withLimits, hprogram', hposition, ← hnext]
    exact Or.inl rfl
  · rw [withLimits, withLimits, hprogram', inputPosition_of_idle asks]
    exact step_transfer asks hprogram narrow m.inputPosition

/-! ### Runs -/

/-- The machines that a run passes are passed under wider limits. -/
theorem executions_withLimits {n n' : Nat} (narrow : m.limits.Narrows l')
    (input : l'.userInput = m.limits.userInput) (hn : n ≤ n') :
    (executions n m).map (·.withLimits l') <+: executions n' (m.withLimits l') := by
  induction n generalizing m n' with
  | zero => exact List.nil_prefix
  | succ n ih =>
    obtain ⟨n', rfl⟩ := Nat.exists_eq_succ_of_ne_zero (Nat.ne_of_gt (Nat.lt_of_lt_of_le n.succ_pos hn))
    rcases step_withLimits narrow input with hsame | ⟨fault, hheld⟩
    · have hlimits : m.step.1.limits = m.limits := (stepWith_spec m none).limits_eq
      have hrest := ih (m := m.step.1) (by rwa [hlimits]) (by rwa [hlimits]) (Nat.le_of_succ_le_succ hn)
      by_cases hcount : m.step.1.stepCount = m.stepCount
      · rw [executions, if_pos hcount]
        exact List.nil_prefix
      · have hthere : (m.withLimits l').step.1.stepCount ≠ (m.withLimits l').stepCount := by
          rw [hsame]
          exact hcount
        rw [executions, executions, if_neg hcount, if_neg hthere, hsame, List.map_cons]
        split
        · exact (List.prefix_cons_inj _).mpr hrest
        · exact List.prefix_rfl
    · rw [executions, hheld.step_eq, if_pos rfl]
      exact List.nil_prefix

/-- As long as instructions remain, the steps are the same under wider limits. -/
theorem advance_withLimits {k : Nat} (narrow : m.limits.Narrows l')
    (input : l'.userInput = m.limits.userInput) (hmore : (advance step k m).2 = .more) :
    advance step k (m.withLimits l') = ((advance step k m).1.withLimits l', .more) := by
  induction k with
  | zero => rfl
  | succ k ih =>
    have hbefore := advance_more_of_le (Nat.le_succ k) hmore
    have hthere := ih hbefore
    have hlimits : (advance step k m).1.limits = m.limits :=
      congrArg Image.limits (image_advance m k)
    have hgoes : (advance step k (m.withLimits l')).2 = .more := by rw [hthere]
    rw [advance_succ_of_more hbefore] at hmore ⊢
    rw [advance_succ_of_more hgoes, hthere]
    rcases step_withLimits (by rwa [hlimits]) (by rwa [hlimits]) with hsame | ⟨fault, hheld⟩
    · rw [hsame, hmore]
    · rw [hheld.step_eq] at hmore
      contradiction

/-- The run is held up in a machine from which it goes on under the other limits. -/
structure CutOff (p : Program) (l l' : Limits) (κ : Clock) (m : Machine) (fault : Fault) :
    Prop where
  heldUp : m.HeldUp fault
  image_eq : m.image = .of p l
  run_eq : (load p l κ).run = m.conclude (.failed fault)
  goes_on : ∃ k, advance step k (load p l' κ).begin = (m.withLimits l', .more)

/-- Under wider limits a run is the same, unless it was cut off. -/
theorem run_wider (p : Program) (κ : Clock) (narrow : l.Narrows l') (input : l'.userInput = l.userInput) :
    (load p l' κ).run = ((load p l κ).run.1.withLimits l', (load p l κ).run.2) ∨
      ∃ m fault, CutOff p l l' κ m fault := by
  obtain ⟨k, hk, last, hends, hrun⟩ := run_ends (load p l κ)
  have himage : (advance step k (load p l κ).begin).1.image = .of p l := image_advance _ k
  have hlimits := congrArg Image.limits himage
  have hthere : advance step k (load p l' κ).begin =
      ((advance step k (load p l κ).begin).1.withLimits l', .more) :=
    advance_withLimits (m := (load p l κ).begin) narrow input hends.more
  rcases step_withLimits (m := (advance step k (load p l κ).begin).1) (by rwa [limits, hlimits])
    (by rwa [limits, hlimits]) with hsame | ⟨fault, hheld⟩
  · rw [hends.last_eq] at hsame
    have hends' : Ends step (load p l' κ).begin k (last.1.withLimits l', last.2) := by
      refine ⟨by rw [hthere], ?_, hends.answered⟩
      rw [hthere, hsame]
    refine Or.inl ?_
    rw [run_eq_of_ends hends' (Nat.le_trans hk narrow.maxSteps_le), hrun]
    rfl
  · have hlast := hends.last_eq
    rw [hheld.step_eq] at hlast
    refine Or.inr ⟨_, fault, hheld, himage, ?_, k, hthere⟩
    rw [hrun, ← hlast]

/-! ### Two budgets -/

/-- A run that comes to a machine that is held up ends with the fault that holds it up. -/
theorem HeldUp.run_eq {k : Nat} (h : m'.HeldUp fault)
    (hthere : advance step k m.begin = (m', .more)) : m.run = m'.conclude (.failed fault) := by
  have hmore : (advance step k m.begin).2 = .more := by rw [hthere]
  obtain ⟨n, hn, last, hends, -⟩ := run_ends m
  have hlast : Ends step m.begin k (m', .failed fault) := by
    refine ⟨hmore, ?_, Status.noConfusion⟩
    rw [hthere, h.step_eq]
  exact run_eq_of_ends hlast (Nat.le_trans (hends.le_of_more hmore) hn)

/-- A run that ends well gives its output. -/
theorem output_of_run_eq_ok {out : List UInt8} (hok : m.run.2 = .ok out) :
    m.run.1.output = out := by
  rw [Machine.run_eq] at hok ⊢
  cases hstatus : (advance step m.stepsToAnswer m.begin).2 with
  | failed fault =>
    rw [hstatus] at hok
    contradiction
  | more | finished =>
    rw [hstatus] at hok
    exact Except.ok.inj hok

/-- A run that ends well executes the instructions it comes to. -/
theorem stepCount_lt_of_pending {k : Nat} {out : List UInt8}
    (hthere : advance step k m.begin = (m', .more)) (pending : m'.current? ≠ none)
    (hok : m.run.2 = .ok out) : m'.stepCount < m.run.1.stepCount := by
  have hmore : (advance step k m.begin).2 = .more := by rw [hthere]
  obtain ⟨n, -, last, hends, hrun⟩ := run_ends m
  obtain ⟨d, rfl⟩ := Nat.exists_eq_add_of_le (hends.le_of_more hmore)
  have hcount := stepCount_advance hends.more
  have hrest := hends.more
  have hlast := hends.last_eq
  have hanswered := hends.answered
  rw [advance_add, if_pos hmore, hthere] at hcount hrest hlast
  have hlater : (advance step d m').1.stepCount = m'.stepCount + d := stepCount_advance hrest
  have hstop : (advance step d m').1.stopRequested = false := by
    have hsame := stopRequested_advance m.begin k
    rw [hthere] at hsame
    exact (stopRequested_advance m' d).trans hsame
  have hspec := stepWith_spec (advance step d m').1 none
  rw [← step, hlast] at hspec
  rw [hrun] at hok ⊢
  rcases hspec.answer_cases hanswered hstop with ⟨hend, -⟩ | ⟨hexecuted, -⟩ | ⟨-, fault, hfault, -⟩
  · exact absurd hend (current?_advance hrest pending)
  · show m'.stepCount < last.1.stepCount
    omega
  · rw [hfault] at hok
    contradiction

/-- A smaller budget cuts off a run that ends well, at the last instruction that it allows. -/
theorem CutOff.of_smaller_budget {budget : Nat} {out : List UInt8}
    (h : CutOff p { l with maxSteps := budget } l κ m fault) (hbudget : budget ≤ l.maxSteps)
    (hok : (load p l κ).run.2 = .ok out) :
    fault = .stepLimit budget ∧ m.stepCount = budget ∧ budget < (load p l κ).run.1.stepCount ∧
      m.output <+: out := by
  obtain ⟨heldUp, himage, hrun, k, hthere⟩ := h
  have hlimits : m.limits = { l with maxSteps := budget } := congrArg Image.limits himage
  have hmore : (advance step k (load p l κ).begin).2 = .more := by rw [hthere]
  cases heldUp with
  | spent pending spent =>
    have hlower : m.limits.maxSteps ≤ m.stepCount := of_decide_eq_true spent
    have hupper : (load p { l with maxSteps := budget } κ).run.1.stepCount ≤ budget :=
      (Reachable.load κ).run.bounds.stepCount_le
    rw [hrun] at hupper
    rw [hlimits] at hlower
    have hcount : m.stepCount = budget := Nat.le_antisymm hupper hlower
    have hthen : (m.withLimits l).current? ≠ none := pending
    have hlater := stepCount_lt_of_pending hthere hthen hok
    refine ⟨congrArg (fun l : Limits ↦ Fault.stepLimit l.maxSteps) hlimits, hcount, ?_, ?_⟩
    · rw [← hcount]
      exact hlater
    · have hprefix := output_grows_run hmore
      rw [hthere, output_of_run_eq_ok hok] at hprefix
      exact hprefix
  | noRoom current spent full =>
    have hleft : m.stepCount < m.limits.maxSteps := Nat.lt_of_not_le (of_decide_eq_false spent)
    rw [hlimits] at hleft full
    have hspent : (m.withLimits l).outOfSteps = false :=
      decide_eq_false (Nat.not_le.mpr (Nat.lt_of_lt_of_le hleft hbudget))
    have hheld : (m.withLimits l).HeldUp (.memoryLimit (m.withLimits l).limits.maxMemory m.pc) :=
      .noRoom current hspent full
    rw [hheld.run_eq hthere] at hok
    contradiction

/-- A run that ends well within its budget is the same under every budget that allows its instructions, and is cut
off behind the last instruction that a smaller budget allows. -/
theorem run_of_budget {out : List UInt8} (hok : (load p l κ).run.2 = .ok out) (budget : Nat) :
    let run := (load p l κ).run
    let rerun := (load p { l with maxSteps := budget } κ).run
    (run.1.stepCount ≤ budget →
      rerun = (run.1.withLimits { l with maxSteps := budget }, .ok out)) ∧
    (budget < run.1.stepCount →
      rerun.2 = .error (.stepLimit budget) ∧ rerun.1.stepCount = budget ∧
        rerun.1.output <+: out) := by
  intro run rerun
  have hcount : run.1.stepCount ≤ l.maxSteps := (Reachable.load κ).run.bounds.stepCount_le
  rcases Nat.le_total l.maxSteps budget with hwider | hnarrower
  · have narrow : l.Narrows { l with maxSteps := budget } := ⟨rfl, hwider, Nat.le_refl _⟩
    refine ⟨fun _ ↦ ?_, fun hlt ↦ absurd hlt (Nat.not_lt.mpr (Nat.le_trans hcount hwider))⟩
    rcases run_wider p κ narrow rfl with hsame | ⟨m, fault, hcut⟩
    · rw [← hok]
      exact hsame
    · rw [hcut.run_eq] at hok
      contradiction
  · have narrow : Limits.Narrows { l with maxSteps := budget } l := ⟨rfl, hnarrower, Nat.le_refl _⟩
    rcases run_wider p κ narrow rfl with hsame | ⟨m, fault, hcut⟩
    · have himage : rerun.1.image = .of p { l with maxSteps := budget } := image_run _
      have hback : run.1.withLimits { l with maxSteps := budget } = rerun.1 := by
        rw [show run.1 = _ from congrArg Prod.fst hsame, withLimits_withLimits]
        exact withLimits_of_image himage
      have hanswer : rerun.2 = .ok out := (congrArg Prod.snd hsame).symm.trans hok
      have hwithin : run.1.stepCount ≤ budget := by
        rw [show run.1.stepCount = rerun.1.stepCount from congrArg (·.1.stepCount) hsame]
        exact (Reachable.load κ).run.bounds.stepCount_le
      refine ⟨fun _ ↦ ?_, fun hlt ↦ absurd hlt (Nat.not_lt.mpr hwithin)⟩
      rw [hback, ← hanswer]
    · obtain ⟨hfault, hbudget, hlt, hprefix⟩ := hcut.of_smaller_budget hnarrower hok
      refine ⟨fun hle ↦ absurd hlt (Nat.not_lt.mpr hle), fun _ ↦ ?_⟩
      have hrerun : rerun = m.conclude (.failed fault) := hcut.run_eq
      rw [hrerun, hfault]
      exact ⟨rfl, hbudget, hprefix⟩

/-! ### Two clocks -/

/-- Under a clock that is alike a run passes the same machines. -/
theorem executions_withClock (alike : Clock.Alike m.limits.timeout m.clock κ) (n : Nat) :
    executions n (m.withClock κ) = (executions n m).map (·.withClock κ) := by
  induction n generalizing m with
  | zero => rfl
  | succ n ih =>
    have hspec := stepWith_spec m none
    have hrest := ih (m := m.step.1) (by rwa [step, hspec.limits_eq, hspec.clock_eq])
    have hcount : (m.withClock κ).step.1.stepCount = m.step.1.stepCount := by
      rw [step_withClock alike]
      rfl
    rw [executions, executions, hcount, step_withClock alike, hrest]
    show (if m.step.1.stepCount = m.stepCount then [] else _) = _
    split
    · rfl
    · split <;> rfl

/-- Wider limits extend a run, if the time budget is used up behind the same instructions. The machines it passes, one
behind each instruction, are passed under the wider limits too. If it ends with anything but a limit on instructions or
cells, nothing changes under the wider limits. A run that ends well does so under every budget that allows its
instructions; a smaller budget ends it when it is used up, with the beginning of its output. -/
theorem wider_limits_extend_the_run (p : Program) {l l' : Limits} (narrow : l.Narrows l')
    (input : l'.userInput = l.userInput) {κ κ' : Clock} (alike : Clock.Alike l.timeout κ κ') :
    let run := (load p l κ).run
    (load p l κ).trail.length = run.1.stepCount ∧
      (load p l κ).trail.map (fun m ↦ (m.withLimits l').withClock κ') <+: (load p l' κ').trail ∧
      ((∀ limit, run.2 ≠ .error (.stepLimit limit)) →
        (∀ limit position, run.2 ≠ .error (.memoryLimit limit position)) →
        (load p l' κ').run = ((run.1.withLimits l').withClock κ', run.2)) ∧
      ∀ out, run.2 = .ok out → ∀ budget,
        let rerun := (load p { l with maxSteps := budget } κ').run
        (run.1.stepCount ≤ budget →
          rerun = ((run.1.withLimits { l with maxSteps := budget }).withClock κ', .ok out)) ∧
        (budget < run.1.stepCount →
          rerun.2 = .error (.stepLimit budget) ∧ rerun.1.stepCount = budget ∧
            rerun.1.output <+: out) := by
  intro run
  have hrun : (load p l κ').run = (run.1.withClock κ', run.2) :=
    run_withClock (m := load p l κ) alike
  refine ⟨length_trail _, ?_, ?_, ?_⟩
  · have hbegin : (load p l κ').begin = (load p l κ).begin.withClock κ' := rfl
    have hclock := executions_withClock (m := (load p l κ).begin) alike
      (load p l κ).stepsToAnswer
    have hwider := executions_withLimits (m := (load p l κ').begin) narrow input
      (Nat.succ_le_succ narrow.maxSteps_le)
    rw [hbegin] at hwider
    have htrail : (executions (load p l κ).stepsToAnswer
        ((load p l κ).begin.withClock κ')).map (·.withLimits l') <+: (load p l' κ').trail := hwider
    rw [hclock, List.map_map] at htrail
    exact htrail
  · intro hsteps hmemory
    rcases run_wider p κ' narrow input with hsame | ⟨m, fault, hcut⟩
    · rw [hsame, hrun]
      rfl
    · have hanswer : run.2 = .error fault := by
        have hthere : (load p l κ').run.2 = .error fault := congrArg Prod.snd hcut.run_eq
        rwa [hrun] at hthere
      cases hcut.heldUp with
      | spent => exact absurd hanswer (hsteps _)
      | noRoom => exact absurd hanswer (hmemory _ _)
  · intro out hok budget
    have hthere := run_of_budget (p := p) (l := l) (κ := κ') (by rw [hrun]; exact hok) budget
    rw [hrun] at hthere
    exact hthere

/-- A run that needs the whole of its budget and the last of its cells, in no more than its time on either clock. -/
theorem wider_limits_extend_an_exact_run :
    let p := Program.ofList [.right, .increment, .output]
    let l : Limits := { timeout := 1, maxSteps := 3, maxMemory := 2 }
    let l' : Limits := { timeout := 1, maxSteps := 9, maxMemory := 5 }
    let κ : Clock := { elapsed _ := 7, elapsed_pos _ := by decide }
    let κ' : Clock := { elapsed _ := 1000000, elapsed_pos _ := by decide }
    (l.Narrows l' ∧ l'.userInput = l.userInput ∧ Clock.Alike l.timeout κ κ' ∧
        (load p l κ).run.2 = .ok [1]) ∧
      (load p l κ).trail.map (fun m ↦ (m.withLimits l').withClock κ') <+: (load p l' κ').trail ∧
      (load p l' κ').run.2 = .ok [1] ∧
      (load p { l with maxSteps := 2 } κ').run.2 = .error (.stepLimit 2) := by
  intro p l l' κ κ'
  have narrow : l.Narrows l' := ⟨rfl, by decide, by decide⟩
  have halike : Clock.Alike l.timeout κ κ' := by
    intro n
    simp [Clock.exceeds, Clock.millisecond, l, κ, κ']
  have hok : (load p l κ).run.2 = .ok [1] := by decide +kernel
  obtain ⟨-, htrail, hsame, hbudget⟩ := wider_limits_extend_the_run p narrow rfl halike
  refine ⟨⟨narrow, rfl, halike, hok⟩, htrail, ?_, ?_⟩
  · rw [hsame (by simp [hok]) (by simp [hok])]
    exact hok
  · exact ((hbudget [1] hok 2).2 (by decide +kernel)).1

end Machine

end TapeLang
