import TapeLang.Proofs.Structured.Simulation
import TapeLang.Proofs.Machine.Course

/-!
# Runs evaluate blocks

A run of a balanced program whose time budget does not end makes the visits of
the program's block one after the other, until the evaluation is complete, the
budget of instructions is used up, or an instruction would leave the allowed
cells. One of the three always comes first (`exists_outcome`), and each of them
determines what the run answers and where the machine stops.
-/

namespace TapeLang

namespace Machine

variable {p : Program} {l : Limits} {m m' e : Machine} {i : Instruction} {s : Store} {v : Visit}
  {vs : List Visit} {post : Machine → Prop} {κ : Clock}

/-! ### Machines that only the limits can stop -/

/-- No bracket, no clock and no request stops the machine. -/
structure Quiet (m : Machine) : Prop where
  sound : m.StackSound
  balanced : m.program.unmatched = []
  lasting : m.clock.Lasts m.limits.timeout
  unasked : m.stopRequested = false

theorem Quiet.settle_eq (h : m.Quiet) :
    m.settle = if m.isFinished then .finished else .more := by
  rw [settle, outOfTime, h.unasked, h.lasting, Bool.and_false]
  rfl

/-- An executed instruction leaves the machine quiet. -/
theorem Quiet.performs (h : m.Quiet) (current : m.current? = some i)
    (effect : m.Performs none i e) : e.moveOn.Quiet := by
  refine ⟨h.sound.performs current effect, ?_, ?_, effect.stopRequested_eq.trans h.unasked⟩
  · rw [← h.balanced]
    exact congrArg (fun i : Image ↦ i.program.unmatched) effect.image_eq
  · have hlimits : e.moveOn.limits = m.limits := congrArg Image.limits effect.image_eq
    have hclock : e.moveOn.clock = m.clock := effect.clock_eq
    rw [hlimits, hclock]
    exact h.lasting

/-- With budget left a quiet machine executes its next instruction, unless that leaves the allowed cells. -/
theorem Quiet.step_cases (h : m.Quiet) (current : m.current? = some i)
    (budget : m.outOfSteps = false) :
    (∃ e, m.Performs none i e ∧
        m.step = (e.moveOn, if e.moveOn.isFinished then .finished else .more)) ∨
      (i = .right ∧ m.limits.maxMemory ≤ m.pointer + 1 ∧
        m.step = (m, .failed (.memoryLimit m.limits.maxMemory m.pc))) := by
  rcases stepWith_of_current none current budget with ⟨e, effect, heq⟩ | ⟨m', fault, effect, heq⟩
  · refine Or.inl ⟨e, effect, ?_⟩
    rw [step, heq, (h.performs current effect).settle_eq]
  · have hreported : ∀ b, fault = .unmatchedBracket b → b ∈ m.program.unmatched := by
      rintro b rfl
      exact h.sound.mem_unmatched (congrArg Prod.snd heq)
    rw [h.balanced] at hreported
    cases effect with
    | noRoom full => exact Or.inr ⟨rfl, full, heq⟩
    | unclosed => exact absurd (hreported _ rfl) List.not_mem_nil
    | stray => exact absurd (hreported _ rfl) List.not_mem_nil

-- If the instruction was the last one, the machine has come to its end and stays there.
private theorem advance_of_step (h : m.step = (e, if e.isFinished then .finished else .more))
    (n : Nat) : advance step (n + 1 + 1) m = advance step (n + 1) e := by
  cases hfinished : e.isFinished with
  | true =>
    have hend := step_of_end (current?_eq_none_iff.mpr hfinished)
    rw [advance_succ, h, hfinished, advance_succ, hend]
    rfl
  | false =>
    rw [advance_succ, h, hfinished]
    rfl

-- The same for the machine alone, without the answer of a further step.
private theorem advance_fst_of_step
    (h : m.step = (e, if e.isFinished then .finished else .more)) (n : Nat) :
    (advance step (n + 1) m).1 = (advance step n e).1 := by
  cases hfinished : e.isFinished with
  | true =>
    have hend := step_of_end (current?_eq_none_iff.mpr hfinished)
    rw [advance_succ, h, hfinished]
    cases n with
    | zero => rfl
    | succ n =>
      rw [advance_succ, hend]
      rfl
  | false =>
    rw [advance_succ, h, hfinished]
    rfl

/-- A quiet machine makes the visits in front of it if the budget and the allowed cells suffice. -/
theorem Passes.advance (h : Passes post vs m) (hquiet : m.Quiet)
    (hcells : ∀ v ∈ vs, ¬ v.Leaves m.limits.maxMemory)
    (hbudget : m.stepCount + vs.length ≤ m.limits.maxSteps) :
    ∃ m', post m' ∧ m'.Quiet ∧ m'.limits = m.limits ∧ m'.stepCount = m.stepCount + vs.length ∧
      (advance step vs.length m).1 = m' ∧
      ∀ n, advance step (vs.length + (n + 1)) m = advance step (n + 1) m' := by
  induction vs generalizing m with
  | nil =>
    refine ⟨m, h, hquiet, rfl, rfl, rfl, fun n ↦ ?_⟩
    rw [List.length_nil, Nat.zero_add]
  | cons v vs ih =>
    obtain ⟨current, hshows, hnext⟩ := h
    rw [List.length_cons] at hbudget
    have budget : m.outOfSteps = false := decide_eq_false (by omega)
    rcases hquiet.step_cases current budget with ⟨e, effect, hstep⟩ | ⟨hright, hfull, -⟩
    · have hlimits : e.moveOn.limits = m.limits := congrArg Image.limits effect.image_eq
      have hcount := effect.stepCount_moveOn
      obtain ⟨m', hpost, hquiet', hlimits', hcount', hreached, hadvance⟩ :=
        ih (hnext e effect) (hquiet.performs current effect)
          (by rw [hlimits]; exact fun w hw ↦ hcells w (List.mem_cons_of_mem v hw))
          (by rw [hlimits, hcount]; omega)
      refine ⟨m', hpost, hquiet', hlimits'.trans hlimits, ?_, ?_, fun n ↦ ?_⟩
      · rw [hcount', hcount, List.length_cons]
        omega
      · rw [List.length_cons, advance_fst_of_step hstep, hreached]
      · have hlength : (v :: vs).length + (n + 1) = vs.length + n + 1 + 1 := by
          rw [List.length_cons]
          omega
        rw [hlength, advance_of_step hstep]
        exact hadvance n
    · rw [hshows.pointer_eq] at hfull
      exact False.elim (hcells v List.mem_cons_self ⟨hright, hfull⟩)

/-- Within the visits in front of it the machine stands in front of those that are left. -/
theorem passes_advance (h : Passes post vs m) (hquiet : m.Quiet)
    (hcells : ∀ v ∈ vs, ¬ v.Leaves m.limits.maxMemory)
    (hbudget : m.stepCount + vs.length ≤ m.limits.maxSteps) {n : Nat} (hn : n ≤ vs.length) :
    Passes post (vs.drop n) (advance step n m).1 := by
  have hlength : (vs.take n).length = n := by rw [List.length_take, Nat.min_eq_left hn]
  have hsplit : Passes (Passes post (vs.drop n)) (vs.take n) m := by
    rw [← passes_append, List.take_append_drop]
    exact h
  obtain ⟨m', hrest, -, -, -, hreached, -⟩ := hsplit.advance hquiet
    (fun v hv ↦ hcells v (List.mem_of_mem_take hv)) (by rw [hlength]; omega)
  rw [hlength] at hreached
  rw [hreached]
  exact hrest

/-- At the end of its program a machine has no instruction in front of it. -/
theorem At.current?_eq_none (h : At p l p.size s m) : m.current? = none :=
  h.current?_eq.trans (Program.get?_eq_none_iff.mpr (Nat.le_refl _))

/-- A quiet machine that finishes has made all visits in front of it. If these lead to the end of the program, it has
stopped behind them. -/
theorem post_of_finished {n : Nat} (h : Passes post vs m) (hquiet : m.Quiet)
    (hfinished : (advance step n m).2 = .finished) :
    vs.length ≤ n ∧ ((∀ m', post m' → m'.current? = none) → post (advance step n m).1) := by
  induction vs generalizing m n with
  | nil =>
    refine ⟨Nat.zero_le n, fun hend ↦ ?_⟩
    cases n with
    | zero => contradiction
    | succ n =>
      rw [advance_succ, step_of_end (hend m h)]
      exact h
  | cons v vs ih =>
    obtain ⟨current, -, hnext⟩ := h
    cases n with
    | zero => contradiction
    | succ n =>
      rw [advance_succ] at hfinished ⊢
      cases budget : m.outOfSteps with
      | true =>
        rw [step, stepWith_of_spent none current budget] at hfinished
        contradiction
      | false =>
        rcases hquiet.step_cases current budget with ⟨e, effect, hstep⟩ | ⟨-, -, hstep⟩
        · rw [hstep] at hfinished ⊢
          have hrest := hnext e effect
          cases hend : e.moveOn.isFinished with
          | true =>
            -- The instruction was the last one, so no visit is left.
            cases vs with
            | nil => exact ⟨Nat.succ_le_succ (Nat.zero_le n), fun _ ↦ hrest⟩
            | cons w vs =>
              have := hrest.1.symm.trans (current?_eq_none_iff.mpr hend)
              contradiction
          | false =>
            rw [hend] at hfinished
            obtain ⟨hlength, hpost⟩ := ih hrest (hquiet.performs current effect) hfinished
            exact ⟨Nat.succ_le_succ hlength, hpost⟩
        · rw [hstep] at hfinished
          contradiction

private theorem quiet_begin (hp : p.unmatched = []) (hl : κ.Lasts l.timeout) :
    (load p l κ).begin.Quiet :=
  ⟨stackSound_of_start rfl rfl, hp, hl, rfl⟩

private theorem at_begin (p : Program) (l : Limits) (κ : Clock) : At p l 0 {} (load p l κ).begin :=
  ⟨rfl, rfl, rfl, stackSound_of_start rfl rfl, ⟨fun _ ↦ Tape.get_empty _, rfl, rfl, rfl⟩⟩

/-- The run makes the visits, and if the next step answers, the run answers with it. -/
private theorem run_of_passes (hp : p.unmatched = []) (hl : κ.Lasts l.timeout)
    (h : Passes post vs (load p l κ).begin) (hcells : ∀ v ∈ vs, ¬ v.Leaves l.maxMemory)
    (hbudget : vs.length ≤ l.maxSteps) :
    ∃ m, post m ∧ m.Quiet ∧ m.limits = l ∧ m.stepCount = vs.length ∧
      (m.step.2 ≠ .more → (load p l κ).run = m.step.1.conclude m.step.2) := by
  have hbudget' : (load p l κ).begin.stepCount + vs.length ≤ l.maxSteps := by
    rwa [← Nat.zero_add vs.length] at hbudget
  obtain ⟨m, hpost, hquiet, hlimits, hcount, -, hadvance⟩ :=
    h.advance (quiet_begin hp hl) hcells hbudget'
  refine ⟨m, hpost, hquiet, hlimits, hcount.trans (Nat.zero_add _), fun hanswer ↦ ?_⟩
  have hsteps : (load p l κ).stepsToAnswer = vs.length + (l.maxSteps - vs.length + 1) := by
    change l.maxSteps + 1 = _
    omega
  rw [run_eq, hsteps, hadvance, advance_succ, if_neg hanswer]

end Machine

/-! ### The three outcomes -/

variable {p : Program} {b : Block} {l : Limits} {vs : List Visit} {v : Visit} {s : Store}
  {κ : Clock}

/-- A complete evaluation within the budget and the allowed cells. -/
structure Completes (b : Block) (l : Limits) (vs : List Visit) (s : Store) : Prop where
  evaluates : Evaluates l.inputBytes (.front b) {} vs (some s)
  budget : vs.length ≤ l.maxSteps
  cells : ∀ w ∈ vs, ¬ w.Leaves l.maxMemory

/-- An evaluation that goes on when the budget is used up. -/
structure UsesUp (b : Block) (l : Limits) (vs : List Visit) (v : Visit) : Prop where
  evaluates : Evaluates l.inputBytes (.front b) {} (vs ++ [v]) none
  budget : vs.length = l.maxSteps
  cells : ∀ w ∈ vs, ¬ w.Leaves l.maxMemory

/-- An evaluation that leaves the allowed cells within the budget. -/
structure Oversteps (b : Block) (l : Limits) (vs : List Visit) (v : Visit) : Prop where
  evaluates : Evaluates l.inputBytes (.front b) {} (vs ++ [v]) none
  budget : vs.length < l.maxSteps
  cells : ∀ w ∈ vs, ¬ w.Leaves l.maxMemory
  leaves : v.Leaves l.maxMemory

private theorem first_leaving (vs : List Visit) (room : Nat) :
    (∀ w ∈ vs, ¬ w.Leaves room) ∨
      ∃ us v, us ++ [v] <+: vs ∧ (∀ w ∈ us, ¬ w.Leaves room) ∧ v.Leaves room := by
  induction vs with
  | nil => exact Or.inl fun w hw ↦ absurd hw List.not_mem_nil
  | cons v vs ih =>
    by_cases hv : v.Leaves room
    · exact Or.inr ⟨[], v, ⟨vs, rfl⟩, fun w hw ↦ absurd hw List.not_mem_nil, hv⟩
    rcases ih with hall | ⟨us, u, hfront, hus, hu⟩
    · exact Or.inl (List.forall_mem_cons.mpr ⟨hv, hall⟩)
    · refine Or.inr ⟨v :: us, u, ?_, List.forall_mem_cons.mpr ⟨hv, hus⟩, hu⟩
      exact List.cons_prefix_cons.mpr ⟨rfl, hfront⟩

/-- One of the three outcomes comes first. -/
theorem exists_outcome (b : Block) (l : Limits) :
    (∃ vs s, Completes b l vs s) ∨ (∃ vs v, UsesUp b l vs v) ∨ ∃ vs v, Oversteps b l vs v := by
  rcases proceeds l.inputBytes (l.maxSteps + 1) (.front b) {} with ⟨vs, s, h, hlength⟩ |
    ⟨vs, h, hlength⟩
  · rcases first_leaving vs l.maxMemory with hall | ⟨us, v, hfront, hus, hv⟩
    · exact Or.inl ⟨vs, s, h, Nat.le_of_lt_succ hlength, hall⟩
    · have hle := hfront.length_le
      rw [List.length_append, List.length_singleton] at hle
      exact Or.inr (Or.inr ⟨us, v, h.cut_off hfront, by omega, hus, hv⟩)
  · obtain ⟨ws, v, rfl⟩ : ∃ ws v, vs = ws ++ [v] := by
      rcases List.eq_nil_or_concat vs with rfl | ⟨ws, v, rfl⟩
      · contradiction
      · exact ⟨ws, v, List.concat_eq_append⟩
    rw [List.length_append, List.length_singleton] at hlength
    rcases first_leaving ws l.maxMemory with hall | ⟨us, u, hfront, hus, hu⟩
    · exact Or.inr (Or.inl ⟨ws, v, h, Nat.succ.inj hlength, hall⟩)
    · have hle := hfront.length_le
      rw [List.length_append, List.length_singleton] at hle
      have hcut := h.cut_off (hfront.trans (List.prefix_append ws [v]))
      exact Or.inr (Or.inr ⟨us, u, hcut, by omega, hus, hu⟩)

/-! ### What each outcome answers -/

open Machine

/-- A machine in front of its program makes the visits of every evaluation of the program's block. -/
theorem passes_of_at {m : Machine} {r : Option Store} (hb : b.code = p.toList) (hm : At p l 0 s m)
    (h : Evaluates l.inputBytes (.front b) s vs r) : Passes (Finishes p l p.size r) vs m := by
  have hspells := p.spells_toList
  rw [← hb] at hspells
  refine passes_of_evaluates h ⟨hspells, trivial⟩ ?_ hm
  change 0 + b.code.length = p.size
  rw [hb, Nat.zero_add, Program.length_toList]

private theorem passes_begin {r : Option Store} (hb : b.code = p.toList)
    (h : Evaluates l.inputBytes (.front b) {} vs r) :
    Passes (Finishes p l p.size r) vs (load p l κ).begin :=
  passes_of_at hb (at_begin p l κ) h

/-- A quiet machine finishes its program with the store of a complete evaluation, if the budget and the allowed cells
suffice. -/
theorem finishes_of_evaluates {m : Machine} {s' : Store} (hb : b.code = p.toList)
    (hm : At p l 0 s m) (hquiet : m.Quiet) (h : Evaluates l.inputBytes (.front b) s vs (some s'))
    (hcells : ∀ v ∈ vs, ¬ v.Leaves m.limits.maxMemory)
    (hbudget : m.stepCount + vs.length ≤ m.limits.maxSteps) :
    ∃ e, advance step (vs.length + 1) m = (e, .finished) ∧ e.Shows s' := by
  obtain ⟨e, hfinishes, -, -, -, -, hadvance⟩ :=
    (passes_of_at hb hm h).advance hquiet hcells hbudget
  have hat := hfinishes s' rfl
  refine ⟨e, ?_, hat.shows⟩
  rw [hadvance 0, advance_succ, step_of_end hat.current?_eq_none]
  rfl

/-- A quiet machine that finishes its program shows the end of a complete evaluation of the program's block. -/
theorem evaluates_of_finished {m : Machine} {n : Nat} (hb : b.code = p.toList) (hm : At p l 0 s m)
    (hquiet : m.Quiet) (hfinished : (advance step n m).2 = .finished) :
    ∃ vs s', Evaluates l.inputBytes (.front b) s vs (some s') ∧
      (advance step n m).1.Shows s' := by
  rcases proceeds l.inputBytes (n + 1) (.front b) s with ⟨vs, s', h, -⟩ | ⟨vs, h, hlength⟩
  · have hend := (post_of_finished (passes_of_at hb hm h) hquiet hfinished).2
      fun m' hm' ↦ (hm' s' rfl).current?_eq_none
    exact ⟨vs, s', h, (hend s' rfl).shows⟩
  · -- An evaluation that goes on past `n` visits keeps the machine from finishing.
    have hle := (post_of_finished (passes_of_at hb hm h) hquiet hfinished).1
    omega

theorem unmatched_eq_nil (hb : b.code = p.toList) : p.unmatched = [] :=
  Block.exists_parse_iff.mp ⟨b, Block.parse_eq_some_iff.mpr hb⟩

/-- A complete evaluation is what the run does. -/
theorem Completes.run_eq (h : Completes b l vs s) (hb : b.code = p.toList)
    (hl : κ.Lasts l.timeout) :
    (load p l κ).run.2 = .ok s.output ∧ (load p l κ).run.1.Shows s ∧
      (load p l κ).run.1.stepCount = vs.length := by
  obtain ⟨m, hfinishes, -, -, hcount, hrun⟩ :=
    run_of_passes (unmatched_eq_nil hb) hl (passes_begin hb h.evaluates) h.cells h.budget
  have hat := hfinishes s rfl
  have hstep := step_of_end hat.current?_eq_none
  rw [hrun (by rw [hstep]; exact Status.noConfusion), hstep]
  refine ⟨?_, hat.shows.congr rfl rfl rfl rfl, hcount⟩
  change Except.ok m.printed.reverse = Except.ok s.printed.reverse
  rw [hat.shows.printed_eq]

/-- The run stops in front of the first instruction past the budget. -/
theorem UsesUp.run_eq (h : UsesUp b l vs v) (hb : b.code = p.toList) (hl : κ.Lasts l.timeout) :
    (load p l κ).run.2 = .error (.stepLimit l.maxSteps) ∧ (load p l κ).run.1.Shows v.store ∧
      (load p l κ).run.1.stepCount = vs.length := by
  obtain ⟨m, ⟨current, hshows, -⟩, -, hlimits, hcount, hrun⟩ :=
    run_of_passes (unmatched_eq_nil hb) hl (passes_append.mp (passes_begin hb h.evaluates)) h.cells
      (Nat.le_of_eq h.budget)
  have hspent : m.outOfSteps = true := by
    refine decide_eq_true ?_
    rw [hlimits, hcount]
    exact Nat.le_of_eq h.budget.symm
  have hstep : m.step = (m, .failed (.stepLimit l.maxSteps)) := by
    rw [← hlimits]
    exact stepWith_of_spent none current hspent
  rw [hrun (by rw [hstep]; exact Status.noConfusion), hstep]
  exact ⟨rfl, hshows.congr rfl rfl rfl rfl, hcount⟩

/-- The run stops in front of the instruction that would leave the allowed cells. -/
theorem Oversteps.run_eq (h : Oversteps b l vs v) (hb : b.code = p.toList)
    (hl : κ.Lasts l.timeout) :
    (∃ position, (load p l κ).run.2 = .error (.memoryLimit l.maxMemory position)) ∧
      (load p l κ).run.1.Shows v.store ∧ (load p l κ).run.1.stepCount = vs.length := by
  obtain ⟨m, ⟨current, hshows, -⟩, hquiet, hlimits, hcount, hrun⟩ :=
    run_of_passes (unmatched_eq_nil hb) hl (passes_append.mp (passes_begin hb h.evaluates)) h.cells
      (Nat.le_of_lt h.budget)
  have hleft : m.outOfSteps = false := by
    refine decide_eq_false ?_
    rw [hlimits, hcount]
    exact Nat.not_le_of_lt h.budget
  have hstep : m.step = (m, .failed (.memoryLimit l.maxMemory m.pc)) := by
    rcases hquiet.step_cases current hleft with ⟨e, effect, -⟩ | ⟨-, -, hstep⟩
    · rw [h.leaves.1] at effect
      cases effect with
      | right room =>
        rw [hlimits, hshows.pointer_eq] at room
        exact False.elim (Nat.not_le_of_lt room h.leaves.2)
    · rw [hstep, hlimits]
  rw [hrun (by rw [hstep]; exact Status.noConfusion), hstep]
  exact ⟨⟨m.pc, rfl⟩, hshows.congr rfl rfl rfl rfl, hcount⟩

/-! ### Runs of balanced programs -/

/-- A run answers as the evaluation of a block tells, and stops where the evaluation does. -/
structure AnswersAs (b : Block) (l : Limits) (run : Machine × Except Fault (List UInt8)) : Prop where
  /-- The run gives an output exactly if the evaluation comes to its end within the limits. -/
  ok_iff : (∃ output, run.2 = .ok output) ↔ ∃ vs s, Completes b l vs s
  /-- Then the two agree on the output, the cells, the pointer, the input position and the count. -/
  ok : ∀ vs s, Completes b l vs s →
    run.2 = .ok s.output ∧ run.1.Shows s ∧ run.1.stepCount = vs.length
  /-- The budget is the cause exactly if it is used up first. -/
  stepLimit_iff : run.2 = .error (.stepLimit l.maxSteps) ↔ ∃ vs v, UsesUp b l vs v
  /-- Then the machine stops in front of the first instruction past the budget. -/
  stepLimit : ∀ vs v, UsesUp b l vs v → run.1.Shows v.store ∧ run.1.stepCount = vs.length
  /-- The cells are the cause exactly if an instruction leaves them first. -/
  memoryLimit_iff : (∃ position, run.2 = .error (.memoryLimit l.maxMemory position)) ↔
    ∃ vs v, Oversteps b l vs v
  /-- Then the machine stops in front of that instruction. -/
  memoryLimit : ∀ vs v, Oversteps b l vs v → run.1.Shows v.store ∧ run.1.stepCount = vs.length
  /-- There is no other cause. -/
  error : ∀ fault, run.2 = .error fault →
    fault = .stepLimit l.maxSteps ∨ ∃ position, fault = .memoryLimit l.maxMemory position

/-- The outcome that comes first is the answer of the run. -/
theorem answer_cases (hb : b.code = p.toList) (hl : κ.Lasts l.timeout) :
    (∃ vs s, Completes b l vs s ∧ (load p l κ).run.2 = .ok s.output) ∨
      (∃ vs v, UsesUp b l vs v ∧ (load p l κ).run.2 = .error (.stepLimit l.maxSteps)) ∨
      ∃ vs v, Oversteps b l vs v ∧
        ∃ position, (load p l κ).run.2 = .error (.memoryLimit l.maxMemory position) := by
  rcases exists_outcome b l with ⟨vs, s, h⟩ | ⟨vs, v, h⟩ | ⟨vs, v, h⟩
  · exact Or.inl ⟨vs, s, h, (h.run_eq hb hl).1⟩
  · exact Or.inr (Or.inl ⟨vs, v, h, (h.run_eq hb hl).1⟩)
  · exact Or.inr (Or.inr ⟨vs, v, h, (h.run_eq hb hl).1⟩)

/-- A balanced program has a block, and if the time budget lasts, every run of the program answers as
the evaluation of the block tells. -/
theorem run_answers_as_block (hp : p.unmatched = []) (hl : κ.Lasts l.timeout) :
    ∃ b, Block.parse p.toList = some b ∧ AnswersAs b l (load p l κ).run := by
  obtain ⟨b, hparse⟩ := Block.exists_parse_iff.mpr hp
  have hb := Block.parse_eq_some_iff.mp hparse
  have hcases := answer_cases hb hl
  refine ⟨b, hparse, ?_⟩
  constructor
  · constructor
    · rintro ⟨output, hrun⟩
      rw [hrun] at hcases
      rcases hcases with ⟨vs, s, h, -⟩ | ⟨_, _, -, hlimit⟩ | ⟨_, _, -, _, hlimit⟩
      · exact ⟨vs, s, h⟩
      · contradiction
      · contradiction
    · rintro ⟨vs, s, h⟩
      exact ⟨s.output, (h.run_eq hb hl).1⟩
  · exact fun vs s h ↦ h.run_eq hb hl
  · constructor
    · intro hrun
      rw [hrun] at hcases
      rcases hcases with ⟨_, _, -, hok⟩ | ⟨vs, v, h, -⟩ | ⟨_, _, -, _, hlimit⟩
      · contradiction
      · exact ⟨vs, v, h⟩
      · injection hlimit with hfault
        contradiction
    · rintro ⟨vs, v, h⟩
      exact (h.run_eq hb hl).1
  · exact fun vs v h ↦ (h.run_eq hb hl).2
  · constructor
    · rintro ⟨position, hrun⟩
      rw [hrun] at hcases
      rcases hcases with ⟨_, _, -, hok⟩ | ⟨_, _, -, hlimit⟩ | ⟨vs, v, h, -⟩
      · contradiction
      · injection hlimit with hfault
        contradiction
      · exact ⟨vs, v, h⟩
    · rintro ⟨vs, v, h⟩
      exact (h.run_eq hb hl).1
  · exact fun vs v h ↦ (h.run_eq hb hl).2
  · intro fault hrun
    rw [hrun] at hcases
    rcases hcases with ⟨_, _, -, hok⟩ | ⟨_, _, -, hlimit⟩ | ⟨_, _, -, position, hlimit⟩
    · contradiction
    · exact Or.inl (Except.error.inj hlimit)
    · exact Or.inr ⟨position, Except.error.inj hlimit⟩

/-- A program with a loop in a loop, run with room for two cells and in less than its time. -/
theorem run_answers_as_nested_loops :
    let p := Program.ofList [.increment, .increment, .loopStart, .right, .increment, .loopStart,
      .output, .decrement, .loopEnd, .left, .decrement, .loopEnd]
    let l : Limits := { timeout := 1, maxSteps := 100, maxMemory := 2 }
    let κ : Clock := { elapsed n := 9 * min n 100 + 1, elapsed_pos _ := Nat.succ_pos _ }
    (p.unmatched = [] ∧ κ.Lasts l.timeout) ∧
      ∃ b, Block.parse p.toList = some b ∧ AnswersAs b l (load p l κ).run := by
  intro p l κ
  have hp : p.unmatched = [] := by decide
  have hl : κ.Lasts l.timeout := by
    intro n
    have hwithin : ¬ Clock.millisecond * 1 < 9 * min n 100 + 1 := by
      rw [Clock.millisecond]
      omega
    exact decide_eq_false hwithin
  exact ⟨⟨hp, hl⟩, run_answers_as_block hp hl⟩

end TapeLang
