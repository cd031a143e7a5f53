import TapeLang.Proofs.Machine.Course

/-!
# What runs print

A run prints the current cell at each output instruction it executes, and
nothing else. So its output can be read off the instructions it executes, each
with the value of the cell that it finds (`visitsOf`, `bytesPrinted`). This does
not depend on how the run ends (`output_run`), nor on who serves its input
(`output_runFed`).
-/

namespace TapeLang

/-- The instructions in front of the first `n` machines that an advance passes, each with the value of the current
cell. -/
def visitsOf {σ : Type} (next : σ → σ × Status) (machine : σ → Machine) (s : σ) (n : Nat) :
    List (Instruction × UInt8) :=
  (List.range n).filterMap fun i ↦
    let m := machine (advance next i s).1
    m.current?.map fun instruction ↦ (instruction, m.cell)

/-- The bytes that instructions print, each of them executed on a cell with the value beside it. -/
def bytesPrinted (visits : List (Instruction × UInt8)) : List UInt8 :=
  visits.filterMap fun visit ↦ if visit.1 = .output then some visit.2 else none

namespace Machine

variable {m m' : Machine} {provided : Option UInt8} {i : Instruction} {status : Status}

/-- Nothing is executed and nothing printed, or one instruction is executed, and the current cell printed if that is
an output instruction. -/
def PrintsTo (m m' : Machine) : Prop :=
  (m'.stepCount = m.stepCount ∧ m'.output = m.output) ∨
    (m'.stepCount = m.stepCount + 1 ∧
      ∃ i, m.current? = some i ∧ m'.output = m.output ++ bytesPrinted [(i, m.cell)])

/-- Just an output instruction prints, and it prints the current cell. -/
theorem Performs.output_eq (h : m.Performs provided i m') :
    m'.output = m.output ++ bytesPrinted [(i, m.cell)] := by
  cases h with
  | output => exact List.reverse_cons
  | read =>
    have hprinted : m.readInput.2.printed = m.printed := (congrArg printed m.readInput_frame :)
    exact (congrArg List.reverse hprinted).trans (List.append_nil _).symm
  | _ => exact (List.append_nil _).symm

theorem StepsTo.printsTo (h : m.StepsTo provided m' status) : m.PrintsTo m' := by
  cases h with
  | ended | spent => exact .inl ⟨rfl, rfl⟩
  | refused _ _ effect => exact .inl ⟨effect.stepCount_eq, (congrArg output effect.frame :)⟩
  | executed current _ effect =>
    exact .inr ⟨effect.stepCount_moveOn, _, current, effect.output_eq⟩

/-- Reading from a feed prints nothing. -/
theorem FeedsTo.printsTo {s s' : Machine × Feed} (h : FeedsTo s s' status) : s.1.PrintsTo s'.1 := by
  cases h with
  | alone => exact (stepWith_spec s.1 none).printsTo
  | served asks => exact .inr ⟨rfl, _, asks.1, (List.append_nil _).symm⟩
  | unserved => exact .inl ⟨rfl, rfl⟩

/-! ### Advances -/

section

variable {σ : Type} {next : σ → σ × Status} {machine : σ → Machine} {s : σ} {k : Nat}

theorem visitsOf_succ (n : Nat) :
    visitsOf next machine s (n + 1) =
      visitsOf next machine s n ++
        ((machine (advance next n s).1).current?.map
          fun i ↦ (i, (machine (advance next n s).1).cell)).toList := by
  rw [visitsOf, filterMap_range_succ, visitsOf]

theorem bytesPrinted_append (visits more : List (Instruction × UInt8)) :
    bytesPrinted (visits ++ more) = bytesPrinted visits ++ bytesPrinted more :=
  List.filterMap_append

variable (printsTo : ∀ s, (machine s).PrintsTo (machine (next s).1))
  (counts : ∀ s, (next s).2 = .more →
    (machine (next s).1).stepCount = (machine s).stepCount + 1)
include printsTo

-- One step behind `k` executed instructions, where the output is what these have printed.
private theorem output_step (hk : (machine (advance next k s).1).stepCount = k)
    (hbefore : (machine (advance next k s).1).output = bytesPrinted (visitsOf next machine s k)) :
    (machine (next (advance next k s).1).1).output =
      bytesPrinted (visitsOf next machine s
        (machine (next (advance next k s).1).1).stepCount) := by
  rcases printsTo (advance next k s).1 with ⟨hsame, hnothing⟩ | ⟨hnext, i, current, hprinted⟩
  · rw [hnothing, hsame, hk, hbefore]
  · rw [hprinted, hnext, hk, visitsOf_succ, bytesPrinted_append, current, hbefore]
    rfl

variable (hcount : (machine s).stepCount = 0) (houtput : (machine s).output = [])
include counts hcount houtput

/-- As long as instructions remain, the output is what the executed ones have printed. -/
private theorem output_of_more (hmore : (advance next k s).2 = .more) :
    (machine (advance next k s).1).stepCount = k ∧
      (machine (advance next k s).1).output = bytesPrinted (visitsOf next machine s k) := by
  induction k with
  | zero => exact ⟨hcount, houtput⟩
  | succ k ih =>
    have hbefore := advance_more_of_le (Nat.le_succ k) hmore
    obtain ⟨hk, hprinted⟩ := ih hbefore
    have hstep := output_step printsTo hk hprinted
    rw [advance_succ_of_more hbefore] at hmore ⊢
    have hnext : (machine (next (advance next k s).1).1).stepCount = k + 1 := by
      rw [counts _ hmore, hk]
    rw [hnext] at hstep
    exact ⟨hnext, hstep⟩

/-- The output behind the last step is what the executed instructions have printed. -/
private theorem output_of_ends {last : σ × Status} (h : Ends next s k last) :
    (machine last.1).output =
      bytesPrinted (visitsOf next machine s (machine last.1).stepCount) := by
  obtain ⟨hk, hprinted⟩ := output_of_more printsTo counts hcount houtput h.more
  rw [← h.last_eq]
  exact output_step printsTo hk hprinted

end

/-! ### Runs -/

/-- The output of a run is what the instructions it executes print. -/
theorem output_run (m : Machine) :
    m.run.1.output = bytesPrinted (visitsOf step id m.begin m.run.1.stepCount) := by
  obtain ⟨k, -, last, hends, hrun⟩ := run_ends m
  rw [hrun]
  exact output_of_ends (fun s ↦ (stepWith_spec s none).printsTo) (fun s h ↦ (step_of_more h).1)
    rfl rfl hends

/-- The output of a run on a feed is what the instructions it executes print. -/
theorem output_runFed (m : Machine) (feed : Feed) :
    (m.runFed feed).1.output =
      bytesPrinted (visitsOf stepOnFeed Prod.fst (m.begin, feed) (m.runFed feed).1.stepCount) := by
  obtain ⟨k, -, last, hends, hrun⟩ := runFed_ends m feed
  rw [hrun]
  exact output_of_ends (fun s ↦ (stepOnFeed_spec s).printsTo) (fun s h ↦ (stepOnFeed_of_more h).1)
    rfl rfl hends

end Machine

end TapeLang
