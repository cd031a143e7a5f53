import TapeLang.Proofs.Transition.Entries

/-!
# Multiply loops that halt

A multiply loop is executed in front of a zero cell. It comes to its end exactly
if its own cell drains, and then the next cell holds the value the loop lands on
(`landsOn_iff`). So the loops that a machine executes to their end are those that
are listed for a value (`landsOn_iff_roundsToZero`).
-/

namespace TapeLang.Transition

open Machine

variable {l : MultiplyLoop} {start target v x : UInt8} {input : List UInt8} {s t : Store}
  {vs : List Visit} {rest : Block} {maxSteps n : Nat}

namespace MultiplyLoop

/-- A machine in front of the loop, with a value in the first of two cells and a zero next to it. -/
def machine (l : MultiplyLoop) (start : UInt8) (maxSteps : Nat) : Machine :=
  { load ⟨l.word⟩ { maxSteps, maxMemory := 2 } with tape := ({} : Tape).set 0 start }

/-- Executed next to a zero, the loop comes to its end and leaves a value in the next cell. -/
def LandsOn (l : MultiplyLoop) (start target : UInt8) : Prop :=
  ∃ maxSteps n, (advance step n (l.machine start maxSteps)).2 = .finished ∧
    (advance step n (l.machine start maxSteps)).1.tape.get 1 = target

/-! ### The machine in front of the loop -/

theorem ready_machine (l : MultiplyLoop) (start : UInt8) (maxSteps : Nat) :
    (l.machine start maxSteps).store.Ready start := by
  have hget (i : Nat) : (l.machine start maxSteps).store.cells i = if i = 0 then start else 0 := by
    change (({} : Tape).set 0 start).get i = _
    rw [Tape.get_set, Tape.get_empty]
  refine ⟨(hget 0).trans (if_pos rfl), fun i hi ↦ ?_⟩
  have hne : i ≠ 0 := Nat.ne_of_gt hi
  rw [hget, if_neg hne]

theorem quiet_machine (l : MultiplyLoop) (start : UInt8) (maxSteps : Nat) :
    (l.machine start maxSteps).Quiet :=
  have hbudget : (l.machine start maxSteps).limits.timeout ≠ 0 := Nat.succ_ne_zero _
  ⟨stackSound_of_start rfl rfl, unmatched_eq_nil l.code_block, Clock.standard_lasts hbudget, rfl⟩

theorem at_machine (l : MultiplyLoop) (start : UInt8) (maxSteps : Nat) :
    At ⟨l.word⟩ (l.machine start maxSteps).limits 0 (l.machine start maxSteps).store
      (l.machine start maxSteps) :=
  ⟨rfl, rfl, rfl, stackSound_of_start rfl rfl, shows_store _⟩

/-! ### Evaluations that come to an end -/

-- From inside the loop, by induction on the rounds that the evaluation makes.
private theorem drains_of_inside
    (h : Evaluates input (.inside l.body rest) (s.spread v x) vs (some t)) :
    ∃ n, Drains (l.direction.change (UInt8.ofNat l.outer)) n
      (l.direction.change (UInt8.ofNat l.outer) v) := by
  generalize hcontrol : Control.inside l.body rest = c at h
  generalize hstore : s.spread v x = s₀ at h
  generalize hend : some t = r at h
  induction h generalizing v x with
  | cut | done | basic | skip | enter | within => contradiction
  | again round nonzero next _ ih =>
    injection hcontrol with hbody hrest
    subst hbody hrest hstore
    obtain ⟨ws, hround, -⟩ := l.walks_body input s v x
    obtain ⟨-, rfl⟩ := round.unique hround
    rw [Store.cell_spread] at nonzero
    obtain ⟨n, hdrains⟩ := ih rfl rfl hend
    exact ⟨n + 1, nonzero, hdrains⟩
  | leave round zero next =>
    injection hcontrol with hbody hrest
    subst hbody hrest hstore
    obtain ⟨ws, hround, -⟩ := l.walks_body input s v x
    obtain ⟨-, rfl⟩ := round.unique hround
    rw [Store.cell_spread] at zero
    exact ⟨0, zero⟩

/-- A loop whose evaluation comes to an end drains its cell. -/
theorem drains_of_evaluates
    (h : Evaluates input (.front l.block) (s.spread v x) vs (some t)) :
    ∃ n, Drains (l.direction.change (UInt8.ofNat l.outer)) n v := by
  cases h with
  | skip zero =>
    rw [Store.cell_spread] at zero
    exact ⟨0, zero⟩
  | enter nonzero next =>
    rw [Store.cell_spread] at nonzero
    obtain ⟨n, hdrains⟩ := drains_of_inside next
    exact ⟨n + 1, nonzero, hdrains⟩

/-! ### Runs that come to an end -/

/-- A loop lands on a value exactly if its cell drains, in the number of rounds that leads to the value. -/
theorem landsOn_iff :
    l.LandsOn start target ↔
      ∃ n, Drains (l.direction.change (UInt8.ofNat l.outer)) n start ∧ l.landing n = target := by
  have hget (s : Store) (y : UInt8) : (s.beside 0 y).cells (s.pointer + 1) = y :=
    Store.cell_beside s 0 y
  constructor
  · rintro ⟨maxSteps, n, hfinished, htarget⟩
    have hready := l.ready_machine start maxSteps
    obtain ⟨vs, t, hevaluates, hshows⟩ := evaluates_of_finished l.code_block
      (l.at_machine start maxSteps) (l.quiet_machine start maxSteps) hfinished
    rw [← hready.spread_eq] at hevaluates
    obtain ⟨k, hdrains⟩ := drains_of_evaluates hevaluates
    obtain ⟨ws, hwalk, -⟩ := l.walks_block _ (l.machine start maxSteps).store hdrains
    obtain ⟨-, rfl⟩ := hevaluates.unique hwalk
    refine ⟨k, hdrains, ?_⟩
    rw [← htarget, hshows.get_eq]
    exact (hget _ _).symm
  · rintro ⟨k, hdrains, rfl⟩
    -- The budget plays no part in the evaluation, so it may be taken from its length.
    have hready := l.ready_machine start 0
    obtain ⟨ws, hwalk, -, hcells⟩ :=
      l.walks_block (l.machine start 0).limits.inputBytes (l.machine start 0).store hdrains
    rw [hready.spread_eq] at hwalk
    have hroom : ∀ w ∈ ws, ¬ w.Leaves 2 := by
      rintro w hw ⟨hmove, hfull⟩
      have hle : w.store.pointer + 1 ≤ 0 + 1 := (hcells w hw).2 hmove
      omega
    obtain ⟨e, hlast, hshows⟩ := finishes_of_evaluates l.code_block
      (l.at_machine start ws.length) (l.quiet_machine start ws.length) hwalk hroom
      (Nat.le_of_eq (Nat.zero_add _))
    refine ⟨ws.length, ws.length + 1, ?_, ?_⟩
    · rw [hlast]
    · rw [hlast, hshows.get_eq]
      exact hget _ _

end MultiplyLoop

/-- The rounds to zero tell which loops land on a value, and on which one. -/
theorem landsOn_iff_roundsToZero :
    l.LandsOn start target ↔
      ∃ n, roundsToZero start (UInt8.ofNat l.outer) l.direction = some n ∧
        l.landing n = target := by
  simp only [MultiplyLoop.landsOn_iff, roundsToZero_eq_some_iff]

end TapeLang.Transition
