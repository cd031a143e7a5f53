import TapeLang.Machine

/-!
# Running a machine

`advance` repeats a step a bounded number of times and stops at the first
answer other than `more`. A run starts from a reset machine with the clock
running; since each executed instruction uses one unit of the budget, one step
more than the budget is enough to come to an answer. The straight run, the run
in slices and the run on a feed differ in the step they repeat.

Main statements: `advance_add` splits an advance at any point, and
`advance_mul` turns an advance into slices of equal length.
-/

namespace TapeLang

universe u

/-- Repeat a step at most `n` times, up to the first answer other than `more`. -/
def advance {σ : Type u} (next : σ → σ × Status) : Nat → σ → σ × Status
  | 0, s => (s, .more)
  | n + 1, s =>
    match next s with
    | (s, .more) => advance next n s
    | answer => answer

/-- No step has been made, so instructions may remain. -/
@[simp] theorem advance_zero {σ : Type u} (next : σ → σ × Status) (s : σ) :
    advance next 0 s = (s, .more) := rfl

/-- An advance is a first step and, if instructions remain, the rest. -/
theorem advance_succ {σ : Type u} (next : σ → σ × Status) (n : Nat) (s : σ) :
    advance next (n + 1) s =
      if (next s).2 = .more then advance next n (next s).1 else next s := by
  rw [advance]
  split
  · rename_i h
    simp [h]
  · rename_i h
    rw [if_neg]
    exact fun hmore ↦ h (next s).1 (Prod.ext rfl hmore)

/-- An advance over a sum of steps is an advance over the first part and, if instructions remain, the second. -/
theorem advance_add {σ : Type u} (next : σ → σ × Status) (a b : Nat) (s : σ) :
    advance next (a + b) s =
      if (advance next a s).2 = .more then advance next b (advance next a s).1
      else advance next a s := by
  induction a generalizing s with
  | zero => simp
  | succ a ih =>
    rw [Nat.add_right_comm, advance_succ, advance_succ, ih]
    split <;> rfl

/-- An advance is an advance in slices of equal length. -/
theorem advance_mul {σ : Type u} (next : σ → σ × Status) (length slices : Nat) (s : σ) :
    advance (advance next length) slices s = advance next (length * slices) s := by
  induction slices generalizing s with
  | zero => rfl
  | succ slices ih =>
    rw [advance_succ, Nat.mul_succ, Nat.add_comm, advance_add, ih]

/-- An answer other than `more` is final. -/
theorem advance_of_answered {σ : Type u} {next : σ → σ × Status} {a b : Nat} {s : σ}
    (hab : a ≤ b) (h : (advance next a s).2 ≠ .more) : advance next b s = advance next a s := by
  obtain ⟨c, rfl⟩ := Nat.exists_eq_add_of_le hab
  rw [advance_add, if_neg h]

namespace Machine

/-- The machine at the start of a run. -/
def begin (m : Machine) : Machine := { m.reset with clockRunning := true, running := true }

/-- The machine at the end of a run and what the run gives: its output, or the fault that ended it. -/
def conclude (m : Machine) (status : Status) : Machine × Except Fault (List UInt8) :=
  ({ m with running := false },
    match status with
    | .failed fault => .error fault
    | .more | .finished => .ok m.output)

/-- The number of steps that brings any run under the limits to an answer. -/
def stepsToAnswer (m : Machine) : Nat := m.limits.maxSteps + 1

def run (m : Machine) : Machine × Except Fault (List UInt8) :=
  let (m, status) := advance step m.stepsToAnswer m.begin
  m.conclude status

/-- The number of steps in one slice of a run that lets others work in between. -/
def sliceLength : Nat := 1000

/-- Run the program from its start in slices of `sliceLength` steps. -/
def runSliced (m : Machine) : Machine × Except Fault (List UInt8) :=
  let (m, status) := advance (advance step sliceLength) (m.stepsToAnswer / sliceLength + 1) m.begin
  m.conclude status

/-- One step of a machine that reads from a feed. -/
def stepOnFeed (s : Machine × Feed) : (Machine × Feed) × Status :=
  let (m, feed, status) := s.1.stepFed s.2
  ((m, feed), status)

/-- Run the program from its start in slices, reading from a feed. -/
def runFed (m : Machine) (feed : Feed) : Machine × Feed × Except Fault (List UInt8) :=
  let ((m, feed), status) :=
    advance (advance stepOnFeed sliceLength) (m.stepsToAnswer / sliceLength + 1) (m.begin, feed)
  let (m, answer) := m.conclude status
  (m, feed, answer)

end Machine

/-- Run a program text under limits and give its output. -/
def execute (text : String) (limits : Limits) (clock : Clock := .standard) :
    Except Fault (List UInt8) :=
  ((Machine.load (Program.ofText text) limits clock).run).2

end TapeLang
