/-!
# Clocks

How long an execution takes is not up to the program. A clock says what is
measured: the time shown behind each executed instruction, which the machine
compares with its time budget, and the time of each step of a recording. The
same program under the same limits can be timed differently on each execution,
so what is said of several executions names what their clocks have in common.
What a clock shows behind instructions that are never executed is free.

Main definitions: `Clock.Lasts`, under which a budget is never used up, and
`Clock.Alike`, under which two executions run out of time at the same points.
-/

namespace TapeLang

/-- What is measured during one execution, in nanoseconds. -/
structure Clock where
  /-- The time since the clock was started, behind each number of executed instructions. -/
  elapsed : Nat → Nat
  /-- No instruction is executed in no time. -/
  elapsed_pos : ∀ n, 0 < elapsed n
  /-- The time of the step a recorder makes behind each number of snapshots, if steps are measured. -/
  stepTime? : Option (Nat → Nat) := none

namespace Clock

def millisecond : Nat := 1000000

/-- A clock under which an empty budget is used up at once and any other budget never. -/
def standard : Clock where
  elapsed _ := 1
  elapsed_pos _ := Nat.one_pos

instance : Inhabited Clock := ⟨standard⟩

/-- Whether a budget in milliseconds is used up behind `n` executed instructions. -/
def exceeds (c : Clock) (timeout n : Nat) : Bool := millisecond * timeout < c.elapsed n

/-- The budget is not used up behind any number of instructions: it does not fire. -/
def Lasts (c : Clock) (timeout : Nat) : Prop := ∀ n, c.exceeds timeout n = false

/-- The budget is used up behind the same numbers of instructions under both clocks. -/
def Alike (timeout : Nat) (c c' : Clock) : Prop := ∀ n, c.exceeds timeout n = c'.exceeds timeout n

variable {c c' : Clock} {timeout : Nat}

/-- An empty budget is used up behind every instruction. -/
@[simp] theorem exceeds_zero (c : Clock) (n : Nat) : c.exceeds 0 n = true := by
  simp only [exceeds, Nat.mul_zero, decide_eq_true_eq]
  exact c.elapsed_pos n

/-- Under the standard clock every budget but the empty one lasts. -/
theorem standard_lasts (h : timeout ≠ 0) : standard.Lasts timeout := by
  intro n
  have hbudget : ¬ millisecond * timeout < 1 := by
    rw [millisecond]
    omega
  exact decide_eq_false hbudget

@[refl] theorem Alike.refl (c : Clock) : Alike timeout c c := fun _ ↦ rfl

theorem Alike.symm (h : Alike timeout c c') : Alike timeout c' c := fun n ↦ (h n).symm

/-- A budget that fires under neither clock does not tell them apart. -/
theorem Lasts.alike (h : c.Lasts timeout) (h' : c'.Lasts timeout) : Alike timeout c c' :=
  fun n ↦ (h n).trans (h' n).symm

/-- Nor does an empty budget. -/
theorem alike_zero (c c' : Clock) : Alike 0 c c' := fun n ↦ by simp

end Clock

end TapeLang
