import TapeLang.Transition.LoopCount

/-!
# Counted loops end

Rounds are counted exactly for the loops that end, and the number counted is the
number of rounds that the loop takes: the cell is zero behind them and not before
(`roundsToZero_eq_some_iff`). That number is the least one whose multiple of the
amount meets the distance to zero (`drains_iff`). For an odd amount it is found
with Euclid's algorithm, which keeps each of its numbers equal to its coefficient
times the number it started from, up to a multiple of the modulus
(`Euclid.Tracks`).
-/

namespace TapeLang.Transition

/-! ### Euclid's algorithm -/

namespace Euclid

/-- Each number is its coefficient times `c`, up to a multiple of `m`. -/
structure Tracks (c m : Nat) (e : Euclid) : Prop where
  number_dvd : (m : Int) ∣ e.coefficient * c - e.number
  divisor_dvd : (m : Int) ∣ e.divisorCoefficient * c - e.divisor

variable {c m : Nat} {e : Euclid}

/-- A division keeps the coefficients right. -/
theorem Tracks.next (h : e.Tracks c m) : e.next.Tracks c m := by
  refine ⟨h.divisor_dvd, ?_⟩
  have hmod : ((e.number % e.divisor : Nat) : Int) =
      e.number - e.divisor * (e.number / e.divisor : Nat) := by
    have hdiv := Nat.div_add_mod e.number e.divisor
    omega
  have hsplit : (e.coefficient - e.divisorCoefficient * (e.number / e.divisor : Nat)) * c -
        (e.number - e.divisor * (e.number / e.divisor : Nat)) =
      (e.coefficient * c - e.number) -
        (e.divisorCoefficient * c - e.divisor) * (e.number / e.divisor : Nat) := by
    grind
  change (m : Int) ∣ (e.coefficient - e.divisorCoefficient * (e.number / e.divisor : Nat)) * c -
    ((e.number % e.divisor : Nat) : Int)
  rw [hmod, hsplit]
  exact Int.dvd_sub h.number_dvd (Int.dvd_mul_of_dvd_left h.divisor_dvd)

/-- The divisions keep the coefficients right to the end. -/
theorem Tracks.last (h : e.Tracks c m) : e.last.Tracks c m := by
  induction e using Euclid.last.induct with
  | case1 e hzero =>
    rw [Euclid.last, if_pos hzero]
    exact h
  | case2 e hne ih =>
    rw [Euclid.last, if_neg hne]
    exact ih h.next

/-- The last number is the greatest common divisor of the first two. -/
theorem number_last (e : Euclid) : e.last.number = Nat.gcd e.divisor e.number := by
  induction e using Euclid.last.induct with
  | case1 e hzero =>
    rw [last, if_pos hzero, hzero, Nat.gcd_zero_left]
  | case2 e hne ih =>
    rw [last, if_neg hne, ih, Nat.gcd_rec e.divisor e.number]
    rfl

end Euclid

/-- Up to a multiple of `m` the inverse takes `c` to the greatest common divisor. -/
theorem dvd_inverse_mul_sub_gcd (c m : Nat) : (m : Int) ∣ inverse c m * c - Nat.gcd c m := by
  have hstart : Euclid.Tracks c m { number := c, divisor := m } := by
    refine ⟨?_, ?_⟩
    · change (m : Int) ∣ 1 * c - c
      rw [Int.one_mul, Int.sub_self]
      exact Int.dvd_zero _
    · change (m : Int) ∣ 0 * c - m
      rw [Int.zero_mul, Int.zero_sub]
      exact Int.dvd_neg.mpr (Int.dvd_refl _)
  have hnumber := Euclid.number_last { number := c, divisor := m }
  have hlast := hstart.last.number_dvd
  rw [hnumber, Nat.gcd_comm] at hlast
  exact hlast

/-! ### Rounds of a loop -/

/-- The value is zero behind `n` changes and not before. -/
def Drains (change : UInt8 → UInt8) : Nat → UInt8 → Prop
  | 0, value => value = 0
  | n + 1, value => value ≠ 0 ∧ Drains change n (change value)

variable {change : UInt8 → UInt8} {value amount : UInt8} {direction : Direction} {n : Nat}

private theorem drains_of_countRounds {fuel count : Nat}
    (h : countRounds change fuel count value = some n) :
    ∃ k ≤ fuel, n = count + k ∧ Drains change k value := by
  induction fuel generalizing count value with
  | zero =>
    rw [countRounds] at h
    split at h
    · next hzero => exact ⟨0, Nat.le_refl 0, (Option.some.inj h).symm, hzero⟩
    · contradiction
  | succ fuel ih =>
    rw [countRounds] at h
    split at h
    · next hzero => exact ⟨0, Nat.zero_le _, (Option.some.inj h).symm, hzero⟩
    · next hne =>
      obtain ⟨k, hk, hn, hdrains⟩ := ih h
      exact ⟨k + 1, Nat.succ_le_succ hk, by omega, hne, hdrains⟩

/-- How far a value is from zero in a direction. -/
def Direction.away (value : UInt8) : Direction → Nat
  | .down => value.toNat
  | .up => (256 - value.toNat) % 256

private theorem away_mod (direction : Direction) (value : UInt8) :
    direction.away value % 256 = direction.away value := by
  have := value.toNat_lt
  cases direction with
  | down => exact Nat.mod_eq_of_lt value.toNat_lt
  | up => exact Nat.mod_mod _ _

private theorem away_eq_zero_iff (direction : Direction) : direction.away value = 0 ↔ value = 0 := by
  have := value.toNat_lt
  rw [← UInt8.toNat_inj]
  cases direction with
  | down => exact Iff.rfl
  | up =>
    change (256 - value.toNat) % 256 = 0 ↔ value.toNat = 0
    omega

-- A round comes nearer to zero by the amount of the change.
private theorem away_change (direction : Direction) (amount value : UInt8) :
    (direction.away (direction.change amount value) + amount.toNat) % 256 =
      direction.away value := by
  have hvalue := value.toNat_lt
  have hamount := amount.toNat_lt
  cases direction with
  | down =>
    change ((value - amount).toNat + amount.toNat) % 256 = value.toNat
    rw [UInt8.toNat_sub]
    omega
  | up =>
    change ((256 - (value + amount).toNat) % 256 + amount.toNat) % 256 = (256 - value.toNat) % 256
    rw [UInt8.toNat_add]
    omega

/-- The number of rounds is the least one whose multiple of the amount meets the distance to zero. -/
theorem drains_iff :
    Drains (direction.change amount) n value ↔
      n * amount.toNat % 256 = direction.away value ∧
        ∀ k < n, k * amount.toNat % 256 ≠ direction.away value := by
  induction n generalizing value with
  | zero =>
    rw [Nat.zero_mul, Drains, ← away_eq_zero_iff direction]
    simp [eq_comm]
  | succ n ih =>
    have hround := away_change direction amount value
    have hmod := away_mod direction (direction.change amount value)
    have hmeets (k : Nat) : k * amount.toNat % 256 = direction.away (direction.change amount value) ↔
        (k + 1) * amount.toNat % 256 = direction.away value := by
      rw [Nat.succ_mul]
      omega
    have hzero : value ≠ 0 ↔ 0 * amount.toNat % 256 ≠ direction.away value := by
      rw [Nat.zero_mul, ne_eq, ne_eq, ← away_eq_zero_iff direction, eq_comm]
    rw [Drains, ih, hzero, Nat.forall_lt_succ_left]
    simp only [ne_eq, hmeets]
    exact and_left_comm

private theorem coprime_of_odd {c : Nat} (h : c % 2 = 1) : Nat.Coprime 256 c := by
  have htwo : Nat.Coprime 2 c := by
    rw [Nat.Coprime, Nat.gcd_rec, h]
    rfl
  exact htwo.pow_left 8

-- For an odd amount no two numbers of rounds below 256 meet the same distance.
private theorem drains_of_away (hodd : amount.toNat % 2 = 1) (hn : n < 256)
    (h : n * amount.toNat % 256 = direction.away value) :
    Drains (direction.change amount) n value := by
  apply drains_iff.mpr
  refine ⟨h, fun k hk hmeets ↦ ?_⟩
  have hdvd : 256 ∣ (n - k) * amount.toNat := by
    rw [Nat.sub_mul]
    exact Nat.dvd_of_mod_eq_zero (Nat.sub_mod_eq_zero_of_mod_eq (h.trans hmeets.symm))
  have hle := Nat.le_of_dvd (by omega) ((coprime_of_odd hodd).dvd_of_dvd_mul_right hdvd)
  omega

-- The inverse modulo 256 undoes the multiplication by an odd amount.
private theorem mul_inverse_mod {c : Nat} (h : c % 2 = 1) (distance : Nat) :
    distance * (inverse c 256 % 256).toNat % 256 * c % 256 = distance % 256 := by
  have hdvd := dvd_inverse_mul_sub_gcd c 256
  rw [Nat.gcd_comm, coprime_of_odd h] at hdvd
  have hnonneg := Int.emod_nonneg (inverse c 256) (by decide : (256 : Int) ≠ 0)
  obtain ⟨k, hk⟩ : ∃ k : Nat, (k : Int) = inverse c 256 % 256 := ⟨_, Int.toNat_of_nonneg hnonneg⟩
  have hunit : k * c % 256 = 1 := by
    have hsplit : ((k * c : Nat) : Int) - 1 =
        (inverse c 256 * c - 1) - 256 * (inverse c 256 / 256 * c) := by
      rw [Int.natCast_mul, hk, Int.emod_def]
      grind
    have hmultiple : (256 : Int) ∣ ((k * c : Nat) : Int) - 1 := by
      rw [hsplit]
      exact Int.dvd_sub hdvd (Int.dvd_mul_right 256 _)
    omega
  rw [← hk, Int.toNat_natCast, Nat.mod_mul_mod, Nat.mul_assoc, Nat.mul_mod, hunit, Nat.mul_one,
    Nat.mod_mod]

/-- The number of rounds counted for a loop is the number it takes. -/
theorem drains_of_roundsToZero (h : roundsToZero value amount direction = some n) :
    n ≤ 256 ∧ Drains (direction.change amount) n value := by
  unfold roundsToZero at h
  split at h
  · next hodd =>
    have hodd : amount.toNat % 2 = 1 := by
      rw [← UInt8.toNat_inj, UInt8.toNat_mod] at hodd
      exact hodd
    have hn := Option.some.inj h
    have hlt : n < 256 := by
      rw [← hn]
      exact Nat.mod_lt _ (by decide)
    refine ⟨Nat.le_of_lt hlt, drains_of_away hodd hlt ?_⟩
    rw [← hn, mul_inverse_mod hodd, ← away_mod direction value]
    cases direction <;> rfl
  · obtain ⟨k, hk, hn, hdrains⟩ := drains_of_countRounds h
    rw [Nat.zero_add] at hn
    subst hn
    exact ⟨hk, hdrains⟩

/-! ### Loops that end are counted -/

/-- A loop that ends takes fewer than 256 rounds. -/
theorem lt_of_drains (h : Drains (direction.change amount) n value) : n < 256 := by
  obtain ⟨hmeets, hfirst⟩ := drains_iff.mp h
  apply Nat.lt_of_not_le
  intro hle
  apply hfirst (n - 256) (by omega)
  have hmul := Nat.mul_le_mul_right amount.toNat hle
  rw [← hmeets, Nat.sub_mul]
  omega

/-- The number of rounds is unique. -/
theorem Drains.unique {k : Nat} (h : Drains change n value) (h' : Drains change k value) : n = k := by
  induction n generalizing k value with
  | zero =>
    cases k with
    | zero => rfl
    | succ k => exact absurd h h'.1
  | succ n ih =>
    cases k with
    | zero => exact absurd h' h.1
    | succ k => exact congrArg (· + 1) (ih h.2 h'.2)

private theorem countRounds_of_drains {fuel : Nat} (hn : n ≤ fuel) (count : Nat)
    (h : Drains change n value) : countRounds change fuel count value = some (count + n) := by
  induction fuel generalizing n count value with
  | zero =>
    obtain rfl := Nat.le_zero.mp hn
    exact if_pos h
  | succ fuel ih =>
    cases n with
    | zero => exact if_pos h
    | succ n =>
      rw [countRounds, if_neg h.1, ih (Nat.le_of_succ_le_succ hn) (count + 1) h.2,
        Nat.add_right_comm]
      rfl

/-- Rounds are counted exactly for the loops that end. -/
theorem roundsToZero_eq_some_iff :
    roundsToZero value amount direction = some n ↔ Drains (direction.change amount) n value := by
  refine ⟨fun h ↦ (drains_of_roundsToZero h).2, fun h ↦ ?_⟩
  by_cases hodd : amount % 2 = 1
  · obtain ⟨k, hk⟩ : ∃ k, roundsToZero value amount direction = some k := by
      unfold roundsToZero
      rw [if_pos hodd]
      exact ⟨_, rfl⟩
    rw [hk, (drains_of_roundsToZero hk).2.unique h]
  · unfold roundsToZero
    rw [if_neg hodd, countRounds_of_drains (Nat.le_of_lt (lt_of_drains h)) 0 h, Nat.zero_add]

end TapeLang.Transition
