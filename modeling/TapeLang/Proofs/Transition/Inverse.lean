import Mathlib.Algebra.Order.Ring.Int
import Mathlib.Data.Int.ModEq
import Mathlib.Logic.Function.Iterate
import Mathlib.Order.Nat
import Mathlib.Tactic.Ring
import TapeLang.Proofs.Transition.LoopCount

/-!
# Solving for the number of rounds

Euclid's algorithm keeps its two coefficients at opposite signs, and each of them
times the number of the other adds up to the modulus (`Euclid.Balanced`). So no
coefficient outgrows the modulus, and an algorithm that starts from machine words
never leaves them (`Euclid.Balanced.nextInWords?_eq`). The number of rounds found
with the inverse, or by counting, is the least one that ends at a multiple of 256
(`roundsToZero_eq_some_iff_isLeast`).

Main statement: `inverse_solves_loop_counts`.
-/

namespace TapeLang.Transition

namespace Euclid

variable {c m n : Nat} {e : Euclid}

def start (c m : Nat) : Euclid := { number := c, divisor := m }

/-! ## The end of the algorithm -/

/-- There is nothing left to divide by behind `n` divisions, and not before. -/
structure StopsAt (n : Nat) (e : Euclid) : Prop where
  divides : ∀ k < n, (next^[k] e).divisor ≠ 0
  stops : (next^[n] e).divisor = 0

/-- The algorithm comes to an end. -/
theorem exists_stopsAt (e : Euclid) : ∃ n, StopsAt n e ∧ e.last = next^[n] e := by
  induction e using Euclid.last.induct with
  | case1 e hzero =>
    refine ⟨0, ⟨fun k hk ↦ absurd hk (Nat.not_lt_zero k), hzero⟩, ?_⟩
    rw [last, if_pos hzero]
    rfl
  | case2 e hne ih =>
    obtain ⟨n, hstops, hlast⟩ := ih
    refine ⟨n + 1, ⟨fun k hk ↦ ?_, hstops.stops⟩, ?_⟩
    · cases k with
      | zero => exact hne
      | succ k => exact hstops.divides k (Nat.lt_of_succ_lt_succ hk)
    · rw [last, if_neg hne, hlast]
      rfl

/-! ## The size of the coefficients -/

/-- The coefficients have opposite signs, and each times the number of the other adds up to the modulus. Neither they
nor the numbers are larger than what the algorithm starts from. -/
structure Balanced (c m : Nat) (e : Euclid) : Prop where
  opposite : e.coefficient * e.divisorCoefficient ≤ 0
  weight : e.divisorCoefficient.natAbs * e.number + e.coefficient.natAbs * e.divisor = m
  coefficient_le : e.coefficient.natAbs ≤ max 1 m
  divisorCoefficient_le : e.divisorCoefficient.natAbs ≤ max 1 m
  number_le : e.number ≤ max c m
  divisor_le : e.divisor ≤ m

theorem balanced_start (c m : Nat) : Balanced c m (start c m) where
  opposite := Int.le_refl 0
  weight := by
    change 0 * c + 1 * m = m
    omega
  coefficient_le := Nat.le_max_left 1 m
  divisorCoefficient_le := Nat.zero_le _
  number_le := Nat.le_max_left c m
  divisor_le := Nat.le_refl m

-- With opposite signs nothing cancels.
private theorem natAbs_sub_mul {f d : Int} (h : f * d ≤ 0) (q : Nat) :
    (f - d * q).natAbs = f.natAbs + d.natAbs * q := by
  have hproduct : (d * q).natAbs = d.natAbs * q := by rw [Int.natAbs_mul, Int.natAbs_natCast]
  have hq := Int.natCast_nonneg q
  rcases Int.mul_nonpos_iff.mp h with ⟨hf, hd⟩ | ⟨hf, hd⟩
  · have hsign : d * q ≤ 0 := Int.mul_nonpos_of_nonpos_of_nonneg hd hq
    omega
  · have hsign : 0 ≤ d * q := Int.mul_nonneg hd hq
    omega

/-- A division makes the coefficient of the divisor larger by as much as its multiple. -/
theorem Balanced.natAbs_divisorCoefficient_next (h : e.Balanced c m) :
    e.next.divisorCoefficient.natAbs =
      e.coefficient.natAbs + e.divisorCoefficient.natAbs * (e.number / e.divisor) :=
  natAbs_sub_mul h.opposite _

/-- A division keeps the balance. -/
theorem Balanced.next (h : e.Balanced c m) (hne : e.divisor ≠ 0) : e.next.Balanced c m := by
  have hweight : e.next.divisorCoefficient.natAbs * e.divisor +
      e.divisorCoefficient.natAbs * (e.number % e.divisor) = m := by
    calc
      _ = e.coefficient.natAbs * e.divisor + e.divisorCoefficient.natAbs *
            (e.divisor * (e.number / e.divisor) + e.number % e.divisor) := by
        rw [h.natAbs_divisorCoefficient_next]
        ring
      _ = m := by rw [Nat.div_add_mod, Nat.add_comm, h.weight]
  refine ⟨?_, hweight, h.divisorCoefficient_le, ?_, ?_, ?_⟩
  · have hsquare : 0 ≤ e.divisorCoefficient * e.divisorCoefficient * (e.number / e.divisor : Nat) :=
      Int.mul_nonneg (mul_self_nonneg _) (Int.natCast_nonneg _)
    calc
      e.divisorCoefficient * (e.coefficient - e.divisorCoefficient * (e.number / e.divisor : Nat))
        = e.coefficient * e.divisorCoefficient -
            e.divisorCoefficient * e.divisorCoefficient * (e.number / e.divisor : Nat) := by ring
      _ ≤ 0 := Int.sub_nonpos_of_le (Int.le_trans h.opposite hsquare)
  · have hle := Nat.le_mul_of_pos_right e.next.divisorCoefficient.natAbs (Nat.pos_of_ne_zero hne)
    omega
  · exact Nat.le_trans h.divisor_le (Nat.le_max_right c m)
  · have hlt := Nat.mod_lt e.number (Nat.pos_of_ne_zero hne)
    exact Nat.le_trans (Nat.le_of_lt hlt) h.divisor_le

/-- The divisions keep the balance as long as there is something to divide by. -/
theorem Balanced.iterate (h : e.Balanced c m) (hdivides : ∀ k < n, (Euclid.next^[k] e).divisor ≠ 0) :
    (Euclid.next^[n] e).Balanced c m := by
  induction n with
  | zero => exact h
  | succ n ih =>
    rw [Function.iterate_succ_apply']
    exact (ih fun k hk ↦ hdivides k (Nat.lt_succ_of_lt hk)).next (hdivides n (Nat.lt_succ_self n))

/-! ## Machine words -/

/-- The number, if a signed word of 64 bits holds it. -/
def word? (n : Int) : Option Int := if -2 ^ 63 ≤ n ∧ n < 2 ^ 63 then some n else none

/-- Divide once in signed words of 64 bits. There is no next state if a number on the way does not fit. -/
def nextInWords? (e : Euclid) : Option Euclid := do
  let quotient ← word? (e.number / e.divisor)
  let remainder ← word? (e.number % e.divisor)
  let product ← word? (e.divisorCoefficient * quotient)
  let difference ← word? (e.coefficient - product)
  return {
    number := e.divisor
    divisor := remainder.toNat
    coefficient := e.divisorCoefficient
    divisorCoefficient := difference
  }

theorem word?_of_natAbs_lt {n : Int} (h : n.natAbs < 2 ^ 63) : word? n = some n := by
  apply if_pos
  omega

theorem word?_natCast (h : n < 2 ^ 63) : word? n = some (n : Int) :=
  word?_of_natAbs_lt (by rwa [Int.natAbs_natCast])

/-- Nothing is too large for its word on the way to the next state. -/
theorem Balanced.nextInWords?_eq (h : e.Balanced c m) (hne : e.divisor ≠ 0) (hc : c < 2 ^ 63)
    (hm : m < 2 ^ 63) : e.nextInWords? = some e.next := by
  have hnumber : e.number < 2 ^ 63 := Nat.lt_of_le_of_lt h.number_le (Nat.max_lt.mpr ⟨hc, hm⟩)
  have hquotient := Nat.lt_of_le_of_lt (Nat.div_le_self e.number e.divisor) hnumber
  have hremainder := Nat.lt_of_le_of_lt (Nat.mod_le e.number e.divisor) hnumber
  have hdifference : e.next.divisorCoefficient.natAbs < 2 ^ 63 :=
    Nat.lt_of_le_of_lt (h.next hne).divisorCoefficient_le (Nat.max_lt.mpr ⟨by decide, hm⟩)
  have hproduct : (e.divisorCoefficient * (e.number / e.divisor : Nat)).natAbs < 2 ^ 63 := by
    rw [h.natAbs_divisorCoefficient_next] at hdifference
    rw [Int.natAbs_mul, Int.natAbs_natCast]
    omega
  have hnext : word? (e.coefficient - e.divisorCoefficient * (e.number / e.divisor : Nat)) =
      some e.next.divisorCoefficient := word?_of_natAbs_lt hdifference
  simp only [nextInWords?, ← Int.natCast_ediv, ← Int.natCast_emod, word?_natCast hquotient,
    word?_natCast hremainder, word?_of_natAbs_lt hproduct, hnext, Option.bind_eq_bind,
    Option.bind_some]
  rfl

end Euclid

/-! ## The least number of rounds -/

variable {value amount : UInt8} {direction : Direction} {n : Nat}

/-- What a round adds to the cell. -/
def Direction.summand (amount : UInt8) : Direction → Int
  | .down => -amount.toNat
  | .up => amount.toNat

/-- The numbers of rounds behind which the cell is zero, up to a multiple of 256. -/
def roundsAtZero (value amount : UInt8) (direction : Direction) : Set Nat :=
  {n | value.toNat + n * direction.summand amount ≡ 0 [ZMOD 256]}

theorem mem_roundsAtZero_iff :
    n ∈ roundsAtZero value amount direction ↔
      n * amount.toNat % 256 = direction.away value := by
  have hvalue := value.toNat_lt
  cases direction with
  | down =>
    change (value.toNat + n * -(amount.toNat : Int)) % 256 = 0 % 256 ↔
      n * amount.toNat % 256 = value.toNat
    rw [Int.mul_neg, ← Int.natCast_mul]
    omega
  | up =>
    change (value.toNat + n * (amount.toNat : Int)) % 256 = 0 % 256 ↔
      n * amount.toNat % 256 = (256 - value.toNat) % 256
    rw [← Int.natCast_mul]
    omega

/-- The number of rounds is the least one behind which the cell is zero. -/
theorem roundsToZero_eq_some_iff_isLeast :
    roundsToZero value amount direction = some n ↔
      IsLeast (roundsAtZero value amount direction) n := by
  rw [roundsToZero_eq_some_iff, drains_iff]
  constructor
  · rintro ⟨hmeets, hfirst⟩
    refine ⟨mem_roundsAtZero_iff.mpr hmeets, fun k hk ↦ Nat.le_of_not_lt fun hlt ↦ ?_⟩
    exact hfirst k hlt (mem_roundsAtZero_iff.mp hk)
  · rintro ⟨hmem, hleast⟩
    refine ⟨mem_roundsAtZero_iff.mp hmem, fun k hlt hmeets ↦ ?_⟩
    exact Nat.not_le_of_lt hlt (hleast (mem_roundsAtZero_iff.mpr hmeets))

/-- No number of rounds is found exactly if the cell is never zero. -/
theorem roundsToZero_eq_none_iff :
    roundsToZero value amount direction = none ↔
      ∀ n : Nat, n ∉ roundsAtZero value amount direction := by
  rw [Option.eq_none_iff_forall_ne_some]
  constructor
  · intro hnone n hn
    classical
    have hleast : IsLeast (roundsAtZero value amount direction) (Nat.find ⟨n, hn⟩) :=
      Nat.isLeast_find ⟨n, hn⟩
    exact hnone _ (roundsToZero_eq_some_iff_isLeast.mpr hleast)
  · intro hnever n hsome
    exact hnever n (roundsToZero_eq_some_iff_isLeast.mp hsome).1

/-- Euclid's algorithm comes to an end behind some number of divisions. The inverse takes the first number to the
greatest common divisor, modulo the second one. On the way no coefficient is larger than the modulus, and two numbers
below 2 ^ 63 can be divided in signed words of 64 bits. The number of rounds found for a loop is the least one behind
which its cell is zero modulo 256, and none is found exactly if there is no such number. -/
theorem inverse_solves_loop_counts :
    (∀ c m : Nat, ∃ n,
      Euclid.StopsAt n (.start c m) ∧
        inverse c m = (Euclid.next^[n] (.start c m)).coefficient ∧
        c * inverse c m ≡ Nat.gcd c m [ZMOD m] ∧
        (∀ k ≤ n, (Euclid.next^[k] (.start c m)).coefficient.natAbs ≤ max 1 m ∧
          (Euclid.next^[k] (.start c m)).divisorCoefficient.natAbs ≤ max 1 m) ∧
        (c < 2 ^ 63 → m < 2 ^ 63 → ∀ k < n,
          (Euclid.next^[k] (.start c m)).nextInWords? = some (Euclid.next^[k + 1] (.start c m)))) ∧
      ∀ (value amount : UInt8) (direction : Direction),
        (∀ n, roundsToZero value amount direction = some n ↔
          IsLeast (roundsAtZero value amount direction) n) ∧
        (roundsToZero value amount direction = none ↔
          ∀ n : Nat, n ∉ roundsAtZero value amount direction) := by
  refine ⟨fun c m ↦ ?_, fun value amount direction ↦
    ⟨fun n ↦ roundsToZero_eq_some_iff_isLeast, roundsToZero_eq_none_iff⟩⟩
  obtain ⟨n, hstops, hlast⟩ := Euclid.exists_stopsAt (.start c m)
  have hbalanced {k : Nat} (hk : k ≤ n) : (Euclid.next^[k] (.start c m)).Balanced c m :=
    (Euclid.balanced_start c m).iterate fun j hj ↦ hstops.divides j (Nat.lt_of_lt_of_le hj hk)
  refine ⟨n, hstops, congrArg Euclid.coefficient hlast, ?_, fun k hk ↦ ?_, fun hc hm k hk ↦ ?_⟩
  · rw [mul_comm]
    exact (Int.modEq_iff_dvd.mpr (dvd_inverse_mul_sub_gcd c m)).symm
  · exact ⟨(hbalanced hk).coefficient_le, (hbalanced hk).divisorCoefficient_le⟩
  · rw [Function.iterate_succ_apply']
    exact (hbalanced (Nat.le_of_lt hk)).nextInWords?_eq (hstops.divides k hk) hc hm

/-- The largest neighbours in the Fibonacci sequence that are words of 64 bits are divided in such words. One loop ends
behind two rounds, and one does not end. -/
theorem inverse_solves_neighbours_in_words :
    (∃ n, Euclid.StopsAt n (.start 4660046610375530309 7540113804746346429) ∧
      ∀ k < n, (Euclid.next^[k] (.start 4660046610375530309 7540113804746346429)).nextInWords? =
        some (Euclid.next^[k + 1] (.start 4660046610375530309 7540113804746346429))) ∧
      4660046610375530309 * inverse 4660046610375530309 7540113804746346429 ≡ 1
        [ZMOD 7540113804746346429] ∧
      roundsToZero 250 3 .up = some 2 ∧ roundsToZero 3 2 .down = none := by
  obtain ⟨hinverse, hrounds⟩ := inverse_solves_loop_counts
  obtain ⟨n, hstops, -, hgcd, -, hwords⟩ := hinverse 4660046610375530309 7540113804746346429
  have hnever : ∀ n : Nat, n ∉ roundsAtZero 3 2 .down := by
    intro n hn
    have hmod := mem_roundsAtZero_iff.mp hn
    change n * 2 % 256 = 3 at hmod
    omega
  have hleast : IsLeast (roundsAtZero 250 3 .up) 2 := by
    refine ⟨mem_roundsAtZero_iff.mpr rfl, fun n hn ↦ ?_⟩
    have hmod := mem_roundsAtZero_iff.mp hn
    change n * 3 % 256 = 6 at hmod
    omega
  exact ⟨⟨n, hstops, hwords (by decide) (by decide)⟩, hgcd,
    ((hrounds 250 3 .up).1 2).mpr hleast, (hrounds 3 2 .down).2.mpr hnever⟩

end TapeLang.Transition
