/-!
# Counting the rounds of a loop

A loop that changes its cell by a fixed amount in every round ends when the
cell is zero. For an odd amount the number of rounds is found by division
modulo 256, with the inverse from Euclid's algorithm; for an even amount the
rounds are counted one by one, and there may be no end.
-/

namespace TapeLang.Transition

/-- A state of Euclid's algorithm. The coefficients belong to the two numbers: each number is its coefficient
times the first number of the start, up to a multiple of the second. -/
structure Euclid where
  /-- The first number. -/
  number : Nat
  /-- The second number, by which the first is divided. -/
  divisor : Nat
  /-- The coefficient of the first number. -/
  coefficient : Int := 1
  /-- The coefficient of the second number. -/
  divisorCoefficient : Int := 0
  deriving DecidableEq

namespace Euclid

/-- Divide once. -/
def next (e : Euclid) : Euclid where
  number := e.divisor
  divisor := e.number % e.divisor
  coefficient := e.divisorCoefficient
  divisorCoefficient := e.coefficient - e.divisorCoefficient * (e.number / e.divisor : Nat)

/-- Divide until nothing is left to divide by. -/
def last (e : Euclid) : Euclid :=
  if e.divisor = 0 then e else e.next.last
termination_by e.divisor
decreasing_by exact Nat.mod_lt _ (Nat.pos_of_ne_zero ‹_›)

end Euclid

/-- A number whose product with `c` is the greatest common divisor of `c` and `m`, up to a multiple of `m`. It may
be negative. -/
def inverse (c m : Nat) : Int := (Euclid.last { number := c, divisor := m }).coefficient

/-- Which way a loop takes its cell to zero. -/
inductive Direction where
  | down
  | up
  deriving DecidableEq, Repr

/-- Change a value by an amount. -/
def Direction.change (amount : UInt8) : Direction → UInt8 → UInt8
  | .down, value => value - amount
  | .up, value => value + amount

/-- Count the rounds until the value is zero, in at most `fuel` rounds after the first `count`. -/
def countRounds (change : UInt8 → UInt8) : Nat → Nat → UInt8 → Option Nat
  | 0, count, value => if value = 0 then some count else none
  | fuel + 1, count, value =>
    if value = 0 then some count else countRounds change fuel (count + 1) (change value)

/-- The number of rounds that take a value to zero, if there is one. -/
def roundsToZero (value amount : UInt8) (direction : Direction) : Option Nat :=
  if amount % 2 = 1 then
    let distance := match direction with
      | .down => value.toNat
      | .up => (256 - value.toNat) % 256
    some (distance * (inverse amount.toNat 256 % 256).toNat % 256)
  else
    countRounds (direction.change amount) 256 0 value

end TapeLang.Transition
