/-!
# Quotients in double precision

A quotient of natural numbers is rounded to 53 significant binary digits, and
the number so found can be written with a fixed count of decimal places. Both
roundings go to the nearest neighbour, and a half goes to the even one; both
are done in exact arithmetic.
-/

namespace TapeLang

/-- A quotient rounded to the nearest integer. A half goes to the even neighbour. -/
def roundHalfEven (numerator denominator : Nat) : Nat :=
  let quotient := numerator / denominator
  let twice := 2 * (numerator % denominator)
  if twice < denominator ∨ (twice = denominator ∧ quotient % 2 = 0) then quotient
  else quotient + 1

/-- The number `significand * 2 ^ exponent`. -/
structure Binary64 where
  /-- A number of at most 53 binary digits, or the power of two above them. -/
  significand : Nat
  /-- The power of two it is multiplied by. -/
  exponent : Int
  deriving DecidableEq

namespace Binary64

def zero : Binary64 := ⟨0, 0⟩

/-- The quotient divided by a power of two, as numerator and denominator. -/
def scale (numerator denominator : Nat) : Int → Nat × Nat
  | .ofNat k => (numerator, denominator <<< k)
  | .negSucc k => (numerator <<< (k + 1), denominator)

/-- The exponent that leaves a quotient with 53 binary digits in front of the point. -/
def exponentOf (numerator denominator : Nat) : Int :=
  let e : Int := numerator.log2 - denominator.log2 - 52
  let (n, d) := scale numerator denominator e
  if n < d <<< 52 then e - 1 else e

/-- The number nearest to a quotient, for a quotient in the range of normal numbers. -/
def ofQuotient (numerator denominator : Nat) : Binary64 :=
  if numerator = 0 ∨ denominator = 0 then zero
  else
    let e := exponentOf numerator denominator
    let (n, d) := scale numerator denominator e
    ⟨roundHalfEven n d, e⟩

/-- The number nearest to a natural number. -/
def ofNat (n : Nat) : Binary64 := ofQuotient n 1

/-- The word that stores the number: a biased exponent of 11 bits above the 52 low bits of the significand. A
significand of 54 digits carries into the exponent. -/
def bits (x : Binary64) : Nat :=
  if x.significand = 0 then 0
  else (x.exponent + 1075).toNat <<< 52 + (x.significand - 1 <<< 52)

/-- Whether a product is too large to be rounded to a finite number. -/
def productOverflows (x y : Binary64) : Bool :=
  let (n, d) := scale (x.significand * y.significand) 1 (-(x.exponent + y.exponent))
  d * (1 <<< 1024 - 1 <<< 970) ≤ n

/-- The number with a fixed count of decimal places. -/
def fixed (x : Binary64) (places : Nat) : String :=
  let unit := Nat.pow 10 places
  let (n, d) := scale (x.significand * unit) 1 (-x.exponent)
  let units := roundHalfEven n d
  let fraction := toString (units % unit)
  toString (units / unit) ++ "." ++
    String.ofList (List.replicate (places - fraction.length) '0') ++ fraction

end Binary64

end TapeLang
