import TapeLang.Json.Scan
import TapeLang.Binary64

/-!
# JSON numbers

A number is scanned into its digits first and looked at afterwards. It is a
natural number if it is written without sign, point and exponent and fits into
64 bits; any other number only has to be finite in double precision.
-/

namespace TapeLang.Json

/-- The parts of a written number. -/
structure Numeral where
  negative : Bool
  /-- The digits in front of the point. -/
  integer : List Char
  /-- The digits behind the point, if there is one. -/
  fraction : Option (List Char) := none
  exponent : Option Int := none
  deriving DecidableEq

namespace Numeral

/-- The digits in front of a text, and the text behind them. -/
def digits (text : List Char) : List Char × List Char :=
  (text.takeWhile Char.isDigit, text.dropWhile Char.isDigit)

/-- The number written by digits. -/
def ofDigits (ds : List Char) : Nat :=
  ds.foldl (fun n d ↦ n * 10 + (d.toNat - '0'.toNat)) 0

/-- At least one digit; `missing` tells what is wrong with a text that does not begin with one. -/
def someDigits (missing : List Char → ReadError) (text : List Char) :
    Except ReadError (List Char × List Char) :=
  match digits text with
  | ([], rest) => .error (missing rest)
  | (ds, rest) => .ok (ds, rest)

/-- Read an exponent behind its letter. -/
def scanExponent (missing : List Char → ReadError) (text : List Char) :
    Except ReadError (Int × List Char) :=
  let (negative, text) := match text with
    | '+' :: rest => (false, rest)
    | '-' :: rest => (true, rest)
    | _ => (false, text)
  match someDigits missing text with
  | .error e => .error e
  | .ok (ds, rest) => .ok (if negative then -(ofDigits ds : Int) else ofDigits ds, rest)

/-- Add the exponent to a numeral, if the text goes on with one. -/
def withExponent (missing : List Char → ReadError) (n : Numeral) (text : List Char) :
    Except ReadError (Numeral × List Char) :=
  match text with
  | 'e' :: rest | 'E' :: rest =>
    match scanExponent missing rest with
    | .error e => .error e
    | .ok (exponent, rest) => .ok ({ n with exponent := some exponent }, rest)
  | _ => .ok (n, text)

/-- Read a number behind its sign. A zero in front of other digits is not allowed. -/
def scan (missing : List Char → ReadError) (negative : Bool) (text : List Char) :
    Except ReadError (Numeral × List Char) :=
  match someDigits missing text with
  | .error e => .error e
  | .ok ('0' :: _ :: _, _) => .error .malformed
  | .ok (integer, '.' :: rest) =>
    match someDigits missing rest with
    | .error e => .error e
    | .ok (fraction, rest) =>
      withExponent missing { negative, integer, fraction := some fraction } rest
  | .ok (integer, rest) => withExponent missing { negative, integer } rest

/-- Append digits to a number as long as it fits into 64 bits; the number and the count of digits left over. -/
def appendDigits : Nat → List Char → Nat × Nat
  | n, [] => (n, 0)
  | n, d :: ds =>
    let next := n * 10 + (d.toNat - '0'.toNat)
    if next < UInt64.size then appendDigits next ds else (n, ds.length + 1)

/-- The greatest exponent that is counted; a number beyond it is as good as infinite or zero. -/
def exponentLimit : Nat := 0x7FFFFFFF

/-- The greatest power of ten that is a finite number. -/
def powerLimit : Nat := 308

/-- Whether the product of a number and a power of ten is finite in double precision. -/
def productIsFinite (significand : Nat) (exponent : Int) : Bool :=
  if significand = 0 ∨ exponent ≤ 0 then true
  else if (powerLimit : Int) < exponent then false
  else !(Binary64.ofNat significand).productOverflows (Binary64.ofNat (Nat.pow 10 exponent.toNat))

/-- Whether the number is finite in double precision. Its first digits make a number of 64 bits; the other digits in
front of the point only count. -/
def isFinite (n : Numeral) : Bool :=
  let (whole, dropped) := appendDigits 0 n.integer
  let fraction := n.fraction.getD []
  let (significand, unused) := appendDigits whole fraction
  let point : Int := dropped - (fraction.length - unused : Nat)
  match n.exponent with
  | none => productIsFinite significand point
  | some exponent =>
    if (exponentLimit : Int) < exponent then significand = 0
    else if exponent < -(exponentLimit : Int) then true
    else productIsFinite significand (point + exponent)

/-- The natural number of 64 bits that is written without sign, point and exponent. -/
def natural? (n : Numeral) : Option Nat :=
  if n.negative || n.fraction.isSome || n.exponent.isSome then none
  else if ofDigits n.integer < UInt64.size then some (ofDigits n.integer)
  else none

/-- Where digits matter, a text that ends in front of them ends too early. -/
def missingDigit (text : List Char) : ReadError :=
  if text.isEmpty then .endOfText else .malformed

/-- Read a number behind its sign; one that is not finite is malformed. -/
def read (negative : Bool) (text : List Char) : Except ReadError (Numeral × List Char) :=
  match scan missingDigit negative text with
  | .error e => .error e
  | .ok (n, rest) => if n.isFinite then .ok (n, rest) else .error .malformed

/-- Pass over a number behind its sign, whatever its size. -/
def skip (text : List Char) : Except ReadError (List Char) :=
  match scan (fun _ ↦ .malformed) false text with
  | .error e => .error e
  | .ok (_, rest) => .ok rest

/-- At least one digit is taken. -/
theorem someDigits_length {missing : List Char → ReadError} {text ds rest : List Char}
    (h : someDigits missing text = .ok (ds, rest)) : rest.length < text.length := by
  unfold someDigits at h
  split at h
  · contradiction
  · rename_i ds' rest' hne hdigits
    simp only [Except.ok.injEq, Prod.mk.injEq] at h
    obtain ⟨rfl, rfl⟩ := h
    have hsum := congrArg List.length (List.takeWhile_append_dropWhile (p := Char.isDigit) (l := text))
    simp only [digits, Prod.mk.injEq] at hdigits
    simp only [List.length_append, hdigits.1, hdigits.2] at hsum
    have : 0 < ds'.length := List.length_pos_iff.mpr hne
    omega

/-- An exponent takes at least one character. -/
theorem scanExponent_length {missing : List Char → ReadError} {text rest : List Char} {n : Int}
    (h : scanExponent missing text = .ok (n, rest)) : rest.length < text.length := by
  unfold scanExponent at h
  split at h
  rename_i negative text' htext
  have hle : text'.length ≤ text.length := by
    split at htext <;> simp only [Prod.mk.injEq] at htext <;> simp [← htext.2]
  split at h
  · contradiction
  · rename_i hdigits
    have := someDigits_length hdigits
    simp only [Except.ok.injEq, Prod.mk.injEq] at h
    rw [← h.2]
    omega

/-- Looking for an exponent never adds to the text. -/
theorem withExponent_length {missing : List Char → ReadError} {n m : Numeral}
    {text rest : List Char} (h : withExponent missing n text = .ok (m, rest)) :
    rest.length ≤ text.length := by
  unfold withExponent at h
  split at h
  · split at h
    · contradiction
    · rename_i hexp
      have := scanExponent_length hexp
      simp only [Except.ok.injEq, Prod.mk.injEq] at h
      rw [← h.2, List.length_cons]
      omega
  · split at h
    · contradiction
    · rename_i hexp
      have := scanExponent_length hexp
      simp only [Except.ok.injEq, Prod.mk.injEq] at h
      rw [← h.2, List.length_cons]
      omega
  · simp only [Except.ok.injEq, Prod.mk.injEq] at h
    exact Nat.le_of_eq (congrArg List.length h.2.symm)

/-- A number takes at least one character. -/
theorem scan_length {missing : List Char → ReadError} {negative : Bool} {text rest : List Char}
    {n : Numeral} (h : scan missing negative text = .ok (n, rest)) :
    rest.length < text.length := by
  unfold scan at h
  split at h
  · contradiction
  · contradiction
  · rename_i hint
    have := someDigits_length hint
    simp only [List.length_cons] at this
    split at h
    · contradiction
    · rename_i hfrac
      have := someDigits_length hfrac
      have := withExponent_length h
      omega
  · rename_i hint
    have := someDigits_length hint
    have := withExponent_length h
    omega

/-- A number that is read takes at least one character. -/
theorem read_length {negative : Bool} {text rest : List Char} {n : Numeral}
    (h : read negative text = .ok (n, rest)) : rest.length < text.length := by
  unfold read at h
  split at h
  · contradiction
  · rename_i hscan
    split at h
    · simp only [Except.ok.injEq, Prod.mk.injEq] at h
      rw [← h.2]
      exact scan_length hscan
    · contradiction

/-- A number that is passed over takes at least one character. -/
theorem skip_length {text rest : List Char} (h : skip text = .ok rest) :
    rest.length < text.length := by
  unfold skip at h
  split at h
  · contradiction
  · rename_i hscan
    simp only [Except.ok.injEq] at h
    rw [← h]
    exact scan_length hscan

end Numeral

end TapeLang.Json
