import TapeLang.Proofs.Json.Grammar
import Mathlib.Tactic.IntervalCases

/-!
# Scanning what the grammar allows

Every scanner takes just the text the grammar gives it and leaves what stands
behind. A strict scan of a string finds the characters it means
(`string_spelling`), any other scan passes over it (`string_body`). A number
ends where nothing follows that would go on with it (`Stops`), so the text
behind has a part in what is read (`scan_append`).
-/

namespace TapeLang.Json

/-! ### Blanks -/

theorem Blank.append {blanks blanks' : List Char} (h : Blank blanks) (h' : Blank blanks') :
    Blank (blanks ++ blanks') :=
  fun c hc ↦ (List.mem_append.mp hc).elim (h c) (h' c)

theorem isBlank_of_blank {text : List Char} (h : Blank text) : ∀ c ∈ text, isBlank c = true := by
  intro c hc
  have := h c hc
  simp only [List.mem_cons, List.not_mem_nil, or_false] at this
  simp only [isBlank, Bool.or_eq_true, decide_eq_true_eq]
  tauto

/-- Blanks in front of a text are passed over. -/
@[simp] theorem next?_blank_append {blanks : List Char} (h : Blank blanks) (text : List Char) :
    next? (blanks ++ text) = next? text := by
  rw [next?, next?, List.dropWhile_append_of_pos (isBlank_of_blank h)]

/-- A character that is not blank is found at once. -/
theorem next?_cons {c : Char} (h : isBlank c = false) (text : List Char) :
    next? (c :: text) = some (c, text) := by
  rw [next?, List.dropWhile_cons_of_neg (by simp [h])]

theorem next?_blank_cons {blanks : List Char} {c : Char} (h : Blank blanks)
    (hc : isBlank c = false) (text : List Char) :
    next? (blanks ++ c :: text) = some (c, text) := by
  rw [next?_blank_append h, next?_cons hc]

theorem isBlank_of_isDigit {c : Char} (h : c.isDigit = true) : isBlank c = false := by
  by_contra hblank
  simp only [isBlank, Bool.not_eq_false, Bool.or_eq_true, decide_eq_true_eq] at hblank
  rcases hblank with ((rfl | rfl) | rfl) | rfl <;> exact absurd h (by decide)

/-! ### Escapes -/

theorem hexDigit?_of_hexDigit {n : Nat} {c : Char} (h : HexDigit n c) : hexDigit? c = some n := by
  obtain ⟨hn, rfl | rfl⟩ := h <;> interval_cases n <;> rfl

/-- Four hexadecimal digits are read as their number. -/
theorem hexQuad_append {n : Nat} {quad : List Char} (h : HexQuad n quad) (rest : List Char) :
    hexQuad (quad ++ rest) = .ok (n, rest) := by
  obtain ⟨hw, hx, hy, hz⟩ := h
  simp only [List.cons_append, List.nil_append, hexQuad, hexDigit?_of_hexDigit hw,
    hexDigit?_of_hexDigit hx, hexDigit?_of_hexDigit hy, hexDigit?_of_hexDigit hz]
  congr 2
  omega

theorem escape_short {letter c : Char} (h : (letter, c) ∈ shortEscapes) (strict : Bool)
    (rest : List Char) : escape strict (letter :: rest) = .ok (c, rest) := by
  simp only [shortEscapes, List.mem_cons, List.not_mem_nil, or_false, Prod.mk.injEq] at h
  rcases h with ⟨rfl, rfl⟩ | ⟨rfl, rfl⟩ | ⟨rfl, rfl⟩ | ⟨rfl, rfl⟩ | ⟨rfl, rfl⟩ | ⟨rfl, rfl⟩ |
    ⟨rfl, rfl⟩ | ⟨rfl, rfl⟩ <;> rfl

/-- Without care for surrogate pairs any number of four digits is an escape. -/
theorem escape_unit {n : Nat} {quad : List Char} (h : HexQuad n quad) (rest : List Char) :
    escape false ('u' :: (quad ++ rest)) = .ok (Char.ofNat n, rest) := by
  simp [escape, hexQuad_append h]

-- The number of a character is never half of a surrogate pair.
private theorem not_surrogate (c : Char) :
    isLowSurrogate c.toNat = false ∧ isHighSurrogate c.toNat = false := by
  have hvalid : c.toNat < 0xD800 ∨ 0xDFFF < c.toNat ∧ c.toNat < 0x110000 := c.valid
  simp only [isLowSurrogate, isHighSurrogate, Bool.and_eq_false_iff, decide_eq_false_iff_not]
  omega

theorem escape_scalar {c : Char} {quad : List Char} (h : HexQuad c.toNat quad)
    (rest : List Char) : escape true ('u' :: (quad ++ rest)) = .ok (c, rest) := by
  simp [escape, hexQuad_append h, codeUnit, not_surrogate c, Char.ofNat_toNat]

theorem escape_pair {c : Char} {high low : Nat} {quad quad' : List Char} (h : HexQuad high quad)
    (h' : HexQuad low quad') (hhigh : 0xD800 ≤ high ∧ high ≤ 0xDBFF)
    (hlow : 0xDC00 ≤ low ∧ low ≤ 0xDFFF)
    (hc : c.toNat = 0x10000 + (high - 0xD800) * 0x400 + (low - 0xDC00)) (rest : List Char) :
    escape true ('u' :: (quad ++ '\\' :: 'u' :: (quad' ++ rest))) = .ok (c, rest) := by
  have hfirst : isLowSurrogate high = false ∧ isHighSurrogate high = true := by
    simp only [isLowSurrogate, isHighSurrogate, Bool.and_eq_false_iff, Bool.and_eq_true,
      decide_eq_false_iff_not, decide_eq_true_eq]
    omega
  have hsecond : isLowSurrogate low = true := by
    simpa only [isLowSurrogate, Bool.and_eq_true, decide_eq_true_eq] using hlow
  simp [escape, hexQuad_append h, codeUnit, hfirst, hexQuad_append h', hsecond, surrogatePair, ← hc,
    Char.ofNat_toNat]

/-! ### Strings -/

theorem string_quote (strict : Bool) (rest : List Char) :
    string strict ('"' :: rest) = .ok ([], rest) := by
  rw [string]

theorem string_escape {strict : Bool} {c : Char} {s text after rest : List Char}
    (hc : escape strict text = .ok (c, after)) (hs : string strict after = .ok (s, rest)) :
    string strict ('\\' :: text) = .ok (c :: s, rest) := by
  rw [string]
  split
  · next e he => simp [hc] at he
  · next value text' he =>
    obtain ⟨rfl, rfl⟩ : c = value ∧ after = text' := by simpa [hc] using he
    rw [hs]

theorem string_plain {strict : Bool} {c : Char} {s text rest : List Char} (hc : Unescaped c)
    (hs : string strict text = .ok (s, rest)) :
    string strict (c :: text) = .ok (c :: s, rest) := by
  obtain ⟨hlarge, hquote, hbackslash⟩ := hc
  rw [string.eq_4 strict c text hquote hbackslash, if_neg (Nat.not_lt.mpr hlarge), hs]

/-- Characters that may stand as they are spell themselves. -/
theorem Spelling.self {s : List Char} (h : ∀ c ∈ s, Unescaped c) : Spelling s s := by
  induction s with
  | nil => exact .nil
  | cons c s ih =>
    exact .plain (h c List.mem_cons_self) (ih fun c' hc' ↦ h c' (List.mem_cons_of_mem _ hc'))

/-- A spelling is one of the strings the grammar allows. -/
theorem Spelling.stringBody {s body : List Char} (h : Spelling s body) : StringBody body := by
  induction h with
  | nil => exact .nil
  | plain hc _ ih => exact .plain hc ih
  | short hc _ ih => exact .short hc ih
  | unit hquad _ ih => exact .unit hquad ih
  | pair hquad hquad' _ _ _ _ _ _ ih => exact .unit hquad (.unit hquad' ih)

/-- Whatever may stand between quotes is scanned to the closing quote. -/
theorem string_body {body : List Char} (h : StringBody body) (rest : List Char) :
    ∃ values, string false (body ++ '"' :: rest) = .ok (values, rest) := by
  induction h with
  | nil => exact ⟨[], string_quote _ _⟩
  | plain hc _ ih =>
    obtain ⟨values, hvalues⟩ := ih
    exact ⟨_, string_plain hc hvalues⟩
  | short hc _ ih =>
    obtain ⟨values, hvalues⟩ := ih
    exact ⟨_, string_escape (escape_short hc _ _) hvalues⟩
  | unit hquad _ ih =>
    obtain ⟨values, hvalues⟩ := ih
    rw [List.cons_append, List.cons_append, List.append_assoc]
    exact ⟨_, string_escape (escape_unit hquad _) hvalues⟩

/-- A strict scan finds the characters that are meant. -/
theorem string_spelling {s body : List Char} (h : Spelling s body) (rest : List Char) :
    string true (body ++ '"' :: rest) = .ok (s, rest) := by
  induction h with
  | nil => exact string_quote _ _
  | plain hc _ ih => exact string_plain hc ih
  | short hc _ ih => exact string_escape (escape_short hc _ _) ih
  | unit hquad _ ih =>
    rw [List.cons_append, List.cons_append, List.append_assoc]
    exact string_escape (escape_scalar hquad _) ih
  | pair hquad hquad' hle hge hle' hge' hc _ ih =>
    simp only [List.cons_append, List.append_assoc]
    exact string_escape (escape_pair hquad hquad' ⟨hle, hge⟩ ⟨hle', hge'⟩ hc _) ih

/-! ### Numbers -/

def NoDigit (text : List Char) : Prop := ∀ c ∈ text.head?, c.isDigit = false

/-- The text does not go on with a number in front of it. -/
def Stops (text : List Char) : Prop := ∀ c ∈ text.head?, c.isDigit = false ∧ c ∉ ['.', 'e', 'E']

theorem Stops.noDigit {text : List Char} (h : Stops text) : NoDigit text :=
  fun c hc ↦ (h c hc).1

theorem stops_cons {c : Char} (h : c.isDigit = false ∧ c ∉ ['.', 'e', 'E']) (text : List Char) :
    Stops (c :: text) := by
  rintro _ ⟨⟩
  exact h

/-- Blanks never go on with a number. -/
theorem Stops.blank_append {blanks text : List Char} (h : Blank blanks) (htext : Stops text) :
    Stops (blanks ++ text) := by
  cases blanks with
  | nil => exact htext
  | cons c blanks =>
    have hc := h c List.mem_cons_self
    simp only [List.mem_cons, List.not_mem_nil, or_false] at hc
    refine stops_cons ?_ _
    rcases hc with rfl | rfl | rfl | rfl <;> decide

namespace Numeral

theorem someDigits_append {missing : List Char → ReadError} {ds rest : List Char} (h : Digits ds)
    (hrest : NoDigit rest) : someDigits missing (ds ++ rest) = .ok (ds, rest) := by
  have htake : rest.takeWhile Char.isDigit = [] ∧ rest.dropWhile Char.isDigit = rest := by
    cases rest with
    | nil => exact ⟨rfl, rfl⟩
    | cons c rest =>
      have hc := hrest c rfl
      exact ⟨List.takeWhile_cons_of_neg (by simp [hc]), List.dropWhile_cons_of_neg (by simp [hc])⟩
  have hdigits : digits (ds ++ rest) = (ds, rest) := by
    rw [digits, List.takeWhile_append_of_pos h.2, List.dropWhile_append_of_pos h.2, htake.1, htake.2,
      List.append_nil]
  rw [someDigits, hdigits]
  split
  · next heq =>
    exact absurd (Prod.mk.inj heq).1 h.1
  · next heq => rw [heq]

theorem ofDigits_eq (ds : List Char) : ofDigits ds = Nat.ofDigitChars 10 ds 0 := by
  simp only [ofDigits, Nat.ofDigitChars_eq_foldl, Nat.mul_comm]

-- A digit is neither of the signs an exponent may have.
private theorem scanExponent_digits {missing : List Char → ReadError} {ds rest : List Char}
    (h : Digits ds) (hrest : NoDigit rest) :
    scanExponent missing (ds ++ rest) = .ok ((ofDigits ds : Int), rest) := by
  have hsome : someDigits missing (ds ++ rest) = .ok (ds, rest) := someDigits_append h hrest
  obtain ⟨hne, hdigits⟩ := h
  obtain ⟨d, ds, rfl⟩ := List.exists_cons_of_ne_nil hne
  have hd := hdigits d List.mem_cons_self
  have hplus : d ≠ '+' := by rintro rfl; exact absurd hd (by decide)
  have hminus : d ≠ '-' := by rintro rfl; exact absurd hd (by decide)
  rw [List.cons_append] at hsome ⊢
  simp [scanExponent, hsome, hplus, hminus]

theorem withExponent_append {missing : List Char → ReadError} {n : Numeral} {e : Option Int}
    {text rest : List Char} (hn : n.exponent = none) (h : ExponentText e text)
    (hrest : Stops rest) :
    withExponent missing n (text ++ rest) = .ok ({ n with exponent := e }, rest) := by
  cases h with
  | absent =>
    have hself : { n with exponent := none } = n := by rw [← hn]
    rw [List.nil_append, hself]
    cases rest with
    | nil => rfl
    | cons c rest =>
      have hc := (hrest c rfl).2
      simp only [List.mem_cons, List.not_mem_nil, or_false, not_or] at hc
      unfold withExponent
      split
      · next heq => simp_all
      · next heq => simp_all
      · rfl
  | @positive letter sign ds hletter hsign hds =>
    have hscan : scanExponent missing (sign ++ (ds ++ rest)) =
        .ok ((Nat.ofDigitChars 10 ds 0 : Int), rest) := by
      simp only [List.mem_cons, List.not_mem_nil, or_false] at hsign
      rcases hsign with rfl | rfl
      · rw [List.nil_append, scanExponent_digits hds hrest.noDigit, ofDigits_eq]
      · simp [scanExponent, someDigits_append hds hrest.noDigit, ofDigits_eq]
    simp only [List.mem_cons, List.not_mem_nil, or_false] at hletter
    rcases hletter with rfl | rfl <;>
      simp only [List.cons_append, List.append_assoc, withExponent, hscan]
  | @negative letter ds hletter hds =>
    have hscan : scanExponent missing ('-' :: (ds ++ rest)) =
        .ok (-(Nat.ofDigitChars 10 ds 0 : Int), rest) := by
      simp [scanExponent, someDigits_append hds hrest.noDigit, ofDigits_eq]
    simp only [List.mem_cons, List.not_mem_nil, or_false] at hletter
    rcases hletter with rfl | rfl <;> simp only [List.cons_append, withExponent, hscan]

-- An exponent, or what follows a number without one, begins with neither a digit nor a point.
private theorem head_exponent {e : Option Int} {text rest : List Char} (h : ExponentText e text)
    (hrest : Stops rest) : ∀ c ∈ (text ++ rest).head?, c.isDigit = false ∧ c ≠ '.' := by
  cases h with
  | absent =>
    intro c hc
    have := hrest c hc
    simp only [List.mem_cons, not_or] at this
    exact ⟨this.1, this.2.1⟩
  | positive hletter | negative hletter =>
    simp only [List.mem_cons, List.not_mem_nil, or_false] at hletter
    rcases hletter with rfl | rfl <;> rintro _ ⟨⟩ <;> decide

/-- A number is scanned to its end. -/
theorem scan_append {missing : List Char → ReadError} {n : Numeral} {text rest : List Char}
    (h : NumberText n text) (hrest : Stops rest) :
    scan missing n.negative (text ++ rest) = .ok (n, rest) := by
  obtain @⟨negative, integer, fraction, exponent, f, e, hint, hzero, hfrac, hexp⟩ := h
  have hhead := head_exponent hexp hrest
  have hnozero : ∀ d ds, integer ≠ '0' :: d :: ds := by
    rintro d ds rfl
    simpa using hzero rfl
  rw [List.append_assoc, List.append_assoc]
  cases hfrac with
  | absent =>
    have hsome : someDigits missing (integer ++ (exponent ++ rest)) =
        .ok (integer, exponent ++ rest) :=
      someDigits_append hint fun c hc ↦ (hhead c hc).1
    rw [List.nil_append, scan, hsome]
    split
    · next heq => cases heq
    · next heq => exact absurd (Prod.mk.inj (Except.ok.inj heq)).1 (hnozero _ _)
    · next heq =>
      have hpoint := (Prod.mk.inj (Except.ok.inj heq)).2
      exact absurd rfl (hhead '.' (by rw [hpoint]; rfl)).2
    · next heq =>
      obtain ⟨rfl, rfl⟩ := Prod.mk.inj (Except.ok.inj heq)
      exact withExponent_append rfl hexp hrest
  | @present ds hds =>
    have hsome : someDigits missing (integer ++ ('.' :: ds ++ (exponent ++ rest))) =
        .ok (integer, '.' :: (ds ++ (exponent ++ rest))) :=
      someDigits_append hint (by rintro _ ⟨⟩; decide)
    rw [scan, hsome]
    split
    · next heq => cases heq
    · next heq => exact absurd (Prod.mk.inj (Except.ok.inj heq)).1 (hnozero _ _)
    · next heq =>
      obtain ⟨rfl, htail⟩ := Prod.mk.inj (Except.ok.inj heq)
      rw [← (List.cons.inj htail).2, someDigits_append hds fun c hc ↦ (hhead c hc).1]
      exact withExponent_append rfl hexp hrest
    · next hpoint heq =>
      obtain ⟨rfl, htail⟩ := Prod.mk.inj (Except.ok.inj heq)
      exact absurd htail.symm (hpoint _)
/-! ### Natural numbers -/

-- No zero stands in front of other digits.
private theorem eq_zero_of_head?_toDigits {n : Nat} (h : (Nat.toDigits 10 n).head? = some '0') :
    n = 0 := by
  induction n using Nat.strong_induction_on with
  | h n ih =>
    by_cases hn : n < 10
    · rw [Nat.toDigits_of_lt_base hn, List.head?_cons, Option.some.injEq] at h
      exact Nat.digitChar_eq_zero.mp h
    · rw [Nat.toDigits_of_base_le (by decide) (by omega),
        List.head?_append_of_ne_nil _ Nat.toDigits_ne_nil] at h
      have := ih (n / 10) (by omega) h
      omega

theorem digits_toDigits (n : Nat) : Digits (Nat.toDigits 10 n) :=
  ⟨Nat.toDigits_ne_nil, fun _ ↦ Nat.isDigit_of_mem_toDigits (by decide) (by decide)⟩

theorem numberText_toDigits (n : Nat) :
    NumberText ⟨false, Nat.toDigits 10 n, none, none⟩ (Nat.toDigits 10 n) := by
  have hzero : (Nat.toDigits 10 n).head? = some '0' → Nat.toDigits 10 n = ['0'] := by
    intro hhead
    rw [eq_zero_of_head?_toDigits hhead, Nat.toDigits_zero]
  simpa using NumberText.intro false (digits_toDigits n) hzero .absent .absent

/-- More digits never make a number smaller. -/
theorem le_ofDigitChars (n : Nat) (ds : List Char) : n ≤ Nat.ofDigitChars 10 ds n := by
  induction ds generalizing n with
  | nil => exact Nat.le_of_eq Nat.ofDigitChars_nil.symm
  | cons d ds ih =>
    rw [Nat.ofDigitChars_cons]
    exact Nat.le_trans (by omega) (ih _)

/-- Digits that make a number of 64 bits are all appended. -/
theorem appendDigits_eq {n : Nat} {ds : List Char} (h : Nat.ofDigitChars 10 ds n < UInt64.size) :
    appendDigits n ds = (Nat.ofDigitChars 10 ds n, 0) := by
  induction ds generalizing n with
  | nil => rw [appendDigits, Nat.ofDigitChars_nil]
  | cons d ds ih =>
    rw [Nat.ofDigitChars_cons, Nat.mul_comm] at h ⊢
    rw [appendDigits, if_pos (Nat.lt_of_le_of_lt (le_ofDigitChars _ ds) h), ih h]

theorem isFinite_toDigits {n : Nat} (h : n < UInt64.size) :
    isFinite ⟨false, Nat.toDigits 10 n, none, none⟩ = true := by
  have happend : appendDigits 0 (Nat.toDigits 10 n) = (n, 0) := by
    rw [appendDigits_eq] <;> rw [Nat.ofDigitChars_ten_toDigits]
    exact h
  simp [isFinite, happend, appendDigits, productIsFinite]

theorem natural?_toDigits {n : Nat} (h : n < UInt64.size) :
    natural? ⟨false, Nat.toDigits 10 n, none, none⟩ = some n := by
  simp [natural?, ofDigits_eq, Nat.ofDigitChars_ten_toDigits, h]

/-! ### Reading and passing over -/

/-- A finite number is read. -/
theorem read_append {n : Numeral} {text rest : List Char} (h : NumberText n text)
    (hfinite : n.isFinite = true) (hrest : Stops rest) :
    read n.negative (text ++ rest) = .ok (n, rest) := by
  rw [read, scan_append h hrest]
  exact if_pos hfinite

/-- Any number is passed over, whatever its size. -/
theorem skip_append {n : Numeral} {text rest : List Char} (h : NumberText n text)
    (hrest : Stops rest) : skip (text ++ rest) = .ok rest := by
  obtain @⟨negative, integer, fraction, exponent, f, e, hint, hzero, hfrac, hexp⟩ := h
  have hpositive := NumberText.intro false hint hzero hfrac hexp
  rw [skip, scan_append hpositive hrest]

/-- A number begins with a digit behind its sign. -/
theorem exists_digit_cons {n : Numeral} {text : List Char} (h : NumberText n text) :
    ∃ d ds, text = d :: ds ∧ d.isDigit = true := by
  obtain ⟨_, ⟨hne, hdigits⟩, -, -, -⟩ := h
  obtain ⟨d, ds, rfl⟩ := List.exists_cons_of_ne_nil hne
  exact ⟨d, _, rfl, hdigits d List.mem_cons_self⟩

end Numeral

end TapeLang.Json
