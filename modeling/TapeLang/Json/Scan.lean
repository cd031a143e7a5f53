/-!
# Scanning JSON

The small parts of a JSON text: blanks, fixed words and strings. Each scanner
takes the characters in front of it and answers with what it read and the
characters behind, or with the reason why it could not. A string is scanned in
one of two ways: `strict` insists that the halves of a surrogate pair come
together, as is needed where the characters matter.

Main statement: every scanner leaves less text than it was given.
-/

namespace TapeLang.Json

/-- Why a text was not read. -/
inductive ReadError where
  | endOfText
  /-- The text is not JSON. -/
  | malformed
  | unsuitable
  deriving DecidableEq, Repr, Inhabited

/-- Whether a character may stand between the parts of a text. -/
def isBlank (c : Char) : Bool := c = ' ' || c = '\n' || c = '\t' || c = '\r'

/-- The first character that is not blank, and the text behind it. -/
def next? (text : List Char) : Option (Char × List Char) :=
  match text.dropWhile isBlank with
  | [] => none
  | c :: rest => some (c, rest)

/-- Read the rest of a fixed word. -/
def literal : List Char → List Char → Except ReadError (List Char)
  | [], text => .ok text
  | _ :: _, [] => .error .endOfText
  | e :: expected, c :: rest => if c = e then literal expected rest else .error .malformed

/-- The value of a hexadecimal digit. -/
def hexDigit? (c : Char) : Option Nat :=
  if '0' ≤ c ∧ c ≤ '9' then some (c.toNat - '0'.toNat)
  else if 'a' ≤ c ∧ c ≤ 'f' then some (c.toNat - 'a'.toNat + 10)
  else if 'A' ≤ c ∧ c ≤ 'F' then some (c.toNat - 'A'.toNat + 10)
  else none

/-- Read four hexadecimal digits. A text of fewer than four bytes ends too early, whatever it holds. -/
def hexQuad : List Char → Except ReadError (Nat × List Char)
  | a :: b :: c :: d :: rest =>
    match hexDigit? a, hexDigit? b, hexDigit? c, hexDigit? d with
    | some a, some b, some c, some d => .ok (((a * 16 + b) * 16 + c) * 16 + d, rest)
    | _, _, _, _ => .error .malformed
  | short => .error (if (String.ofList short).utf8ByteSize < 4 then .endOfText else .malformed)

/-- Whether a number is the first half of a surrogate pair. -/
def isHighSurrogate (n : Nat) : Bool := 0xD800 ≤ n && n ≤ 0xDBFF

/-- Whether a number is the second half of a surrogate pair. -/
def isLowSurrogate (n : Nat) : Bool := 0xDC00 ≤ n && n ≤ 0xDFFF

/-- The character of a surrogate pair. -/
def surrogatePair (high low : Nat) : Char :=
  Char.ofNat (0x10000 + (high - 0xD800) * 0x400 + (low - 0xDC00))

/-- The character of an escaped number. The first half of a surrogate pair wants the second half behind it. -/
def codeUnit (n : Nat) (text : List Char) : Except ReadError (Char × List Char) :=
  if isLowSurrogate n then .error .malformed
  else if !isHighSurrogate n then .ok (Char.ofNat n, text)
  else
    match text with
    | [] | ['\\'] => .error .endOfText
    | '\\' :: 'u' :: rest =>
      match hexQuad rest with
      | .error e => .error e
      | .ok (low, rest) =>
        if isLowSurrogate low then .ok (surrogatePair n low, rest) else .error .malformed
    | _ => .error .malformed

/-- The character behind a backslash stands for this one. -/
def simpleEscape? : Char → Option Char
  | '"' => some '"'
  | '\\' => some '\\'
  | '/' => some '/'
  | 'b' => some '\x08'
  | 'f' => some '\x0c'
  | 'n' => some '\n'
  | 'r' => some '\r'
  | 't' => some '\t'
  | _ => none

/-- Read an escape behind its backslash. If the scan is not strict, half of a surrogate pair counts as some
character. -/
def escape (strict : Bool) : List Char → Except ReadError (Char × List Char)
  | [] => .error .endOfText
  | 'u' :: rest =>
    match hexQuad rest with
    | .error e => .error e
    | .ok (n, rest) => if strict then codeUnit n rest else .ok (Char.ofNat n, rest)
  | c :: rest =>
    match simpleEscape? c with
    | some value => .ok (value, rest)
    | none => .error .malformed

/-- The character found is taken from the text. -/
theorem next?_length {text rest : List Char} {c : Char} (h : next? text = some (c, rest)) :
    rest.length < text.length := by
  unfold next? at h
  split at h
  · contradiction
  · rename_i hdrop
    have := (List.dropWhile_sublist isBlank (l := text)).length_le
    simp only [hdrop, List.length_cons] at this
    simp only [Option.some.injEq, Prod.mk.injEq] at h
    rw [← h.2]
    omega

/-- A fixed word never adds to the text. -/
theorem literal_length {expected text rest : List Char} (h : literal expected text = .ok rest) :
    rest.length ≤ text.length := by
  induction expected generalizing text with
  | nil =>
    simp only [literal, Except.ok.injEq] at h
    exact Nat.le_of_eq (congrArg List.length h.symm)
  | cons e expected ih =>
    cases text with
    | nil => simp [literal] at h
    | cons c text =>
      simp only [literal] at h
      split at h
      · have := ih h
        simp only [List.length_cons]
        omega
      · contradiction

/-- Four hexadecimal digits are taken from the text. -/
theorem hexQuad_length {text rest : List Char} {n : Nat} (h : hexQuad text = .ok (n, rest)) :
    rest.length < text.length := by
  unfold hexQuad at h
  split at h
  · split at h
    · simp only [Except.ok.injEq, Prod.mk.injEq] at h
      simp only [← h.2, List.length_cons]
      omega
    · contradiction
  · contradiction

/-- The second half of a pair is taken from the text, if there is one. -/
theorem codeUnit_length {text rest : List Char} {n : Nat} {c : Char}
    (h : codeUnit n text = .ok (c, rest)) : rest.length ≤ text.length := by
  unfold codeUnit at h
  split at h
  · contradiction
  split at h
  · simp only [Except.ok.injEq, Prod.mk.injEq] at h
    exact Nat.le_of_eq (congrArg List.length h.2.symm)
  split at h
  any_goals contradiction
  split at h
  · contradiction
  · rename_i hquad
    split at h
    · have := hexQuad_length hquad
      simp only [Except.ok.injEq, Prod.mk.injEq] at h
      simp only [← h.2, List.length_cons]
      omega
    · contradiction

/-- An escape takes at least one character. -/
theorem escape_length {strict : Bool} {text rest : List Char} {c : Char}
    (h : escape strict text = .ok (c, rest)) : rest.length < text.length := by
  unfold escape at h
  split at h
  · contradiction
  · split at h
    · contradiction
    · rename_i hquad
      have hlt := hexQuad_length hquad
      simp only [List.length_cons]
      split at h
      · have := codeUnit_length h
        omega
      · simp only [Except.ok.injEq, Prod.mk.injEq] at h
        rw [← h.2]
        omega
  · split at h
    · simp only [Except.ok.injEq, Prod.mk.injEq] at h
      simp only [← h.2, List.length_cons]
      omega
    · contradiction

/-- Read a string behind its opening quote. -/
def string (strict : Bool) : List Char → Except ReadError (List Char × List Char)
  | [] => .error .endOfText
  | '"' :: rest => .ok ([], rest)
  | '\\' :: rest =>
    match _h : escape strict rest with
    | .error e => .error e
    | .ok (value, rest) =>
      match string strict rest with
      | .error e => .error e
      | .ok (values, rest) => .ok (value :: values, rest)
  | c :: rest =>
    if c.toNat < 0x20 then .error .malformed
    else
      match string strict rest with
      | .error e => .error e
      | .ok (values, rest) => .ok (c :: values, rest)
termination_by text => text.length
decreasing_by
  · have := escape_length _h
    simp only [List.length_cons]
    omega
  · simp

/-- A string takes at least its closing quote. -/
theorem string_length {strict : Bool} {text rest values : List Char}
    (h : string strict text = .ok (values, rest)) : rest.length < text.length := by
  fun_induction string strict text generalizing values rest with
  | case1 => contradiction
  | case2 =>
    simp only [Except.ok.injEq, Prod.mk.injEq] at h
    simp [h.2]
  | case3 => contradiction
  | case4 => contradiction
  | case5 tail value rest' hescape values' rest'' hstring ih =>
    have := escape_length hescape
    have := ih hstring
    simp only [Except.ok.injEq, Prod.mk.injEq] at h
    simp only [← h.2, List.length_cons]
    omega
  | case6 => contradiction
  | case7 => contradiction
  | case8 c tail _ _ _ values' rest' hstring ih =>
    have := ih hstring
    simp only [Except.ok.injEq, Prod.mk.injEq] at h
    simp only [← h.2, List.length_cons]
    omega

end TapeLang.Json
