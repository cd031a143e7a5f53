import TapeLang.Json.Numeral

/-!
# Passing over a value

A value that nobody asked for is passed over, but it still has to be JSON. The
brackets that are open are kept on a stack, so values may be nested to any
depth.
-/

namespace TapeLang.Json

/-- Pass over a number, a string or a fixed word that begins with a character. -/
def skipScalar (c : Char) (rest : List Char) : Except ReadError (List Char) :=
  match c with
  | 'n' => literal "ull".toList rest
  | 't' => literal "rue".toList rest
  | 'f' => literal "alse".toList rest
  | '"' =>
    match string false rest with
    | .error e => .error e
    | .ok (_, rest) => .ok rest
  | '-' => Numeral.skip rest
  | _ => if c.isDigit then Numeral.skip (c :: rest) else .error .malformed

/-- A bracket that is open. -/
inductive Frame where
  | list
  | object
  deriving DecidableEq, Repr

/-- The character that closes a bracket. -/
def Frame.close : Frame → Char
  | list => ']'
  | object => '}'

/-- Where the reader stands. -/
inductive Place where
  /-- In front of a value. -/
  | value
  /-- In front of the name of a member. -/
  | name
  /-- Behind a value. -/
  | behind
  deriving DecidableEq, Repr

/-- What stands behind a comma. -/
def Frame.next : Frame → Place
  | list => .value
  | object => .name

def Frame.ofOpening? : Char → Option Frame
  | '[' => some list
  | '{' => some object
  | _ => none

/-- A scalar that is passed over never adds to the text. -/
theorem skipScalar_length {c : Char} {text rest : List Char} (h : skipScalar c text = .ok rest) :
    rest.length ≤ text.length := by
  unfold skipScalar at h
  split at h
  · exact literal_length h
  · exact literal_length h
  · exact literal_length h
  · split at h
    · contradiction
    · rename_i hstring
      simp only [Except.ok.injEq] at h
      rw [← h]
      exact Nat.le_of_lt (string_length hstring)
  · exact Nat.le_of_lt (Numeral.skip_length h)
  · split at h
    · have := Numeral.skip_length h
      simp only [List.length_cons] at this
      omega
    · contradiction

/-- Read on from a place to the end of the outermost value, with the brackets that are open. -/
def skipFrom (place : Place) (frames : List Frame) (text : List Char) :
    Except ReadError (List Char) :=
  match place with
  | .value =>
    match _h : next? text with
    | none => .error .endOfText
    | some (c, rest) =>
      match Frame.ofOpening? c with
      | some frame =>
        match _h' : next? rest with
        | none => .error .endOfText
        | some (d, after) =>
          if d = frame.close then skipFrom .behind frames after
          else skipFrom frame.next (frame :: frames) rest
      | none =>
        match _h' : skipScalar c rest with
        | .error e => .error e
        | .ok after => skipFrom .behind frames after
  | .name =>
    match _h : next? text with
    | none => .error .endOfText
    | some ('"', rest) =>
      match _h' : string false rest with
      | .error e => .error e
      | .ok (_, after) =>
        match _h'' : next? after with
        | none => .error .endOfText
        | some (':', after) => skipFrom .value frames after
        | some _ => .error .malformed
    | some _ => .error .malformed
  | .behind =>
    match frames with
    | [] => .ok text
    | frame :: outer =>
      match _h : next? text with
      | none => .error .endOfText
      | some (c, rest) =>
        if c = ',' then skipFrom frame.next (frame :: outer) rest
        else if c = frame.close then skipFrom .behind outer rest
        else .error .malformed
termination_by text.length
decreasing_by
  · have := next?_length _h
    have := next?_length _h'
    omega
  · exact next?_length _h
  · have := next?_length _h
    have := skipScalar_length _h'
    omega
  · have := next?_length _h
    have := string_length _h'
    have := next?_length _h''
    omega
  · exact next?_length _h
  · exact next?_length _h

/-- Passing over never adds to the text. -/
theorem skipFrom_length {place : Place} {frames : List Frame} {text rest : List Char}
    (h : skipFrom place frames text = .ok rest) : rest.length ≤ text.length := by
  fun_induction skipFrom place frames text <;>
    grind [→ next?_length, → string_length, → skipScalar_length]

def skipValue (text : List Char) : Except ReadError (List Char) := skipFrom .value [] text

/-- A value that is passed over never adds to the text. -/
theorem skipValue_length {text rest : List Char} (h : skipValue text = .ok rest) :
    rest.length ≤ text.length :=
  skipFrom_length h

end TapeLang.Json
