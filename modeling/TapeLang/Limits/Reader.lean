import TapeLang.Limits.Options
import TapeLang.Json.Skip

/-!
# Reading limits

Limits are read from a JSON text: an object with any of the four names, or a
list of the values in their order. Other names are passed over. The answer is
the first thing that is wrong from left to right; that a name is given twice
is seen in front of its second value.
-/

namespace TapeLang.Limits

open Json

/-- What is wrong with a value of another kind than wanted, given by its first character and the text behind: it
may be malformed itself. -/
def mismatch (c : Char) (rest : List Char) : ReadError :=
  match c with
  | '[' | '{' => .unsuitable
  | 'n' => judge (literal "ull".toList rest)
  | 't' => judge (literal "rue".toList rest)
  | 'f' => judge (literal "alse".toList rest)
  | '"' => judge (string true rest)
  | '-' => judge (Numeral.read true rest)
  | _ => if c.isDigit then judge (Numeral.read false (c :: rest)) else .malformed
where
  /-- What is wrong with a value that was read and is not wanted. -/
  judge {α : Type} : Except ReadError α → ReadError
    | .error e => e
    | .ok _ => .unsuitable

def readNumber (text : List Char) : Except ReadError (Nat × List Char) :=
  match next? text with
  | none => .error .endOfText
  | some (c, rest) =>
    if c.isDigit then
      match Numeral.read false (c :: rest) with
      | .error e => .error e
      | .ok (numeral, rest) =>
        match numeral.natural? with
        | some n => .ok (n, rest)
        | none => .error .unsuitable
    else .error (mismatch c rest)

def readString (text : List Char) : Except ReadError (String × List Char) :=
  match next? text with
  | none => .error .endOfText
  | some ('"', rest) =>
    match string true rest with
    | .error e => .error e
    | .ok (chars, rest) => .ok (String.ofList chars, rest)
  | some (c, rest) => .error (mismatch c rest)

/-- Read the value of one limit into the options. -/
def readOption (o : LimitOptions) (key : LimitKey) (text : List Char) :
    Except ReadError (LimitOptions × List Char) :=
  match key with
  | .timeout => (readNumber text).map fun (n, rest) ↦ ({ o with timeout := some n }, rest)
  | .maxSteps => (readNumber text).map fun (n, rest) ↦ ({ o with maxSteps := some n }, rest)
  | .maxMemory => (readNumber text).map fun (n, rest) ↦ ({ o with maxMemory := some n }, rest)
  | .userInput => (readString text).map fun (s, rest) ↦ ({ o with userInput := some s }, rest)

/-- How a list or an object goes on. -/
inductive Continuation where
  /-- It is closed; the text is behind the bracket. -/
  | closed (rest : List Char)
  /-- It goes on with the text. -/
  | more (rest : List Char)

/-- Go on in a list: to its end, or in front of the next value. -/
def nextElement (first : Bool) (text : List Char) : Except ReadError Continuation :=
  match next? text with
  | none => .error .endOfText
  | some (c, rest) =>
    if c = ']' then .ok (.closed rest)
    else if first then .ok (.more text)
    else if c = ',' then
      match next? rest with
      | none => .error .endOfText
      | some (d, _) => if d = ']' then .error .malformed else .ok (.more rest)
    else .error .malformed

/-- Read the values of a list, the limits to come being given. More values than limits are malformed. -/
def readList (o : LimitOptions) (first : Bool) (text : List Char) :
    List LimitKey → Except ReadError (LimitOptions × List Char)
  | [] =>
    match next? text with
    | none => .error .endOfText
    | some (c, rest) => if c = ']' then .ok (o, rest) else .error .malformed
  | key :: keys =>
    match nextElement first text with
    | .error e => .error e
    | .ok (.closed rest) => .ok (o, rest)
    | .ok (.more rest) =>
      match readOption o key rest with
      | .error e => .error e
      | .ok (o, rest) => readList o false rest keys

/-- Go on in an object: to its end, or behind the quote that opens the next name. -/
def nextName (first : Bool) (text : List Char) : Except ReadError Continuation :=
  match next? text with
  | none => .error .endOfText
  | some (c, rest) =>
    if c = '\x7d' then .ok (.closed rest)
    else if first then
      if c = '"' then .ok (.more rest) else .error .malformed
    else if c = ',' then
      match next? rest with
      | none => .error .endOfText
      | some (d, rest) => if d = '"' then .ok (.more rest) else .error .malformed
    else .error .malformed

def readColon (text : List Char) : Except ReadError (List Char) :=
  match next? text with
  | none => .error .endOfText
  | some (c, rest) => if c = ':' then .ok rest else .error .malformed

/-- Read a member behind its name. -/
def readMember (o : LimitOptions) (name : String) (text : List Char) :
    Except ReadError (LimitOptions × List Char) :=
  match LimitKey.ofName? name with
  | some key =>
    if o.has key then .error .unsuitable
    else
      match readColon text with
      | .error e => .error e
      | .ok rest => readOption o key rest
  | none =>
    match readColon text with
    | .error e => .error e
    | .ok rest =>
      match skipValue rest with
      | .error e => .error e
      | .ok rest => .ok (o, rest)

/-- Going on to a name takes at least the quote in front of it. -/
theorem nextName_length {first : Bool} {text rest : List Char}
    (h : nextName first text = .ok (.more rest)) : rest.length < text.length := by
  unfold nextName at h
  grind [→ next?_length]

/-- A number that is read takes at least one character. -/
theorem readNumber_length {text rest : List Char} {n : Nat}
    (h : readNumber text = .ok (n, rest)) : rest.length < text.length := by
  unfold readNumber at h
  split at h
  · contradiction
  · rename_i hnext
    have := next?_length hnext
    split at h
    · split at h
      · contradiction
      · rename_i hread
        have := Numeral.read_length hread
        simp only [List.length_cons] at this
        split at h
        · simp only [Except.ok.injEq, Prod.mk.injEq] at h
          rw [← h.2]
          omega
        · contradiction
    · contradiction

/-- A string that is read takes at least its quotes. -/
theorem readString_length {text rest : List Char} {s : String}
    (h : readString text = .ok (s, rest)) : rest.length < text.length := by
  unfold readString at h
  grind [→ next?_length, → string_length]

/-- The value of a limit takes at least one character. -/
theorem readOption_length {o o' : LimitOptions} {key : LimitKey} {text rest : List Char}
    (h : readOption o key text = .ok (o', rest)) : rest.length < text.length := by
  have mapped {α β : Type} {f : α → β} {x : Except ReadError α} {b : β} (h : x.map f = .ok b) :
      ∃ a, x = .ok a ∧ f a = b := by
    cases x with
    | error e => simp [Except.map] at h
    | ok a => exact ⟨a, rfl, by simpa [Except.map] using h⟩
  unfold readOption at h
  split at h <;> obtain ⟨⟨value, rest'⟩, hread, hpair⟩ := mapped h <;>
    simp only [Prod.mk.injEq] at hpair <;> rw [← hpair.2]
  · exact readNumber_length hread
  · exact readNumber_length hread
  · exact readNumber_length hread
  · exact readString_length hread

/-- The colon is taken from the text. -/
theorem readColon_length {text rest : List Char} (h : readColon text = .ok rest) :
    rest.length < text.length := by
  unfold readColon at h
  grind [→ next?_length]

/-- A member takes at least its colon. -/
theorem readMember_length {o o' : LimitOptions} {name : String} {text rest : List Char}
    (h : readMember o name text = .ok (o', rest)) : rest.length < text.length := by
  unfold readMember at h
  grind [→ readColon_length, → readOption_length, → skipValue_length]

/-- Read the members of an object. -/
def readMembers (o : LimitOptions) (first : Bool) (text : List Char) :
    Except ReadError (LimitOptions × List Char) :=
  match _h : nextName first text with
  | .error e => .error e
  | .ok (.closed rest) => .ok (o, rest)
  | .ok (.more rest) =>
    match _h' : string true rest with
    | .error e => .error e
    | .ok (name, rest) =>
      match _h'' : readMember o (String.ofList name) rest with
      | .error e => .error e
      | .ok (o, rest) => readMembers o false rest
termination_by text.length
decreasing_by
  have := nextName_length _h
  have := string_length _h'
  have := readMember_length _h''
  omega

/-- Read an object or a list of limits, the text behind it left over. -/
def readValue (text : List Char) : Except ReadError (LimitOptions × List Char) :=
  match next? text with
  | none => .error .endOfText
  | some (c, rest) =>
    if c = '[' then readList {} true rest LimitKey.all
    else if c = '\x7b' then readMembers {} true rest
    else .error (mismatch c rest)

/-- Read a whole text. Only blanks may follow the value. -/
def read (text : List Char) : Except ReadError LimitOptions :=
  match readValue text with
  | .error e => .error e
  | .ok (o, rest) => if rest.all isBlank then .ok o else .error .malformed

/-- Why limits could not be loaded from a file. -/
inductive LoadError where
  /-- There is no file, or its content is no text. -/
  | unreadable
  /-- The text could not be read. -/
  | content (error : ReadError)
  deriving DecidableEq

/-- The limits in the content of a file, if there is one; those that are not given keep their usual values. -/
def ofFile (content : Option ByteArray) : Except LoadError Limits :=
  match content.bind String.fromUTF8? with
  | none => .error .unreadable
  | some text =>
    match read text.toList with
    | .error e => .error (.content e)
    | .ok options => .ok (options.applyTo {})

end TapeLang.Limits
