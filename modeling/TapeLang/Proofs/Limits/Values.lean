import TapeLang.Limits.Reader
import TapeLang.Proofs.Json.Passing

/-!
# Values of limits

What the reader makes of one value. A number or a string that is wanted is read
as what it writes (`readOption_writes`). Any other value is refused, as long as
it can be read at all: its numbers are finite and the characters of its strings
are known (`readOption_readable`).
-/

namespace TapeLang

open Json Limits

namespace LimitKey

@[simp] theorem ofName?_name (key : LimitKey) : ofName? key.name = some key := by
  cases key <;> rfl

theorem name_eq_of_ofName? {name : String} {key : LimitKey} (h : ofName? name = some key) :
    key.name = name := by
  simpa using List.find?_some h

theorem name_injective : Function.Injective name := by
  intro key key' h
  have := congrArg ofName? h
  simpa using this

theorem ofName?_eq_none {name : String} (h : ∀ key : LimitKey, name ≠ key.name) :
    ofName? name = none := by
  by_contra hsome
  obtain ⟨key, hkey⟩ := Option.ne_none_iff_exists'.mp hsome
  exact h key (name_eq_of_ofName? hkey).symm

/-- A name is the name of a limit or of none. -/
theorem known_or_unknown (name : String) :
    (∃ key : LimitKey, name = key.name) ∨ ∀ key : LimitKey, name ≠ key.name :=
  (Classical.em _).imp_right fun h key heq ↦ h ⟨key, heq⟩

end LimitKey

/-! ### Values that are wanted -/

/-- The text writes a number of 64 bits in decimal digits. -/
def WritesNumber (n : Nat) (text : List Char) : Prop :=
  n < UInt64.size ∧ text = Nat.toDigits 10 n

/-- The text writes a string in quotes, in any spelling. -/
def WritesString (s : String) (text : List Char) : Prop :=
  ∃ body, Spelling s.toList body ∧ text = '"' :: (body ++ ['"'])

/-- The text writes the value that the options give to a limit. -/
def LimitOptions.Writes (o : LimitOptions) : LimitKey → List Char → Prop
  | .timeout, text => ∃ n ∈ o.timeout, WritesNumber n text
  | .maxSteps, text => ∃ n ∈ o.maxSteps, WritesNumber n text
  | .maxMemory, text => ∃ n ∈ o.maxMemory, WritesNumber n text
  | .userInput, text => ∃ s ∈ o.userInput, WritesString s text

/-- The options of which some are taken from others. -/
def LimitOptions.overlay (o : LimitOptions) (keys : List LimitKey) (o₀ : LimitOptions) :
    LimitOptions where
  timeout := if .timeout ∈ keys then o.timeout else o₀.timeout
  maxSteps := if .maxSteps ∈ keys then o.maxSteps else o₀.maxSteps
  maxMemory := if .maxMemory ∈ keys then o.maxMemory else o₀.maxMemory
  userInput := if .userInput ∈ keys then o.userInput else o₀.userInput

namespace LimitOptions

variable {o o₀ : LimitOptions} {key : LimitKey} {keys : List LimitKey}

@[simp] theorem overlay_nil (o o₀ : LimitOptions) : o.overlay [] o₀ = o₀ := rfl

theorem overlay_append (o o₀ : LimitOptions) (keys keys' : List LimitKey) :
    o.overlay (keys ++ keys') o₀ = o.overlay keys' (o.overlay keys o₀) := by
  simp only [overlay, List.mem_append, mk.injEq]
  refine ⟨?_, ?_, ?_, ?_⟩ <;> split_ifs <;> tauto

/-- Options of which everything is taken are the others. -/
theorem overlay_of_forall (h : ∀ key, o.has key = true → key ∈ keys) : o.overlay keys {} = o := by
  have htimeout := h .timeout
  have hmaxSteps := h .maxSteps
  have hmaxMemory := h .maxMemory
  have huserInput := h .userInput
  obtain ⟨timeout, maxSteps, maxMemory, userInput⟩ := o
  simp only [has, Option.isSome_iff_ne_none] at htimeout hmaxSteps hmaxMemory huserInput
  simp only [overlay, mk.injEq, ite_eq_left_iff]
  tauto

theorem has_overlay (o o₀ : LimitOptions) (keys : List LimitKey) (key : LimitKey) :
    (o.overlay keys o₀).has key = if key ∈ keys then o.has key else o₀.has key := by
  cases key <;> simp only [has, overlay] <;> split <;> rfl

end LimitOptions

namespace Limits

variable {o o₀ : LimitOptions} {key : LimitKey} {blanks text rest : List Char}

/-- What was read and the text behind it, or that it is not what is wanted. -/
def answer {α : Type} (value : Option α) (rest : List Char) : Except ReadError (α × List Char) :=
  match value with
  | some a => .ok (a, rest)
  | none => .error .unsuitable

/-- A finite number without sign is read where it is a natural one. -/
theorem readNumber_append {n : Numeral} (hblanks : Blank blanks) (h : NumberText n text)
    (hnegative : n.negative = false) (hfinite : n.isFinite = true) (hrest : Stops rest) :
    readNumber (blanks ++ (text ++ rest)) = answer n.natural? rest := by
  have hread := Numeral.read_append h hfinite hrest
  obtain ⟨d, ds, rfl, hd⟩ := Numeral.exists_digit_cons h
  rw [hnegative, List.cons_append] at hread
  rw [readNumber, List.cons_append, next?_blank_cons hblanks (isBlank_of_isDigit hd)]
  dsimp only
  rw [if_pos hd, hread]
  dsimp only
  cases n.natural? <;> rfl

/-- A string is read as the characters that are meant. -/
theorem readString_append {s body : List Char} (hblanks : Blank blanks) (h : Spelling s body)
    (rest : List Char) :
    readString (blanks ++ ('"' :: (body ++ ['"']) ++ rest)) = .ok (String.ofList s, rest) := by
  have hnext : next? (blanks ++ '"' :: (body ++ '"' :: rest)) = some ('"', body ++ '"' :: rest) :=
    next?_blank_cons hblanks (by decide) _
  rw [List.cons_append, List.append_assoc, List.singleton_append]
  simp [readString, hnext, string_spelling h rest]

/-- The value of a limit fills in its option. -/
theorem readOption_writes (hblanks : Blank blanks) (h : o.Writes key text) (hrest : Stops rest) :
    readOption o₀ key (blanks ++ (text ++ rest)) = .ok (o.overlay [key] o₀, rest) := by
  cases key with
  | timeout | maxSteps | maxMemory =>
    obtain ⟨n, hn, hsize, rfl⟩ := h
    rw [readOption, readNumber_append hblanks (Numeral.numberText_toDigits n) rfl
      (Numeral.isFinite_toDigits hsize) hrest, Numeral.natural?_toDigits hsize]
    simp [answer, Except.map, LimitOptions.overlay, Option.mem_def.mp hn]
  | userInput =>
    obtain ⟨s, hs, body, hbody, rfl⟩ := h
    rw [readOption, readString_append hblanks hbody]
    simp [Except.map, LimitOptions.overlay, Option.mem_def.mp hs]

/-! ### Values of any kind -/

/-- A value that can be read: its numbers are finite, and the characters of its strings are known. Inside of brackets
nothing is asked. -/
inductive Readable : List Char → Prop
  | word {text : List Char} : text ∈ words → Readable text
  | number {n : Numeral} {text : List Char} :
    NumberText n text → n.isFinite = true → Readable (n.sign ++ text)
  | string {s body : List Char} : Spelling s body → Readable ('"' :: (body ++ ['"']))
  | bracket {frame : Frame} {text : List Char} :
    Written .value (frame.opening :: text) → Readable (frame.opening :: text)

namespace Readable

theorem written {value : List Char} (h : Readable value) : Written .value value := by
  cases h with
  | word hword => exact .word hword
  | number hnumber => exact .number hnumber
  | string hbody => exact .string hbody.stringBody
  | bracket hvalue => exact hvalue

end Readable

/-- What the first character of a value tells: with a digit begins a number without sign, with a quote a string, and
where it is not the character that is wanted the value is refused. -/
structure Begins (c : Char) (tail : List Char) : Prop where
  notBlank : isBlank c = false
  number : c.isDigit = true →
    ∃ n : Numeral, n.negative = false ∧ NumberText n (c :: tail) ∧ n.isFinite = true
  string : c = '"' → ∃ s body, Spelling s body ∧ tail = body ++ ['"']
  refused : ∀ rest, Stops rest → mismatch c (tail ++ rest) = .unsuitable

theorem mismatch_digit {c : Char} (h : c.isDigit = true) (rest : List Char) :
    mismatch c rest = mismatch.judge (Numeral.read false (c :: rest)) := by
  unfold mismatch
  split
  case h_8 => exact if_pos h
  all_goals simp at h

theorem Readable.exists_begins {value : List Char} (h : Readable value) :
    ∃ c tail, value = c :: tail ∧ Begins c tail := by
  cases h with
  | word hword =>
    simp only [words, List.mem_cons, List.not_mem_nil, or_false] at hword
    rcases hword with rfl | rfl | rfl <;>
      exact ⟨_, _, rfl, by decide, by simp, by simp, fun rest _ ↦ by
        simp [mismatch, mismatch.judge, literal]⟩
  | @number n text hnumber hfinite =>
    have hread (rest : List Char) (hrest : Stops rest) :=
      Numeral.read_append hnumber hfinite hrest
    rw [Numeral.sign]
    split
    · next hnegative =>
      refine ⟨'-', text, rfl, by decide, by simp, by simp, fun rest hrest ↦ ?_⟩
      have hread := hread rest hrest
      rw [hnegative] at hread
      simp [mismatch, mismatch.judge, hread]
    · next hnegative =>
      obtain ⟨d, ds, rfl, hd⟩ := Numeral.exists_digit_cons hnumber
      refine ⟨d, ds, rfl, isBlank_of_isDigit hd,
        fun _ ↦ ⟨n, eq_false_of_ne_true hnegative, hnumber, hfinite⟩, ?_, fun rest hrest ↦ ?_⟩
      · rintro rfl
        simp at hd
      · have hread := hread rest hrest
        rw [eq_false_of_ne_true hnegative, List.cons_append] at hread
        rw [mismatch_digit hd, hread]
        rfl
  | @string s body hbody =>
    refine ⟨'"', body ++ ['"'], rfl, by decide, by simp, fun _ ↦ ⟨s, body, hbody, rfl⟩,
      fun rest _ ↦ ?_⟩
    simp [mismatch, mismatch.judge, string_spelling hbody]
  | @bracket frame text =>
    refine ⟨frame.opening, text, rfl, isBlank_opening frame, ?_, ?_, fun _ _ ↦ ?_⟩ <;>
      cases frame <;> first | rfl | simp [Frame.opening]

/-- Where a number is wanted, any value is read or refused. -/
theorem readNumber_readable {value : List Char} (h : Readable value) :
    ∃ n, ∀ blanks rest, Blank blanks → Stops rest →
      readNumber (blanks ++ (value ++ rest)) = answer n rest := by
  obtain ⟨c, tail, rfl, hbegins⟩ := h.exists_begins
  by_cases hc : c.isDigit = true
  · obtain ⟨n, hnegative, hnumber, hfinite⟩ := hbegins.number hc
    exact ⟨n.natural?, fun blanks rest hblanks hrest ↦
      readNumber_append hblanks hnumber hnegative hfinite hrest⟩
  · refine ⟨none, fun blanks rest hblanks hrest ↦ ?_⟩
    rw [readNumber, List.cons_append, next?_blank_cons hblanks hbegins.notBlank]
    dsimp only
    rw [if_neg hc, hbegins.refused rest hrest]
    rfl

/-- Where a string is wanted, any value is read or refused. -/
theorem readString_readable {value : List Char} (h : Readable value) :
    ∃ s, ∀ blanks rest, Blank blanks → Stops rest →
      readString (blanks ++ (value ++ rest)) = answer s rest := by
  obtain ⟨c, tail, rfl, hbegins⟩ := h.exists_begins
  by_cases hc : c = '"'
  · obtain ⟨s, body, hbody, rfl⟩ := hbegins.string hc
    obtain rfl := hc
    exact ⟨some (String.ofList s), fun blanks rest hblanks _ ↦ readString_append hblanks hbody rest⟩
  · refine ⟨none, fun blanks rest hblanks hrest ↦ ?_⟩
    have hnext := next?_blank_cons hblanks hbegins.notBlank (tail ++ rest)
    rw [List.cons_append]
    simp [readString, hnext, hbegins.refused rest hrest, answer]

/-- Nothing that was given is lost, and this limit is given now. -/
def Gains (o₀ : LimitOptions) (key : LimitKey) (o₁ : LimitOptions) : Prop :=
  o₁.has key = true ∧ ∀ key', o₀.has key' = true → o₁.has key' = true

/-- The value of a limit is read into its option or refused. -/
theorem readOption_readable {value : List Char} (h : Readable value) (o₀ : LimitOptions)
    (key : LimitKey) :
    ∃ o₁ : Option LimitOptions, (∀ o₂ ∈ o₁, Gains o₀ key o₂) ∧
      ∀ blanks rest, Blank blanks → Stops rest →
        readOption o₀ key (blanks ++ (value ++ rest)) = answer o₁ rest := by
  obtain ⟨n, hn⟩ := readNumber_readable h
  obtain ⟨s, hs⟩ := readString_readable h
  -- The fields that are not read into are those of `o₀`, by cases on the limit that is looked at.
  have gains {o₁ : LimitOptions} (hkey : o₁.has key = true)
      (hothers : ∀ key', key' ≠ key → o₁.has key' = o₀.has key') : Gains o₀ key o₁ := by
    refine ⟨hkey, fun key' hkey' ↦ ?_⟩
    by_cases heq : key' = key
    · rwa [heq]
    · rwa [hothers key' heq]
  cases key with
  | timeout | maxSteps | maxMemory =>
    cases n with
    | none =>
      exact ⟨none, nofun, fun blanks rest hblanks hrest ↦ by
        rw [readOption, hn blanks rest hblanks hrest]; rfl⟩
    | some n =>
      refine ⟨some _, ?_, fun blanks rest hblanks hrest ↦
        congrArg (Except.map _) (hn blanks rest hblanks hrest)⟩
      rintro _ ⟨⟩
      exact gains rfl fun key' hne ↦ by cases key' <;> trivial
  | userInput =>
    cases s with
    | none =>
      exact ⟨none, nofun, fun blanks rest hblanks hrest ↦ by
        rw [readOption, hs blanks rest hblanks hrest]; rfl⟩
    | some s =>
      refine ⟨some _, ?_, fun blanks rest hblanks hrest ↦
        congrArg (Except.map _) (hs blanks rest hblanks hrest)⟩
      rintro _ ⟨⟩
      exact gains rfl fun key' hne ↦ by cases key' <;> trivial

/-- What the options give to a limit can be read. -/
theorem readable_writes {value : List Char} (h : o.Writes key value) : Readable value := by
  cases key with
  | timeout | maxSteps | maxMemory =>
    obtain ⟨n, -, hsize, rfl⟩ := h
    exact .number (Numeral.numberText_toDigits n) (Numeral.isFinite_toDigits hsize)
  | userInput =>
    obtain ⟨s, -, body, hbody, rfl⟩ := h
    exact .string hbody

end Limits

end TapeLang
