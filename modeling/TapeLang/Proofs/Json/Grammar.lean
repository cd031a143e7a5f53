import TapeLang.Json.Skip
import Mathlib.Data.List.Basic

/-!
# The grammar of JSON

What a JSON text is, as a grammar and without regard to a reader. A string has
two notions here. `StringBody` is what the grammar allows between the quotes,
where an escape may be half of a surrogate pair that stands alone; `Spelling`
says in addition which characters are meant, and allows no such half.
-/

namespace TapeLang.Json

/-- Only characters that may stand between the parts of a text. -/
def Blank (text : List Char) : Prop := ∀ c ∈ text, c ∈ [' ', '\t', '\n', '\r']

/-! ### Strings -/

/-- The character writes a hexadecimal digit, with a small or a large letter. -/
def HexDigit (n : Nat) (c : Char) : Prop := n < 16 ∧ (c = n.digitChar ∨ c = n.digitChar.toUpper)

/-- Four hexadecimal digits that write a number. -/
inductive HexQuad : Nat → List Char → Prop
  | intro {a b c d : Nat} {w x y z : Char} :
    HexDigit a w → HexDigit b x → HexDigit c y → HexDigit d z →
      HexQuad (a * 0x1000 + b * 0x100 + c * 0x10 + d) [w, x, y, z]

/-- The characters that may stand behind a backslash, each with the one it stands for. -/
def shortEscapes : List (Char × Char) :=
  [('"', '"'), ('\\', '\\'), ('/', '/'), ('b', '\x08'), ('f', '\x0c'), ('n', '\n'), ('r', '\r'),
    ('t', '\t')]

def Unescaped (c : Char) : Prop := 0x20 ≤ c.toNat ∧ c ≠ '"' ∧ c ≠ '\\'

instance : DecidablePred Unescaped := fun _ ↦ inferInstanceAs (Decidable (_ ∧ _ ∧ _))

/-- What may stand between the quotes of a string. -/
inductive StringBody : List Char → Prop
  | nil : StringBody []
  | plain {c : Char} {rest : List Char} :
    Unescaped c → StringBody rest → StringBody (c :: rest)
  | short {letter c : Char} {rest : List Char} :
    (letter, c) ∈ shortEscapes → StringBody rest → StringBody ('\\' :: letter :: rest)
  | unit {n : Nat} {quad rest : List Char} :
    HexQuad n quad → StringBody rest → StringBody ('\\' :: 'u' :: (quad ++ rest))

/-- What may stand between the quotes of a string that means the given characters. A character outside of the basic
plane may be written as the two halves of its surrogate pair. -/
inductive Spelling : List Char → List Char → Prop
  | nil : Spelling [] []
  | plain {c : Char} {s rest : List Char} :
    Unescaped c → Spelling s rest → Spelling (c :: s) (c :: rest)
  | short {letter c : Char} {s rest : List Char} :
    (letter, c) ∈ shortEscapes → Spelling s rest → Spelling (c :: s) ('\\' :: letter :: rest)
  | unit {c : Char} {quad s rest : List Char} :
    HexQuad c.toNat quad → Spelling s rest → Spelling (c :: s) ('\\' :: 'u' :: (quad ++ rest))
  | pair {c : Char} {high low : Nat} {quad quad' s rest : List Char} :
    HexQuad high quad → HexQuad low quad' →
      0xD800 ≤ high → high ≤ 0xDBFF → 0xDC00 ≤ low → low ≤ 0xDFFF →
        c.toNat = 0x10000 + (high - 0xD800) * 0x400 + (low - 0xDC00) → Spelling s rest →
          Spelling (c :: s) ('\\' :: 'u' :: (quad ++ '\\' :: 'u' :: (quad' ++ rest)))

/-! ### Numbers -/

def Digits (text : List Char) : Prop := text ≠ [] ∧ ∀ c ∈ text, c.isDigit

/-- The part of a number behind its integer: a point with digits, or nothing. -/
inductive FractionText : Option (List Char) → List Char → Prop
  | absent : FractionText none []
  | present {ds : List Char} : Digits ds → FractionText (some ds) ('.' :: ds)

/-- The exponent of a number, or nothing. -/
inductive ExponentText : Option Int → List Char → Prop
  | absent : ExponentText none []
  | positive {letter : Char} {sign ds : List Char} :
    letter ∈ ['e', 'E'] → sign ∈ [[], ['+']] → Digits ds →
      ExponentText (some (Nat.ofDigitChars 10 ds 0)) (letter :: (sign ++ ds))
  | negative {letter : Char} {ds : List Char} :
    letter ∈ ['e', 'E'] → Digits ds →
      ExponentText (some (-(Nat.ofDigitChars 10 ds 0))) (letter :: '-' :: ds)

/-- What stands behind the sign of a number: an integer without a zero in front, a fraction and an exponent. -/
inductive NumberText : Numeral → List Char → Prop
  | intro (negative : Bool) {integer fraction exponent : List Char} {f : Option (List Char)}
    {e : Option Int} :
    Digits integer → (integer.head? = some '0' → integer = ['0']) → FractionText f fraction →
      ExponentText e exponent →
        NumberText ⟨negative, integer, f, e⟩ (integer ++ (fraction ++ exponent))

def Numeral.sign (n : Numeral) : List Char := if n.negative then ['-'] else []

/-! ### Values -/

def Frame.opening : Frame → Char
  | list => '['
  | object => '\x7b'

/-- What stands in front of the value of an item: a name and a colon in an object, nothing in a list. -/
inductive Heading : Frame → List Char → Prop
  | list : Heading .list []
  | object {body blanks : List Char} :
    StringBody body → Blank blanks → Heading .object ('"' :: (body ++ '"' :: (blanks ++ [':'])))

/-- The parts a value is made of. -/
inductive Part where
  | value
  | item (frame : Frame)
  /-- The items between two brackets, at least one. -/
  | items (frame : Frame)

/-- The fixed words. -/
def words : List (List Char) :=
  [['n', 'u', 'l', 'l'], ['t', 'r', 'u', 'e'], ['f', 'a', 'l', 's', 'e']]

/-- The texts of each part. -/
inductive Written : Part → List Char → Prop
  | word {text : List Char} : text ∈ words → Written .value text
  | number {n : Numeral} {text : List Char} :
    NumberText n text → Written .value (n.sign ++ text)
  | string {body : List Char} : StringBody body → Written .value ('"' :: (body ++ ['"']))
  | empty (frame : Frame) {blanks : List Char} :
    Blank blanks → Written .value (frame.opening :: (blanks ++ [frame.close]))
  | filled {frame : Frame} {text : List Char} :
    Written (.items frame) text → Written .value (frame.opening :: (text ++ [frame.close]))
  | item {frame : Frame} {before heading between value after : List Char} :
    Blank before → Heading frame heading → Blank between → Written .value value → Blank after →
      Written (.item frame) (before ++ (heading ++ (between ++ (value ++ after))))
  | last {frame : Frame} {text : List Char} :
    Written (.item frame) text → Written (.items frame) text
  | more {frame : Frame} {text rest : List Char} :
    Written (.item frame) text → Written (.items frame) rest →
      Written (.items frame) (text ++ ',' :: rest)

/-! ### Texts by their parts -/

/-- Parts with commas between them, at least one. -/
inductive Separated {α : Type} (P : α → List Char → Prop) : List α → List Char → Prop
  | last {a : α} {text : List Char} : P a text → Separated P [a] text
  | more {a : α} {as : List α} {text rest : List Char} :
    P a text → Separated P as rest → Separated P (a :: as) (text ++ ',' :: rest)

/-- A whole text that is a list or an object of the given parts. -/
inductive Enclosed {α : Type} (frame : Frame) (P : α → List Char → Prop) :
    List α → List Char → Prop
  | empty {before between after : List Char} :
    Blank before → Blank between → Blank after →
      Enclosed frame P [] (before ++ frame.opening :: (between ++ frame.close :: after))
  | filled {as : List α} {before text after : List Char} :
    Blank before → Separated P as text → Blank after →
      Enclosed frame P as (before ++ frame.opening :: (text ++ frame.close :: after))

/-- An element of a list, given by the text of its value. -/
inductive ElementText : List Char → List Char → Prop
  | intro {value before after : List Char} :
    Blank before → Blank after → ElementText value (before ++ (value ++ after))

/-- A member of an object, given by its name, which may be spelled in any way, and the text of its value. -/
inductive MemberText : String × List Char → List Char → Prop
  | intro {name : String} {value body before between between' after : List Char} :
    Blank before → Spelling name.toList body → Blank between → Blank between' → Blank after →
      MemberText (name, value)
        (before ++ '"' :: (body ++ '"' :: (between ++ ':' :: (between' ++ (value ++ after)))))

end TapeLang.Json
