/-!
# Writing JSON

JSON texts with one element a line, indented by two blanks for each bracket
around it. A layout is a text that still depends on the depth it is written at.
-/

namespace TapeLang.Json

/-- A JSON text that depends on the number of brackets around it. -/
def Layout := Nat → String

/-- The lower case hexadecimal digit of a number below 16. -/
def hexDigit (n : Nat) : Char := Nat.digitChar n

/-- A character inside a string. Quotes, backslashes and control characters are escaped, everything else is
written as it is. -/
def quoteChar (c : Char) : String :=
  match c with
  | '"' => "\\\""
  | '\\' => "\\\\"
  | '\x08' => "\\b"
  | '\x0c' => "\\f"
  | '\n' => "\\n"
  | '\r' => "\\r"
  | '\t' => "\\t"
  | _ =>
    if c.toNat < 0x20 then
      "\\u00" ++ String.ofList [hexDigit (c.toNat / 16), hexDigit (c.toNat % 16)]
    else c.toString

/-- A string in quotes. -/
def quote (text : String) : String :=
  "\"" ++ String.join (text.toList.map quoteChar) ++ "\""

namespace Layout

/-- The blanks in front of a line. -/
def indent (depth : Nat) : String := String.ofList (List.replicate (2 * depth) ' ')

/-- A text that is the same at every depth. -/
def plain (text : String) : Layout := fun _ ↦ text

def null : Layout := plain "null"

def bool (b : Bool) : Layout := plain (if b then "true" else "false")

def number (n : Nat) : Layout := plain (toString n)

def string (text : String) : Layout := plain (quote text)

/-- Lines between two brackets; without lines the brackets stand together. -/
def bracketed (opening closing : String) (lines : List Layout) : Layout := fun depth ↦
  match lines with
  | [] => opening ++ closing
  | _ =>
    opening ++ "\n" ++
      ",\n".intercalate (lines.map fun line ↦ indent (depth + 1) ++ line (depth + 1)) ++
      "\n" ++ indent depth ++ closing

def array (elements : List Layout) : Layout := bracketed "[" "]" elements

def object (members : List (String × Layout)) : Layout :=
  bracketed "\x7b" "\x7d" (members.map fun (name, value) depth ↦ quote name ++ ": " ++ value depth)

end Layout

end TapeLang.Json
