import TapeLang.Codec.Tokens
import TapeLang.Binary64

/-!
# Packing texts

Packing replaces grams by their tokens, from left to right and the longest gram
first; unpacking puts the gram in the place of every token. Characters that
belong to no gram, and characters that are no token, stay as they are.
-/

namespace TapeLang.Codec

/-- The token of the gram of length `n` in front of a text, with the length. A shorter text has none. -/
def tokenOfFront? (text : List Char) (n : Nat) : Option (Char × Nat) :=
  let front := text.take n
  if front.length = n then (token? front).map (·, n) else none

/-- The token of the longest gram in front of a text, with the length of the gram. -/
def longestToken? (text : List Char) : Option (Char × Nat) :=
  gramLengths.reverse.findSome? (tokenOfFront? text)

/-- Replace words of a text from left to right: `front` gives the replacement of the word in front of a text and
the word's length. -/
def packWith (front : List Char → Option (Char × Nat)) : List Char → List Char
  | [] => []
  | c :: rest =>
    match front (c :: rest) with
    | some (token, n) => token :: packWith front (rest.drop (n - 1))
    | none => c :: packWith front rest
termination_by text => text.length
decreasing_by all_goals (simp only [List.length_cons, List.length_drop]; omega)

/-- Replace grams by tokens, the longest gram first. -/
def compress (text : List Char) : List Char := packWith longestToken? text

/-- Replace tokens by grams. -/
def decompress (text : List Char) : List Char :=
  text.flatMap fun c ↦ (gram? c).getD [c]

/-- The length of the packed text divided by the length of the text, zero for an empty text. -/
def compressionRatio (text : List Char) : Binary64 :=
  .ofQuotient (compress text).length text.length

end TapeLang.Codec
