import TapeLang.Codec.CodePoints
import TapeLang.Codec.Gram
import Std.Data.HashMap

/-!
# Tokens

Each gram has one token, a single character: the grams in their order are
paired with the token characters in theirs. Two maps hold the pairs, one from
the text of a gram to its token and one back.
-/

namespace TapeLang.Codec

/-- Characters are hashed by their number. -/
instance hashableChar : Hashable Char := instHashableChar

/-- The two maps between grams and tokens. -/
structure Tokens where
  /-- The token of each gram, under the gram's text. -/
  tokens : Std.HashMap (List Char) Char
  /-- The text of the gram each token stands for. -/
  grams : Std.HashMap Char (List Char)

/-- Each gram's text with its token. -/
def tokenPairs : List (List Char × Char) :=
  (grams.toList.map (·.map Instruction.symbol)).zip tokenChars

namespace Tokens

def ofPairs (pairs : List (List Char × Char)) : Tokens where
  tokens := Std.HashMap.ofList pairs
  grams := Std.HashMap.ofList (pairs.map Prod.swap)

end Tokens

/-- The maps between all grams and their tokens. -/
@[irreducible] def tokenMaps : Tokens := .ofPairs tokenPairs

/-- The number of grams that have a token. -/
def tokenCount : Nat := tokenMaps.tokens.size

def token? (gram : List Char) : Option Char := tokenMaps.tokens[gram]?

/-- The text of the gram a token stands for. -/
def gram? (token : Char) : Option (List Char) := tokenMaps.grams[token]?

end TapeLang.Codec
