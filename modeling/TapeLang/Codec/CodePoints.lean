/-!
# Token characters

The characters that may stand for grams, in increasing order: the printable
part of a list of blocks of code points, from basic Latin to Hangul syllables.
-/

namespace TapeLang.Codec

/-- The blocks the token characters are drawn from, first and last code point of each. -/
def codePointBlocks : List (Nat × Nat) :=
  [
    (32, 126), (160, 255), (256, 383), (384, 591), (592, 687), (688, 767), (880, 1023),
    (1024, 1279), (1280, 1327), (1328, 1423), (1424, 1535), (1536, 1791), (1792, 1871),
    (1920, 1983), (2304, 2431), (2432, 2559), (2560, 2687), (2688, 2815), (2816, 2943),
    (2944, 3071), (3072, 3199), (3200, 3327), (3328, 3455), (3456, 3583), (3584, 3711),
    (3712, 3839), (3840, 4095), (4096, 4255), (4256, 4351), (4352, 4607), (4608, 4991),
    (5024, 5119), (5120, 5759), (5760, 5791), (5792, 5887), (5888, 5919), (5920, 5951),
    (5952, 5983), (5984, 6015), (6016, 6143), (6144, 6319), (7680, 7935), (7936, 8191),
    (8192, 8303), (8352, 8399), (8448, 8527), (8528, 8591), (8592, 8703), (8704, 8959),
    (9472, 9599), (9600, 9631), (9632, 9727), (9728, 9983), (9984, 10175), (12352, 12447),
    (12448, 12543), (12544, 12591), (12592, 12687), (19968, 20991), (44032, 45055)
  ]

def codePointsOf (block : Nat × Nat) : List Nat := List.range' block.1 (block.2 + 1 - block.1)

/-- Every token character, in order. -/
def tokenChars : List Char := (codePointBlocks.flatMap codePointsOf).map Char.ofNat

end TapeLang.Codec
