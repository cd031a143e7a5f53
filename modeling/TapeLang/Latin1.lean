/-!
# Characters as bytes

A byte is the character of the same number. A character becomes a byte by
keeping the low eight bits of its number, so bytes survive the way through text
(`encode_decode`).
-/

namespace TapeLang.Latin1

/-- The low eight bits of each character. -/
def encode (text : String) : List UInt8 := text.toList.map Char.toUInt8

/-- One character below U+0100 for each byte. -/
def decode (bytes : List UInt8) : String := String.ofList (bytes.map Char.ofUInt8)

/-- A byte is the low part of its own character. -/
@[simp] theorem toUInt8_ofUInt8 (b : UInt8) : (Char.ofUInt8 b).toUInt8 = b := by
  show b.toUInt32.toUInt8 = b
  exact UInt8.toUInt8_toUInt32 b

/-- The character of a byte has the byte's number. -/
theorem toNat_ofUInt8 (b : UInt8) : (Char.ofUInt8 b).toNat = b.toNat := UInt8.toNat_toUInt32 b

/-- Bytes survive the way through text. -/
@[simp] theorem encode_decode (bytes : List UInt8) : encode (decode bytes) = bytes := by
  simp [encode, decode, Function.comp_def]

/-- There is one byte for each character. -/
theorem length_encode (text : String) : (encode text).length = text.length := by
  simp [encode, ← String.length_toList]

/-- There is one character for each byte. -/
theorem length_decode (bytes : List UInt8) : (decode bytes).length = bytes.length := by
  simp [decode]

end TapeLang.Latin1
