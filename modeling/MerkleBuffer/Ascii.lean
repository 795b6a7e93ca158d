/-
The bytes of the punctuation and the digits that texts are read by.
-/
import MerkleBuffer.Bytes

namespace MerkleBuffer.Ascii

@[match_pattern] def tab : UInt8 := 9
@[match_pattern] def newline : UInt8 := 10
@[match_pattern] def carriageReturn : UInt8 := 13
@[match_pattern] def space : UInt8 := 32
@[match_pattern] def quote : UInt8 := 34
@[match_pattern] def plus : UInt8 := 43
@[match_pattern] def comma : UInt8 := 44
@[match_pattern] def minus : UInt8 := 45
@[match_pattern] def point : UInt8 := 46
@[match_pattern] def zero : UInt8 := 48
@[match_pattern] def colon : UInt8 := 58
@[match_pattern] def openBracket : UInt8 := 91
@[match_pattern] def backslash : UInt8 := 92
@[match_pattern] def closeBracket : UInt8 := 93
@[match_pattern] def openBrace : UInt8 := 123
@[match_pattern] def closeBrace : UInt8 := 125

/-- The byte of a letter. -/
def ofChar (c : Char) : UInt8 := c.toNat.toUInt8

def isDigit (b : UInt8) : Bool := 48 ≤ b && b ≤ 57

/-- The value of a decimal digit. -/
def digitValue (b : UInt8) : Nat := b.toNat - 48

end MerkleBuffer.Ascii
