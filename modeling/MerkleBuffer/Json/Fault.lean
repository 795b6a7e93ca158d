/-
What can be wrong with a JSON text, and where.

A fault belongs to one of three classes: the text ended early, it is malformed,
or it is well formed and holds the wrong data. The place of a fault is a line,
counted from one, and the number of bytes read on that line.
-/
import MerkleBuffer.Ascii
import MerkleBuffer.Binary64.Decimal
import MerkleBuffer.Text.Quoted

namespace MerkleBuffer

/-- A place in a text. -/
structure Position where
  line : Nat
  column : Nat
deriving DecidableEq, Repr

/-- The place behind what has been read of a text. -/
def Position.behind (read : Bytes) : Position where
  line := read.count Ascii.newline + 1
  column := (read.reverse.takeWhile (· != Ascii.newline)).length

/-- A value that is not of the kind that was wanted. -/
inductive JsonFound where
  | null
  | bool (value : Bool)
  | integer (value : Int)
  | floating (negative : Bool) (value : Binary64)
  | string (text : String)
  | list
  | object
deriving DecidableEq, Repr

/-- How such a value is described. -/
def JsonFound.message : JsonFound → String
  | null => "null"
  | bool value => s!"boolean `{value}`"
  | integer value => s!"integer `{value}`"
  | floating negative value =>
    let sign := if negative then "-" else ""
    s!"floating point `{sign}{value.display}`"
  | string text => s!"string {quoteText text}"
  | list => "sequence"
  | object => "map"

/-- The reason a JSON text is refused. -/
inductive JsonReason where
  | endInValue
  | endInList
  | endInObject
  | endInString
  | expectedColon
  | expectedCommaOrBracket
  | expectedCommaOrBrace
  | expectedIdent
  | expectedValue
  | badEscape
  | badNumber
  | numberOutOfRange
  | controlCharacter
  | keyNotString
  | loneSurrogate
  | endInHexEscape
  | trailingComma
  | trailingCharacters
  | duplicateField (name : String)
  | wrongKind (found : JsonFound) (wanted : String)
  | wrongValue (found : JsonFound) (wanted : String)
deriving DecidableEq, Repr

/-- The class of a fault. -/
inductive JsonCategory where
  | eof
  | malformed
  | data
deriving DecidableEq, Repr

/-- A fault of a JSON text. -/
structure JsonFault where
  reason : JsonReason
  position : Position
deriving DecidableEq, Repr

namespace JsonReason

def category : JsonReason → JsonCategory
  | endInValue | endInList | endInObject | endInString => .eof
  | duplicateField _ | wrongKind _ _ | wrongValue _ _ => .data
  | _ => .malformed

/-- The wording of a reason. -/
def message : JsonReason → String
  | endInValue => "EOF while parsing a value"
  | endInList => "EOF while parsing a list"
  | endInObject => "EOF while parsing an object"
  | endInString => "EOF while parsing a string"
  | expectedColon => "expected `:`"
  | expectedCommaOrBracket => "expected `,` or `]`"
  | expectedCommaOrBrace => "expected `,` or `\x7d`"
  | expectedIdent => "expected ident"
  | expectedValue => "expected value"
  | badEscape => "invalid escape"
  | badNumber => "invalid number"
  | numberOutOfRange => "number out of range"
  | controlCharacter => "control character (\\u0000-\\u001F) found while parsing a string"
  | keyNotString => "key must be a string"
  | loneSurrogate => "lone leading surrogate in hex escape"
  | endInHexEscape => "unexpected end of hex escape"
  | trailingComma => "trailing comma"
  | trailingCharacters => "trailing characters"
  | duplicateField name => s!"duplicate field `{name}`"
  | wrongKind found wanted => s!"invalid type: {found.message}, expected {wanted}"
  | wrongValue found wanted => s!"invalid value: {found.message}, expected {wanted}"

end JsonReason

namespace JsonFault

def category (f : JsonFault) : JsonCategory := f.reason.category

/-- A fault with its place. -/
def message (f : JsonFault) : String :=
  s!"{f.reason.message} at line {f.position.line} column {f.position.column}"

end JsonFault

end MerkleBuffer
