/-
JSON values and their two written forms: `compact` without blanks, and `pretty`
with a member or an item to a line, indented by two spaces.

Members are written in the order in which the value holds them; `Json.record`
orders them by name.
-/
import MerkleBuffer.Bytes

namespace MerkleBuffer

/-- The JSON values that are written: all numbers are natural. -/
inductive Json where
  | null
  | bool (value : Bool)
  | number (value : Nat)
  | string (text : String)
  | array (items : List Json)
  | object (members : List (String × Json))

namespace Json

/-- Put a member at its place in a list ordered by name. -/
def insertMember (member : String × Json) : List (String × Json) → List (String × Json)
  | [] => [member]
  | m :: rest => if member.1 < m.1 then member :: m :: rest else m :: insertMember member rest

/-- An object with its members in the order of their names. -/
def record (members : List (String × Json)) : Json :=
  object (members.foldr insertMember [])

/-- The four digits of a character code below 2^16. -/
def codeDigits (n : Nat) : List Char :=
  [n / 4096, n / 256 % 16, n / 16 % 16, n % 16].map Nat.digitChar

/-- A character inside quotes: the quote, the backslash and the control
characters are escaped, all others stand for themselves. -/
def escapeChar (c : Char) : List Char :=
  match c with
  | '"' => ['\\', '"']
  | '\\' => ['\\', '\\']
  | '\n' => ['\\', 'n']
  | '\r' => ['\\', 'r']
  | '\t' => ['\\', 't']
  | c =>
    if c.toNat = 8 then ['\\', 'b']
    else if c.toNat = 12 then ['\\', 'f']
    else if c.toNat < 32 then '\\' :: 'u' :: codeDigits c.toNat
    else [c]

/-- A text in quotes. -/
def quote (text : String) : String :=
  "\"" ++ String.ofList (text.toList.flatMap escapeChar) ++ "\""

mutual

/-- A value without blanks. -/
def compact : Json → String
  | null => "null"
  | bool value => if value then "true" else "false"
  | number value => toString value
  | string text => quote text
  | array items => "[" ++ compactItems items ++ "]"
  | object members => "\x7b" ++ compactMembers members ++ "\x7d"

/-- Items separated by commas. -/
def compactItems : List Json → String
  | [] => ""
  | [item] => compact item
  | item :: rest => compact item ++ "," ++ compactItems rest

/-- Members separated by commas. -/
def compactMembers : List (String × Json) → String
  | [] => ""
  | [(name, value)] => quote name ++ ":" ++ compact value
  | (name, value) :: rest => quote name ++ ":" ++ compact value ++ "," ++ compactMembers rest

end

/-- A new line at an indentation of `depth` steps. -/
def newline (depth : Nat) : String :=
  "\n" ++ String.ofList (List.replicate (2 * depth) ' ')

mutual

/-- A value with its items and members on lines of their own, one step deeper
than the value. -/
def prettyAt (depth : Nat) : Json → String
  | null => "null"
  | bool value => if value then "true" else "false"
  | number value => toString value
  | string text => quote text
  | array [] => "[]"
  | array (item :: rest) => "[" ++ prettyItems (depth + 1) (item :: rest) ++ newline depth ++ "]"
  | object [] => "\x7b\x7d"
  | object (member :: rest) =>
    "\x7b" ++ prettyMembers (depth + 1) (member :: rest) ++ newline depth ++ "\x7d"

/-- Each item on a line, a comma after all but the last. -/
def prettyItems (depth : Nat) : List Json → String
  | [] => ""
  | [item] => newline depth ++ prettyAt depth item
  | item :: rest => newline depth ++ prettyAt depth item ++ "," ++ prettyItems depth rest

/-- Each member on a line, a comma after all but the last. -/
def prettyMembers (depth : Nat) : List (String × Json) → String
  | [] => ""
  | [(name, value)] => newline depth ++ quote name ++ ": " ++ prettyAt depth value
  | (name, value) :: rest =>
    newline depth ++ quote name ++ ": " ++ prettyAt depth value ++ "," ++ prettyMembers depth rest

end

/-- A value with a member or an item to a line. -/
def pretty (value : Json) : String := prettyAt 0 value

end Json

end MerkleBuffer
