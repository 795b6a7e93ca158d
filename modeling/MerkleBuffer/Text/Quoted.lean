/-
Texts in quotes, as they are shown in messages: the quote, the backslash and
every character that does not print is escaped.
-/
import MerkleBuffer.Text.Unprintable

namespace MerkleBuffer

/-- A character by its code, in hexadecimal digits between braces. -/
def escapeCode (c : Char) : List Char :=
  '\\' :: 'u' :: '\x7b' :: Nat.toDigits 16 c.toNat ++ ['\x7d']

/-- A character inside quotes. -/
def quoteChar (c : Char) : List Char :=
  match c with
  | '\x00' => ['\\', '0']
  | '\t' => ['\\', 't']
  | '\n' => ['\\', 'n']
  | '\r' => ['\\', 'r']
  | '"' => ['\\', '"']
  | '\\' => ['\\', '\\']
  | c => if isUnprintable c then escapeCode c else [c]

/-- A text in quotes. -/
def quoteText (text : String) : String :=
  "\"" ++ String.ofList (text.toList.flatMap quoteChar) ++ "\""

end MerkleBuffer
