/-
The tokens of JSON texts: blanks, words, strings and numbers.

A reader takes the rest of a text and returns what it read and what is left. One
that fails says how much of the text was left at the place of its fault. Strings
and numbers are read in two ways: for their value, and only to get past them,
which asks less of them.
-/
import MerkleBuffer.Hex
import MerkleBuffer.Json.Fault

namespace MerkleBuffer

/-- A fault, and the rest of the text behind its place. -/
structure JsonStop where
  reason : JsonReason
  rest : Bytes
deriving DecidableEq, Repr

/-- A reader of a part of a JSON text. -/
abbrev JsonReader (α : Type) := Bytes → Except JsonStop (α × Bytes)

namespace JsonReader

/-- A fault in front of the rest of the text. -/
def stop {α : Type} (reason : JsonReason) (rest : Bytes) : Except JsonStop α := .error ⟨reason, rest⟩

/-- A fault of the next byte, if there is one. -/
def stopAt {α : Type} (reason : JsonReason) (rest : Bytes) : Except JsonStop α := stop reason rest.tail

def isBlank (b : UInt8) : Bool :=
  b == Ascii.space || b == Ascii.newline || b == Ascii.tab || b == Ascii.carriageReturn

/-- The text behind any blanks. -/
def skipBlanks (input : Bytes) : Bytes := input.dropWhile isBlank

/-- Get past the given bytes. -/
def skipWord : Bytes → Bytes → Except JsonStop Bytes
  | [], input => .ok input
  | _ :: _, [] => stop .endInValue []
  | w :: word, b :: input => if b = w then skipWord word input else stop .expectedIdent input

/-! ## Strings -/

/-- What a short escape stands for. -/
def shortEscape? (b : UInt8) : Option UInt8 :=
  if b = Ascii.quote ∨ b = Ascii.backslash ∨ b = Ascii.ofChar '/' then some b
  else if b = Ascii.ofChar 'b' then some 8
  else if b = Ascii.ofChar 'f' then some 12
  else if b = Ascii.ofChar 'n' then some 10
  else if b = Ascii.ofChar 'r' then some 13
  else if b = Ascii.ofChar 't' then some 9
  else none

/-- The number that four hexadecimal digits stand for. -/
def hexNumber? (a b c d : UInt8) : Option Nat := do
  let digits := [← Hex.value? a, ← Hex.value? b, ← Hex.value? c, ← Hex.value? d]
  return digits.foldl (fun n x => 16 * n + x.toNat) 0

def isHighSurrogate (n : Nat) : Bool := 0xD800 ≤ n && n ≤ 0xDBFF
def isLowSurrogate (n : Nat) : Bool := 0xDC00 ≤ n && n ≤ 0xDFFF

/-- The character that two surrogates stand for. -/
def pairedChar (high low : Nat) : Char :=
  Char.ofNat ((high - 0xD800) * 0x400 + (low - 0xDC00) + 0x10000)

/-- What a string still has to give where `high`, a high surrogate, was read
last, or where nothing is open. -/
def readStringFrom (high : Option Nat) : JsonReader Bytes
  | [] => stop .endInString []
  | Ascii.backslash :: rest =>
    match rest with
    | [] => stop .endInString []
    | b :: rest =>
      if b = Ascii.ofChar 'u' then
        match rest with
        | h₁ :: h₂ :: h₃ :: h₄ :: rest =>
          match hexNumber? h₁ h₂ h₃ h₄, high with
          | none, _ => stop .badEscape rest
          | some n, some high =>
            if isLowSurrogate n then do
              let (text, rest) ← readStringFrom none rest
              return (utf8 (pairedChar high n).toString ++ text, rest)
            else stop .loneSurrogate rest
          | some n, none =>
            if isLowSurrogate n then stop .loneSurrogate rest
            else if isHighSurrogate n then readStringFrom (some n) rest
            else do
              let (text, rest) ← readStringFrom none rest
              return (utf8 (Char.ofNat n).toString ++ text, rest)
        | _ => stop .endInString []
      else if high.isSome then stop .endInHexEscape rest
      else
        match shortEscape? b with
        | none => stop .badEscape rest
        | some c => do
          let (text, rest) ← readStringFrom none rest
          return (c :: text, rest)
  | b :: rest =>
    if high.isSome then stop .endInHexEscape rest
    else if b = Ascii.quote then .ok ([], rest)
    else if b < 32 then stop .controlCharacter rest
    else do
      let (text, rest) ← readStringFrom none rest
      return (b :: text, rest)

/-- The UTF-8 bytes of a string, behind its opening quote. -/
def readString : JsonReader Bytes := readStringFrom none

/-- Get past a string, behind its opening quote. Surrogates need not be paired. -/
def skipString : Bytes → Except JsonStop Bytes
  | [] => stop .endInString []
  | Ascii.backslash :: rest =>
    match rest with
    | [] => stop .endInString []
    | b :: rest =>
      if b = Ascii.ofChar 'u' then
        match rest with
        | h₁ :: h₂ :: h₃ :: h₄ :: rest =>
          if (hexNumber? h₁ h₂ h₃ h₄).isSome then skipString rest else stop .badEscape rest
        | _ => stop .endInString []
      else if (shortEscape? b).isSome then skipString rest
      else stop .badEscape rest
  | b :: rest =>
    if b = Ascii.quote then .ok rest
    else if b < 32 then stop .controlCharacter (b :: rest)
    else skipString rest

end JsonReader

end MerkleBuffer
