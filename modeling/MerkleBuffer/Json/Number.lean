/-
Numbers in JSON texts.

A number that is wanted is read for its value: a natural number below 2^64, a
negative one of at least -2^63, or a double, for which digits that do not fit 64
bits are left out. A number that is not wanted only has to be well formed.
-/
import MerkleBuffer.Json.Token

namespace MerkleBuffer

/-- The value of a number. -/
inductive JsonNumber where
  | natural (value : Nat)
  | negative (value : Int)
  | floating (negative : Bool) (value : Binary64)
deriving DecidableEq, Repr

def JsonNumber.found : JsonNumber → JsonFound
  | natural value => .integer value
  | negative value => .integer value
  | floating sign value => .floating sign value

namespace JsonReader

open Ascii (isDigit digitValue)

/-- Add digits to a number while it stays below `bound`; the digits that were
not added are returned with it. -/
def accumulate (bound : Nat) : Nat → Bytes → Nat × Bytes
  | n, [] => (n, [])
  | n, d :: digits =>
    if 10 * n + digitValue d < bound then accumulate bound (10 * n + digitValue d) digits
    else (n, d :: digits)

/-- Exponents from here on are too large for any double. -/
def exponentBound : Nat := UInt32.size / 2

def isExponentMark (b : UInt8) : Bool := b == Ascii.ofChar 'e' || b == Ascii.ofChar 'E'

/-- The sign of an exponent, and the text behind it. -/
def exponentSign : Bytes → Bool × Bytes
  | Ascii.plus :: rest => (false, rest)
  | Ascii.minus :: rest => (true, rest)
  | rest => (false, rest)

/-- The double `significand * 10^exponent`. -/
def readDouble (negative : Bool) (significand : Nat) (exponent : Int) : JsonReader JsonNumber :=
  fun input =>
    match Binary64.ofScientific? significand exponent with
    | some value => .ok (.floating negative value, input)
    | none => stop .numberOutOfRange input

/-- The exponent of a double, behind its mark. -/
def readExponent (negative : Bool) (significand : Nat) (exponent : Int) : JsonReader JsonNumber :=
  fun input =>
    let (down, input) := exponentSign input
    match input with
    | [] => stop .endInValue []
    | b :: rest =>
      if !isDigit b then stop .badNumber rest
      else
        let digits := input.takeWhile isDigit
        let rest := input.dropWhile isDigit
        match accumulate exponentBound 0 digits with
        | (n, []) => readDouble negative significand (if down then exponent - n else exponent + n) rest
        | (_, _ :: left) =>
          if significand ≠ 0 ∧ !down then stop .numberOutOfRange (left ++ rest)
          else .ok (.floating negative Binary64.zero, rest)

/-- What follows the digits of a double: an exponent, or nothing of it. -/
def readScale (negative : Bool) (significand : Nat) (exponent : Int) : JsonReader JsonNumber
  | [] => readDouble negative significand exponent []
  | b :: rest =>
    if isExponentMark b then readExponent negative significand exponent rest
    else readDouble negative significand exponent (b :: rest)

/-- The digits of a double behind its point. -/
def readFraction (negative : Bool) (significand : Nat) (exponent : Int) : JsonReader JsonNumber :=
  fun input =>
    let digits := input.takeWhile isDigit
    let rest := input.dropWhile isDigit
    if digits.isEmpty then stopAt (if rest.isEmpty then .endInValue else .badNumber) rest
    else
      let (significand, left) := accumulate UInt64.size significand digits
      readScale negative significand (exponent - (digits.length - left.length : Nat)) rest

/-- A number without point and exponent. Zero below zero is a double, and so is
a number that 64 bits do not hold. -/
def JsonNumber.ofDigits (negative : Bool) (value : Nat) : JsonReader JsonNumber :=
  fun input =>
    if !negative then .ok (.natural value, input)
    else if value = 0 ∨ UInt64.size / 2 < value then readDouble true value 0 input
    else .ok (.negative (-value), input)

/-- A number behind its sign. -/
def readNumber (negative : Bool) : JsonReader JsonNumber
  | [] => stop .endInValue []
  | b :: rest =>
    if !isDigit b then stop .badNumber rest
    else
      let digits := b :: rest.takeWhile isDigit
      let rest := rest.dropWhile isDigit
      if b = Ascii.zero ∧ 1 < digits.length then stop .badNumber (digits.drop 2 ++ rest)
      else
        let (significand, left) := accumulate UInt64.size 0 digits
        match rest with
        | Ascii.point :: rest => readFraction negative significand left.length rest
        | b :: after =>
          if isExponentMark b then readExponent negative significand left.length after
          else if left.isEmpty then JsonNumber.ofDigits negative significand rest
          else readDouble negative significand left.length rest
        | [] =>
          if left.isEmpty then JsonNumber.ofDigits negative significand []
          else readDouble negative significand left.length []

/-! ## Numbers that are not wanted -/

/-- Get past the digits of an exponent, behind its mark. -/
def skipExponent (input : Bytes) : Except JsonStop Bytes :=
  match (exponentSign input).2 with
  | [] => stop .badNumber []
  | b :: rest => if isDigit b then .ok (rest.dropWhile isDigit) else stop .badNumber rest

/-- Get past an exponent, if there is one. -/
def skipScale : Bytes → Except JsonStop Bytes
  | [] => .ok []
  | b :: rest => if isExponentMark b then skipExponent rest else .ok (b :: rest)

/-- Get past the part of a number behind its leading digits. -/
def skipFraction : Bytes → Except JsonStop Bytes
  | Ascii.point :: rest =>
    if (rest.takeWhile isDigit).isEmpty then stopAt .badNumber rest
    else skipScale (rest.dropWhile isDigit)
  | rest => skipScale rest

/-- Get past a number, behind its sign. -/
def skipNumber : Bytes → Except JsonStop Bytes
  | [] => stop .badNumber []
  | b :: rest =>
    if !isDigit b then stop .badNumber rest
    else if b = Ascii.zero then
      match rest with
      | [] => .ok []
      | d :: after => if isDigit d then stop .badNumber after else skipFraction (d :: after)
    else skipFraction (rest.dropWhile isDigit)

end JsonReader

end MerkleBuffer
