/-
Byte strings written as hexadecimal digits.

Writing uses lower case. Reading takes either case and reports the first thing
that is wrong: an odd number of digits before any bad digit, and a bad digit by
its position. `decode_encodeBytes`: what was written reads back.
-/
import MerkleBuffer.Bytes

namespace MerkleBuffer

/-- What can be wrong with a text of hexadecimal digits. -/
inductive HexError where
  | oddLength
  | badDigit (byte : UInt8) (position : Nat)
  | wrongLength
deriving DecidableEq, Repr

namespace Hex

/-- The digit of a half byte. -/
def digit (n : UInt8) : Char :=
  if n < 10 then Char.ofNat (48 + n.toNat) else Char.ofNat (87 + n.toNat)

/-- The digits of a byte string, two for each byte, the high half first. -/
def digits (bytes : Bytes) : List Char :=
  bytes.flatMap fun b => [digit (b / 16), digit (b % 16)]

/-- A byte string in hexadecimal. -/
def encode (bytes : Bytes) : String :=
  String.ofList (digits bytes)

/-- The value of a digit, of either case, given as a byte of text. -/
def value? (b : UInt8) : Option UInt8 :=
  if 48 ≤ b ∧ b ≤ 57 then some (b - 48)
  else if 97 ≤ b ∧ b ≤ 102 then some (b - 87)
  else if 65 ≤ b ∧ b ≤ 70 then some (b - 55)
  else none

/-- Read pairs of digits, the first at `position`. -/
def decodePairs (position : Nat) : Bytes → Except HexError Bytes
  | hi :: lo :: rest =>
    match value? hi, value? lo with
    | none, _ => .error (.badDigit hi position)
    | some _, none => .error (.badDigit lo (position + 1))
    | some h, some l => (decodePairs (position + 2) rest).map ((16 * h + l) :: ·)
  | _ => .ok []

/-- Read a text, given by its UTF-8 bytes, as hexadecimal digits. -/
def decode (text : Bytes) : Except HexError Bytes :=
  if text.length % 2 = 0 then decodePairs 0 text else .error .oddLength

theorem forall_byte {p : UInt8 → Prop} (h : ∀ i : Fin 256, p (UInt8.ofNat i.val)) (b : UInt8) : p b := by
  have := h ⟨b.toNat, b.toNat_lt⟩
  simpa using this

theorem value?_digit (n : UInt8) : n < 16 → value? (UInt8.ofNat (digit n).toNat) = some n :=
  forall_byte (p := fun n => n < 16 → value? (UInt8.ofNat (digit n).toNat) = some n) (by decide +kernel) n

theorem halves (b : UInt8) : b / 16 < 16 ∧ b % 16 < 16 ∧ 16 * (b / 16) + b % 16 = b :=
  forall_byte (p := fun b => b / 16 < 16 ∧ b % 16 < 16 ∧ 16 * (b / 16) + b % 16 = b) (by decide +kernel) b

/-- The text of a byte string, as bytes: every digit is ASCII, so each is one byte. -/
def encodeBytes (bytes : Bytes) : Bytes :=
  (digits bytes).map fun c => UInt8.ofNat c.toNat

theorem decodePairs_encodeBytes (bytes : Bytes) (position : Nat) :
    decodePairs position (encodeBytes bytes) = .ok bytes := by
  induction bytes generalizing position with
  | nil => rfl
  | cons b rest ih =>
    obtain ⟨hhi, hlo, hb⟩ := halves b
    have step : encodeBytes (b :: rest) =
        UInt8.ofNat (digit (b / 16)).toNat :: UInt8.ofNat (digit (b % 16)).toNat :: encodeBytes rest := rfl
    rw [step, decodePairs, value?_digit _ hhi, value?_digit _ hlo]
    simp [ih, Except.map, hb]

theorem length_encodeBytes (bytes : Bytes) : (encodeBytes bytes).length = 2 * bytes.length := by
  induction bytes with
  | nil => rfl
  | cons b rest ih =>
    have step : encodeBytes (b :: rest) =
        UInt8.ofNat (digit (b / 16)).toNat :: UInt8.ofNat (digit (b % 16)).toNat :: encodeBytes rest := rfl
    rw [step]
    simp only [List.length_cons, ih]
    omega

theorem decode_encodeBytes (bytes : Bytes) : decode (encodeBytes bytes) = .ok bytes := by
  unfold decode
  rw [length_encodeBytes, if_pos (by omega)]
  exact decodePairs_encodeBytes bytes 0

end Hex

/-- A byte shown as a quoted character: the byte's own code point, with the
usual escapes for the quote, the backslash and what does not print. -/
def quoteByte (b : UInt8) : String :=
  let body :=
    if b = 0 then "\\0"
    else if b = 9 then "\\t"
    else if b = 10 then "\\n"
    else if b = 13 then "\\r"
    else if b = 39 then "\\'"
    else if b = 92 then "\\\\"
    else if b < 32 ∨ (127 ≤ b ∧ b ≤ 160) ∨ b = 173 then
      "\\u\x7b" ++ String.ofList ((Nat.toDigits 16 b.toNat)) ++ "\x7d"
    else String.ofList [Char.ofNat b.toNat]
  "'" ++ body ++ "'"

/-- The wording of each fault. -/
def HexError.message : HexError → String
  | .oddLength => "Odd number of digits"
  | .badDigit byte position => s!"Invalid character {quoteByte byte} at position {position}"
  | .wrongLength => "Invalid string length"

end MerkleBuffer
