/-
Byte strings and the two fixed readings of them that the store uses: numbers
written least significant byte first in a fixed width, and text in UTF-8. Sizes
of several strings are added up by `total`.

`LittleEndian.decode_encode` and `LittleEndian.encode_decode`: a number that
fits its width reads back, and a byte string is the encoding of its own value.
-/

namespace MerkleBuffer

/-- A string of bytes: a key, a value, an encoding or the contents of a file. -/
abbrev Bytes := List UInt8

/-- The sum of some sizes. -/
def total : List Nat → Nat
  | [] => 0
  | n :: rest => n + total rest

@[simp] theorem total_nil : total [] = 0 := rfl

@[simp] theorem total_cons (n : Nat) (rest : List Nat) : total (n :: rest) = n + total rest := rfl

@[simp] theorem total_append (a b : List Nat) : total (a ++ b) = total a + total b := by
  induction a with
  | nil => simp
  | cons n rest ih => simp [ih, Nat.add_assoc]

namespace LittleEndian

/-- How many numbers can be written in `width` bytes. -/
def capacity : Nat → Nat
  | 0 => 1
  | width + 1 => 256 * capacity width

/-- The low `width` bytes of a number, least significant first. -/
def encode : Nat → Nat → Bytes
  | 0, _ => []
  | width + 1, n => UInt8.ofNat n :: encode width (n / 256)

/-- The number a byte string stands for, least significant byte first. -/
def decode : Bytes → Nat
  | [] => 0
  | b :: rest => b.toNat + 256 * decode rest

@[simp] theorem length_encode (width n : Nat) : (encode width n).length = width := by
  induction width generalizing n with
  | zero => rfl
  | succ width ih => simp [encode, ih]

theorem decode_lt (bytes : Bytes) : decode bytes < capacity bytes.length := by
  induction bytes with
  | nil => decide
  | cons b rest ih =>
    have hb := b.toNat_lt
    simp only [decode, List.length_cons, capacity]
    omega

theorem decode_encode (width n : Nat) (h : n < capacity width) : decode (encode width n) = n := by
  induction width generalizing n with
  | zero => simp [capacity] at h; simp [encode, decode, h]
  | succ width ih =>
    have hq : n / 256 < capacity width := by
      rw [capacity] at h
      omega
    simp only [encode, decode, ih _ hq, UInt8.toNat_ofNat']
    omega

theorem encode_decode (bytes : Bytes) : encode bytes.length (decode bytes) = bytes := by
  induction bytes with
  | nil => rfl
  | cons b rest ih =>
    have hb := b.toNat_lt
    have hq : (b.toNat + 256 * decode rest) / 256 = decode rest := by omega
    have hr : UInt8.ofNat (b.toNat + 256 * decode rest) = b := by
      apply UInt8.toNat_inj.1
      rw [UInt8.toNat_ofNat']
      omega
    simp only [List.length_cons, encode, decode, hq, hr, ih]

end LittleEndian

/-- A byte string with `data` written over it from `offset` on. It grows as far
as needed; a gap before `offset` is filled with zeros. -/
def overwrite (bytes : Bytes) (offset : Nat) (data : Bytes) : Bytes :=
  match data with
  | [] => bytes
  | data =>
    bytes.take offset ++ List.replicate (offset - bytes.length) 0 ++ data
      ++ bytes.drop (offset + data.length)

theorem overwrite_length (bytes data : Bytes) : overwrite bytes bytes.length data = bytes ++ data := by
  cases data <;> simp [overwrite]

/-- The UTF-8 bytes of a text. -/
def utf8 (text : String) : Bytes :=
  text.toUTF8.data.toList

/-- The text that a byte string holds in UTF-8, if it holds one. -/
def ofUtf8? (bytes : Bytes) : Option String :=
  String.fromUTF8? (ByteArray.mk bytes.toArray)

end MerkleBuffer
