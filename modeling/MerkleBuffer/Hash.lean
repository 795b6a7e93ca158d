/-
The hash of a node: the 32-byte digest of its encoding, which is also the key
it is stored under.

The zero hash is the digest of nothing that is ever staged. It names the
meta-root, the one parent of all pinned roots.
-/
import MerkleBuffer.Blake3
import MerkleBuffer.Hex
import Std.Data.ExtTreeMap

namespace MerkleBuffer

/-- A digest of 32 bytes. -/
structure Hash where
  bytes : Bytes
  length_bytes : bytes.length = 32
deriving DecidableEq

namespace Hash

/-- Bytes in a hash. -/
def size : Nat := 32

/-- The name of the meta-root. -/
def zero : Hash := ⟨List.replicate 32 0, rfl⟩

def isZero (h : Hash) : Bool := h == zero

/-- The hash of a byte string. -/
def digest (data : Bytes) : Hash := ⟨Blake3.digest data, Blake3.length_digest data⟩

/-- A store key read as a hash: `none` unless it has 32 bytes. -/
def ofBytes? (bytes : Bytes) : Option Hash :=
  if h : bytes.length = 32 then some ⟨bytes, h⟩ else none

/-- The 64 digits of a hash. -/
def toHex (h : Hash) : String := Hex.encode h.bytes

/-- The first eight digits, enough to tell nodes apart at a glance. -/
def short (h : Hash) : String := Hex.encode (h.bytes.take 4)

/-- A text without the marker that may stand in front of the digits. -/
def dropMarker : Bytes → Bytes
  | 48 :: 120 :: rest => rest
  | text => text

/-- Read 64 hexadecimal digits, with or without a leading marker. -/
def ofHex (text : String) : Except HexError Hash :=
  match Hex.decode (dropMarker (utf8 text)) with
  | .error e => .error e
  | .ok bytes =>
    match ofBytes? bytes with
    | some h => .ok h
    | none => .error .wrongLength

instance : Inhabited Hash := ⟨zero⟩

/-- Hashes are ordered as byte strings. -/
instance : Ord Hash := ⟨fun a b => compare a.bytes b.bytes⟩

instance : Repr Hash := ⟨fun h _ => h.toHex⟩

/-- A hash as it is shown for inspection. -/
def inspect (h : Hash) : String :=
  if h.isZero then "Hash(meta-root)" else s!"Hash({h.short})"

@[ext] theorem ext {a b : Hash} (h : a.bytes = b.bytes) : a = b := by
  cases a; cases b; simp_all

instance : Std.TransOrd Hash where
  eq_swap {a b} := (inferInstance : Std.TransOrd Bytes).eq_swap (a := a.bytes) (b := b.bytes)
  isLE_trans {a b c} h k :=
    (inferInstance : Std.TransOrd Bytes).isLE_trans (a := a.bytes) (b := b.bytes) (c := c.bytes) h k

instance : Std.LawfulEqOrd Hash where
  compare_self {a} := (inferInstance : Std.LawfulEqOrd Bytes).compare_self (a := a.bytes)
  eq_of_compare {a b} h :=
    ext ((inferInstance : Std.LawfulEqOrd Bytes).eq_of_compare (a := a.bytes) (b := b.bytes) h)

@[simp] theorem ofBytes?_bytes (h : Hash) : ofBytes? h.bytes = some h := by
  simp [ofBytes?, h.length_bytes]

theorem ofBytes?_eq_some {bytes : Bytes} {h : Hash} : ofBytes? bytes = some h ↔ h.bytes = bytes := by
  unfold ofBytes?
  split
  · rename_i hl
    constructor
    · rintro ⟨⟩; rfl
    · intro he; subst he; rfl
  · rename_i hl
    constructor
    · intro he; cases he
    · intro he; exact absurd (he ▸ h.length_bytes) hl

end Hash

end MerkleBuffer
