/-
Counters of bytes and the way they are shown.

A `ByteSize` is a number of bytes below 2^64. Sums stop at the largest value and
differences stop at zero, so a counter never wraps. It is shown in binary units
with two places: the count is first taken to the nearest number of 53
significant bits, and the quotient by the unit is then rounded to hundredths.
Both roundings take an exact half to the even neighbour.
-/
import MerkleBuffer.Rounding

namespace MerkleBuffer

/-- A number of bytes below 2^64. -/
structure ByteSize where
  bytes : Nat
  lt_max : bytes < UInt64.size
deriving DecidableEq

namespace ByteSize

/-- A number of bytes, the largest counter if it is out of range. -/
def ofNat (n : Nat) : ByteSize :=
  if h : n < UInt64.size then ⟨n, h⟩ else ⟨UInt64.size - 1, by decide⟩

def zero : ByteSize := ⟨0, by decide⟩

instance : Inhabited ByteSize := ⟨zero⟩

/-- Sums stop at the largest counter. -/
instance : Add ByteSize := ⟨fun a b => ofNat (a.bytes + b.bytes)⟩

/-- Differences stop at zero. -/
instance : Sub ByteSize := ⟨fun a b => ⟨a.bytes - b.bytes, by have := a.lt_max; omega⟩⟩

instance : LE ByteSize := ⟨fun a b => a.bytes ≤ b.bytes⟩
instance : LT ByteSize := ⟨fun a b => a.bytes < b.bytes⟩
instance (a b : ByteSize) : Decidable (a ≤ b) := inferInstanceAs (Decidable (a.bytes ≤ b.bytes))
instance (a b : ByteSize) : Decidable (a < b) := inferInstanceAs (Decidable (a.bytes < b.bytes))
instance : Ord ByteSize := ⟨fun a b => compare a.bytes b.bytes⟩

@[ext] theorem ext {a b : ByteSize} (h : a.bytes = b.bytes) : a = b := by
  cases a; cases b; simp_all

theorem le_def {a b : ByteSize} : a ≤ b ↔ a.bytes ≤ b.bytes := Iff.rfl
theorem lt_def {a b : ByteSize} : a < b ↔ a.bytes < b.bytes := Iff.rfl

@[simp] theorem bytes_zero : zero.bytes = 0 := rfl

theorem bytes_ofNat (n : Nat) : (ofNat n).bytes = min n (UInt64.size - 1) := by
  unfold ofNat
  split
  · have h : n < UInt64.size := by assumption
    show n = min n (UInt64.size - 1)
    omega
  · have h : ¬ n < UInt64.size := by assumption
    show UInt64.size - 1 = min n (UInt64.size - 1)
    omega

theorem bytes_ofNat_of_lt {n : Nat} (h : n < UInt64.size) : (ofNat n).bytes = n := by
  rw [bytes_ofNat]; omega

theorem bytes_add (a b : ByteSize) : (a + b).bytes = min (a.bytes + b.bytes) (UInt64.size - 1) :=
  bytes_ofNat _

@[simp] theorem bytes_sub (a b : ByteSize) : (a - b).bytes = a.bytes - b.bytes := rfl

/-- The units above single bytes, each 1024 times the one before. -/
def units : List String := ["KiB", "MiB", "GiB", "TiB"]

/-- The unit a size of `n` bytes is shown in, with its size in bytes: the
largest unit that `n` reaches, starting from the unit `name` of size `unit`. -/
def unitFor (n : Nat) (name : String) (unit : Nat) : List String → String × Nat
  | [] => (name, unit)
  | next :: rest => if 1024 * unit ≤ n then unitFor n next (1024 * unit) rest else (name, unit)

/-- A number of hundredths with a point in front of the last two digits. -/
def showHundredths (n : Nat) : String :=
  let places := n % 100
  s!"{n / 100}.{places / 10}{places % 10}"

/-- A size in the largest unit it reaches. -/
def display (s : ByteSize) : String :=
  if s.bytes < 1024 then s!"{s.bytes} B"
  else
    let n := roundSignificant 53 s.bytes
    let (name, unit) := unitFor n "KiB" 1024 (units.drop 1)
    s!"{showHundredths (roundQuotient (100 * n) unit)} {name}"

instance : ToString ByteSize := ⟨display⟩

/-- A size as it is shown for inspection. -/
def inspect (s : ByteSize) : String := s!"StorageSize({s.bytes})"

end ByteSize

end MerkleBuffer
