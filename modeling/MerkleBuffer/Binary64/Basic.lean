/-
Finite doubles without a sign, counted in units of 2^-1074.

Every such double is a whole number of these units with at most 53 significant
binary digits. Products and quotients are computed exactly and then rounded to
the nearest double, a tie to the even one; there is none beyond 2^1024.
-/
import MerkleBuffer.Rounding

namespace MerkleBuffer

/-- A double of at least zero, as a number of units. -/
structure Binary64 where
  units : Nat
deriving DecidableEq, Repr

namespace Binary64

/-- The number of units in one. -/
def one : Nat := 1 <<< 1074

/-- The significant binary digits of a double. -/
def precision : Nat := 53

/-- The units between a double and the next one. -/
def step (units : Nat) : Nat := 1 <<< (units.log2 + 1 - precision)

def zero : Binary64 := ⟨0⟩

instance : Inhabited Binary64 := ⟨zero⟩

/-- The double nearest to `num / den`, if it is below 2^1024. -/
def ofRatio? (num den : Nat) : Option Binary64 :=
  let scaled := num * one
  let unit := step (scaled / den)
  let units := roundQuotient scaled (den * unit) * unit
  if units < one <<< 1024 then some ⟨units⟩ else none

def mul? (a b : Binary64) : Option Binary64 := ofRatio? (a.units * b.units) (one * one)

def div? (a b : Binary64) : Option Binary64 := ofRatio? a.units b.units

/-- The double nearest to a number. -/
def ofNat? (n : Nat) : Option Binary64 := ofRatio? n 1

/-- The largest power of ten that a double comes near to. -/
def maxPower : Nat := 308

/-- The double nearest to a power of ten. -/
def power? (exponent : Nat) : Option Binary64 :=
  if exponent ≤ maxPower then ofNat? (Nat.pow 10 exponent) else none

/-- A double divided by a power of ten, in at most `steps` steps of 10^308 and
a last one below it. Three such steps bring every double down to zero. -/
def shrink? : Nat → Binary64 → Nat → Option Binary64
  | 0, _, _ => some zero
  | steps + 1, x, exponent =>
    match power? exponent with
    | some p => x.div? p
    | none => do shrink? steps (← x.div? (← power? maxPower)) (exponent - maxPower)

/-- The double that `significand * 10^exponent` is read as, if there is one. The
significand, the power of ten and the result are each rounded once. -/
def ofScientific? (significand : Nat) (exponent : Int) : Option Binary64 :=
  match ofNat? significand with
  | none => none
  | some x =>
    match exponent with
    | .ofNat e =>
      match power? e with
      | some p => x.mul? p
      | none => if x = zero then some zero else none
    | .negSucc e => shrink? 4 x (e + 1)

end Binary64

end MerkleBuffer
