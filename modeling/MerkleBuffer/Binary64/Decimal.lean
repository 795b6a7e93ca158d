/-
The decimal text of a double: the fewest digits that read back as this double,
and the nearest to it of those.

The reals that read back as a double reach half way to its neighbours, and the
ends are among them if its significand is even. For each number of digits, only
the two decimals next to the double can lie in this interval.
-/
import MerkleBuffer.Binary64.Basic

namespace MerkleBuffer.Binary64

/-- A decimal number, `digits * 10^exponent`. -/
structure Decimal where
  digits : Nat
  exponent : Int
deriving DecidableEq, Repr

namespace Decimal

/-- A decimal as a quotient of two numbers. -/
def ratio (d : Decimal) : Nat × Nat :=
  match d.exponent with
  | .ofNat e => (d.digits * Nat.pow 10 e, 1)
  | .negSucc e => (d.digits, Nat.pow 10 (e + 1))

/-- The same decimal without trailing zeros; `fuel` bounds their number. -/
def trim : Nat → Decimal → Decimal
  | 0, d => d
  | fuel + 1, d => if d.digits ≠ 0 ∧ d.digits % 10 = 0 then trim fuel ⟨d.digits / 10, d.exponent + 1⟩ else d

/-- The decimal in writing. The point stands among the digits, with zeros in
front or behind where they are needed, for numbers from 10^-5 up to below
10^16; other numbers have one digit in front of the point and an exponent, which
always has its sign. -/
def display (d : Decimal) : String :=
  let digits := Nat.toDigits 10 d.digits
  let point := (digits.length : Int) + d.exponent
  let zeros (n : Int) := List.replicate n.toNat '0'
  let text :=
    if 0 ≤ d.exponent ∧ point ≤ 16 then digits ++ zeros d.exponent ++ ['.', '0']
    else if 0 < point ∧ point ≤ 16 then digits.take point.toNat ++ '.' :: digits.drop point.toNat
    else if -5 < point ∧ point ≤ 0 then '0' :: '.' :: zeros (-point) ++ digits
    else
      let fraction := if digits.length = 1 then [] else '.' :: digits.drop 1
      let sign := if point ≤ 0 then '-' else '+'
      digits.take 1 ++ fraction ++ 'e' :: sign :: Nat.toDigits 10 (point - 1).natAbs
  String.ofList text

end Decimal

/-- Whether a decimal reads back as `x`. Distances are counted in quarters of a
unit, since the double below a power of two is only half a step away. -/
def readsBack (x : Binary64) (d : Decimal) : Bool :=
  let gap := step x.units
  let below := if x.units = 1 <<< x.units.log2 ∧ 1 < gap then gap else 2 * gap
  let (num, den) := d.ratio
  let found := 4 * num * one
  let low := (4 * x.units - below) * den
  let high := (4 * x.units + 2 * gap) * den
  if x.units / gap % 2 = 0 then low ≤ found && found ≤ high else low < found && found < high

/-- The exponent of the first decimal digit of a double above zero. -/
def leading (x : Binary64) : Int :=
  ((Nat.toDigits 10 (x.units * Nat.pow 10 324 / one)).length : Int) - 325

/-- Of the two decimals with `count` digits next to `x`, the nearest that reads
back as `x`. -/
def decimalOf? (x : Binary64) (count : Nat) : Option Decimal :=
  let exponent := x.leading - count + 1
  let (num, den) := (⟨1, exponent⟩ : Decimal).ratio
  let below := x.units * den / (one * num)
  let rest := x.units * den % (one * num)
  let lower : Decimal := ⟨below, exponent⟩
  let upper : Decimal := ⟨below + 1, exponent⟩
  match x.readsBack lower, x.readsBack upper with
  | true, false => some lower
  | false, true => some upper
  | false, false => none
  | true, true =>
    match compare (2 * rest) (one * num) with
    | .lt => some lower
    | .gt => some upper
    | .eq => some (if below % 2 = 0 then lower else upper)

/-- The decimal with the fewest digits that reads back as `x`; 17 digits always
suffice. -/
def shortest (x : Binary64) : Decimal :=
  if x.units = 0 then ⟨0, 0⟩
  else (((List.range 17).findSome? fun i => x.decimalOf? (i + 1)).getD ⟨0, 0⟩).trim 17

/-- The text of a double. -/
def display (x : Binary64) : String := x.shortest.display

end MerkleBuffer.Binary64
