/-
Rounding to nearest, an exact half to the even neighbour.
-/

namespace MerkleBuffer

/-- A quotient rounded to the nearest whole number, a half to the even neighbour. -/
def roundQuotient (num den : Nat) : Nat :=
  let q := num / den
  match compare (2 * (num % den)) den with
  | .lt => q
  | .gt => q + 1
  | .eq => if q % 2 = 0 then q else q + 1

/-- The nearest number whose binary form has at most `bits` significant digits. -/
def roundSignificant (bits n : Nat) : Nat :=
  if n < 1 <<< bits then n
  else
    let unit := 1 <<< (n.log2 + 1 - bits)
    roundQuotient n unit * unit

end MerkleBuffer
