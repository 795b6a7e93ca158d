/-
Reading a byte string from the front.

A reader takes what it reads off the input, or stops with the first fault. The
two readers that all others are made of need a fault for an input that is too
short.
-/
import MerkleBuffer.Bytes

namespace MerkleBuffer

/-- A reader with faults of type `ε`: its state is the input that is left. -/
abbrev Reader (ε : Type) := StateT Bytes (Except ε)

namespace Reader

variable {ε : Type}

/-- Exactly `n` bytes, or the fault `short`. -/
def exact (short : ε) (n : Nat) : Reader ε Bytes := fun input =>
  let taken := input.take n
  if taken.length = n then .ok (taken, input.drop n) else .error short

/-- A number in a fixed width, least significant byte first. -/
def number (short : ε) (width : Nat) : Reader ε Nat := do
  return LittleEndian.decode (← exact short width)

theorem exact_append (short : ε) (bytes rest : Bytes) :
    exact short bytes.length (bytes ++ rest) = .ok (bytes, rest) := by
  simp [exact]

theorem exact_eq_error (short : ε) {n : Nat} {input : Bytes} (h : input.length < n) :
    exact short n input = .error short := by
  have hne : ¬ (input.take n).length = n := by simp only [List.length_take]; omega
  exact if_neg hne

theorem pure_apply {α : Type} (a : α) (input : Bytes) : (pure a : Reader ε α) input = .ok (a, input) := rfl

theorem bind_apply {α β : Type} {m : Reader ε α} {f : α → Reader ε β} {input rest : Bytes} {a : α}
    (h : m input = .ok (a, rest)) : (m >>= f) input = f a rest := by
  simp only [bind, StateT.bind, Except.bind, h]

theorem number_encode_append (short : ε) {width n : Nat} (h : n < LittleEndian.capacity width) (rest : Bytes) :
    number short width (LittleEndian.encode width n ++ rest) = .ok (n, rest) := by
  have hx := exact_append short (LittleEndian.encode width n) rest
  rw [LittleEndian.length_encode] at hx
  unfold number
  rw [bind_apply hx, pure_apply, LittleEndian.decode_encode width n h]

end Reader

end MerkleBuffer
