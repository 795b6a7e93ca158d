/-
Readers on inputs that stop too early.

A reader is prompt when the fault of a short input is the only result that more bytes
can change (`Reader.Prompt`). The two basic readers are, and so is what is put together
from prompt readers. A prompt reader that takes the whole of some bytes answers any
shorter piece of them with that one fault (`Prompt.cut`).

What the basic readers return stood at the front of the input (`exact_eq_ok`,
`number_eq_ok`).
-/
import MerkleBuffer.Reader

namespace MerkleBuffer

namespace Reader

variable {ε α β : Type} {short : ε}

/-- A reader that, unless it ran out of input, does on a longer input what it did
before, and leaves alone the bytes that were added. -/
def Prompt (short : ε) (m : Reader ε α) : Prop :=
  ∀ input more, m input ≠ .error short → m (input ++ more) = (m input).map fun x => (x.1, x.2 ++ more)

theorem Prompt.pure (a : α) : Prompt short (pure a) := fun _ _ _ => rfl

theorem Prompt.throw (e : ε) : Prompt short (throw e : Reader ε α) := fun _ _ _ => rfl

theorem bind_eq_error {m : Reader ε α} {f : α → Reader ε β} {input : Bytes} {e : ε} (h : m input = .error e) :
    (m >>= f) input = .error e := by
  simp only [bind, StateT.bind, Except.bind, h]

theorem Prompt.bind {m : Reader ε α} {f : α → Reader ε β} (hm : Prompt short m) (hf : ∀ a, Prompt short (f a)) :
    Prompt short (m >>= f) := by
  intro input more hshort
  cases hread : m input with
  | error e =>
    have he : m input ≠ .error short := fun h => hshort (bind_eq_error h)
    have hlonger : m (input ++ more) = .error e := by rw [hm input more he, hread]; rfl
    rw [bind_eq_error hlonger, bind_eq_error hread]
    rfl
  | ok x =>
    have hlonger : m (input ++ more) = .ok (x.1, x.2 ++ more) := by
      rw [hm input more (by simp [hread]), hread]
      rfl
    rw [bind_apply hread] at hshort
    rw [bind_apply hread, bind_apply hlonger]
    exact hf x.1 x.2 more hshort

theorem Prompt.exact (n : Nat) : Prompt short (exact short n) := by
  intro input more hshort
  have hn : n ≤ input.length := Nat.le_of_not_lt fun hlt => hshort (exact_eq_error short hlt)
  have htaken : (input.take n).length = n := List.length_take_of_le hn
  unfold Reader.exact
  dsimp only
  rw [List.take_append_of_le_length hn, List.drop_append_of_le_length hn, if_pos htaken, if_pos htaken]
  rfl

theorem Prompt.number (width : Nat) : Prompt short (number short width) :=
  (Prompt.exact width).bind fun _ => .pure _

/-- What is taken whole cannot be taken from a part of it. -/
theorem Prompt.cut {m : Reader ε α} (hm : Prompt short m) {bytes part : Bytes} {a : α} (h : m bytes = .ok (a, []))
    (hpart : part <+: bytes) (hne : part ≠ bytes) : m part = .error short := by
  obtain ⟨more, rfl⟩ := hpart
  refine Classical.byContradiction fun hshort => ?_
  rw [hm part more hshort] at h
  cases hread : m part with
  | error e =>
    rw [hread] at h
    cases h
  | ok x =>
    rw [hread] at h
    have hrest : x.2 ++ more = [] := congrArg Prod.snd (Except.ok.inj h)
    obtain ⟨-, rfl⟩ := List.append_eq_nil_iff.1 hrest
    exact hne (List.append_nil part).symm

/-! ## What was read -/

theorem bind_eq_ok {m : Reader ε α} {f : α → Reader ε β} {input rest : Bytes} {b : β}
    (h : (m >>= f) input = .ok (b, rest)) : ∃ a mid, m input = .ok (a, mid) ∧ f a mid = .ok (b, rest) := by
  simp only [bind, StateT.bind, Except.bind] at h
  split at h
  · cases h
  · next x hm => exact ⟨x.1, x.2, hm, h⟩

section Taken

variable {short : ε} {n width : Nat} {input bytes rest : Bytes}

theorem exact_eq_ok (h : exact short n input = .ok (bytes, rest)) : bytes.length = n ∧ input = bytes ++ rest := by
  unfold exact at h
  dsimp only at h
  split at h
  · next hlength =>
    obtain ⟨rfl, rfl⟩ := Prod.mk.inj (Except.ok.inj h)
    exact ⟨hlength, (List.take_append_drop n input).symm⟩
  · cases h

theorem number_eq_ok (h : number short width input = .ok (n, rest)) : input = LittleEndian.encode width n ++ rest := by
  obtain ⟨bytes, mid, hbytes, hpure⟩ := bind_eq_ok h
  obtain ⟨rfl, rfl⟩ := Prod.mk.inj (Except.ok.inj hpure)
  obtain ⟨rfl, rfl⟩ := exact_eq_ok hbytes
  rw [LittleEndian.encode_decode]

theorem number_lt (h : number short width input = .ok (n, rest)) : n < LittleEndian.capacity width := by
  obtain ⟨bytes, mid, hbytes, hpure⟩ := bind_eq_ok h
  obtain ⟨rfl, rfl⟩ := Prod.mk.inj (Except.ok.inj hpure)
  obtain ⟨rfl, -⟩ := exact_eq_ok hbytes
  exact LittleEndian.decode_lt bytes

end Taken

end Reader

end MerkleBuffer
