/-
The canonical form of a trie node.

A node that was read from some bytes may be written back with others: bytes behind the
node are left alone, child slots are put in the order of their indices, and of several
slots for one index only the last is kept. Nothing else gets lost. Written back, a node
never takes more bytes than it was read from, it reads as the same node, and the bytes
are the same unless one of these three applies.
-/
import MerkleBuffer.Proofs.Trie.Spelling

namespace MerkleBuffer

namespace TrieNode

open Codec

variable {input : Bytes} {node : TrieNode}

theorem decode_encode_of_decode (h : decode input = .ok node) : decode node.encode = .ok node := by
  obtain ⟨spelling, rest, hwritable, -, rfl⟩ := decode_eq_ok.1 h
  have hread := decode_encode_append hwritable.node []
  rwa [List.append_nil] at hread

/-- The encoding is all of the input just if nothing follows the node and the indices
stand in order. -/
theorem encode_eq_iff {spelling : Spelling} {rest : Bytes} (hwritable : spelling.Writable) :
    spelling.node.encode = spelling.bytes ++ rest ↔ rest = [] ∧ spelling.indices.Pairwise (· < ·) := by
  constructor
  · intro h
    have hlength := spelling.length_encode_le
    rw [h, List.length_append] at hlength
    obtain rfl : rest = [] := List.length_eq_zero_iff.1 (by omega)
    rw [List.append_nil] at h
    exact ⟨rfl, (Spelling.bytes_eq_encode hwritable).1 h.symm⟩
  · rintro ⟨rfl, hascending⟩
    rw [List.append_nil]
    exact ((Spelling.bytes_eq_encode hwritable).2 hascending).symm

/-- **Encoding what was decoded gives the canonical form.** Of any bytes that decode to a
node, the encoding of the node is no longer and decodes to the same node. The bytes are
one spelling of the node with the rest that reading leaves, in one way only, and the
encoding is equal to them just if the rest is empty and the child indices in the
spelling are strictly ascending. A leaf and the empty node have no child indices. -/
theorem encode_of_decode (h : decode input = .ok node) :
    node.encode.length ≤ input.length ∧ decode node.encode = .ok node ∧
      ∃ spelling : Spelling, ∃ rest, readNode input = .ok (node, rest) ∧
        spelling.Writable ∧ input = spelling.bytes ++ rest ∧ spelling.node = node ∧
        (∀ other : Spelling, ∀ behind, other.Writable → input = other.bytes ++ behind →
          other = spelling ∧ behind = rest) ∧
        (node.encode = input ↔ rest = [] ∧ spelling.indices.Pairwise (· < ·)) := by
  refine ⟨?_, decode_encode_of_decode h, ?_⟩
  · obtain ⟨spelling, rest, -, rfl, rfl⟩ := decode_eq_ok.1 h
    have hlength := spelling.length_encode_le
    rw [List.length_append]
    omega
  · obtain ⟨spelling, rest, hwritable, rfl, rfl⟩ := decode_eq_ok.1 h
    refine ⟨spelling, rest, readNode_bytes hwritable rest, hwritable, rfl, rfl, ?_, encode_eq_iff hwritable⟩
    intro other behind hother hinput
    exact Spelling.unique hother hwritable hinput.symm

/-- A branch with its slots out of order, one of them written twice. -/
def shuffled : Spelling := .branch [7] [(9, .inline [1]), (2, .hash Hash.zero), (9, .inline [4, 4])] none

theorem encode_of_decode_shuffled :
    decode (shuffled.bytes ++ [5]) = .ok shuffled.node ∧
      shuffled.node = .branch [7] (Children.ofList [(2, .hash Hash.zero), (9, .inline [4, 4])]) none ∧
      shuffled.node.encode.length = 74 ∧ (shuffled.bytes ++ [5]).length = 89 ∧
      decode shuffled.node.encode = .ok shuffled.node ∧ shuffled.node.encode ≠ shuffled.bytes := by
  have hwritable : shuffled.Writable := by
    refine ⟨by decide, by decide, ?_, fun _ hnone => (nomatch hnone)⟩
    simp [Slot.Writable, Codec.maxLength]
    decide
  have h : decode (shuffled.bytes ++ [5]) = .ok shuffled.node := decode_eq_ok.2 ⟨shuffled, [5], hwritable, rfl, rfl⟩
  have hwhole : decode shuffled.bytes = .ok shuffled.node :=
    decode_eq_ok.2 ⟨shuffled, [], hwritable, (List.append_nil _).symm, rfl⟩
  obtain ⟨-, hdecode, -⟩ := encode_of_decode h
  obtain ⟨-, -, spelling, rest, -, -, -, -, hunique, hiff⟩ := encode_of_decode hwhole
  obtain ⟨rfl, rfl⟩ := hunique shuffled [] hwritable (List.append_nil _).symm
  exact ⟨h, by decide, by decide, by decide, hdecode, fun heq => absurd (hiff.1 heq).2 (by decide)⟩

end TrieNode

end MerkleBuffer
