/-
The encoding of trie nodes is a prefix code.

Nodes stand one behind another in a byte string without marks between them, so where a
node ends must show from its own bytes. It does: a node reads back whatever follows it,
every part that is cut off is reported as an end of the input, and no encoding starts
with that of another node.
-/
import MerkleBuffer.Database.Lookup
import MerkleBuffer.Proofs.Trie.Codec

namespace MerkleBuffer

namespace TrieNode

variable {node other : TrieNode}

/-- One of two encodings that starts with the other is the same, and of the same node. -/
theorem eq_of_encode_prefix (hnode : node.Writable) (hother : other.Writable) (h : other.encode <+: node.encode) :
    other = node := by
  obtain ⟨rest, hrest⟩ := h
  have hread := decode_encode_append hother rest
  rw [hrest, ← List.append_nil node.encode, decode_encode_append hnode []] at hread
  exact (Except.ok.inj hread).symm

/-- **The encoding of nodes is a prefix code that decoding inverts.** A node whose byte
strings are shorter than 2^64 bytes, as all in memory are, is read back whatever follows
it. Of anything shorter, no byte included, reading reports that the input has ended. No
other node has an encoding that this one starts with. -/
theorem prefix_code (h : node.Writable) :
    (∀ rest, Database.decoded (node.encode ++ rest) = .ok node) ∧
      (∀ part, part <+: node.encode → part ≠ node.encode →
        Database.decoded part = .error (.encoding .endOfInput)) ∧
      ∀ other : TrieNode, other.Writable → other.encode <+: node.encode → other = node := by
  refine ⟨fun rest => ?_, fun part hpart hne => ?_, fun other hother => eq_of_encode_prefix h hother⟩
  · rw [Database.decoded, decode_encode_append h rest]
    rfl
  · rw [Database.decoded, decode_cut h hpart hne]
    rfl

/-- A branch with a value of its own, below it the meta-root's hash and a value. -/
def mixedBranch : TrieNode :=
  branch [7] (Children.ofList [(0, .hash Hash.zero), (255, .inline [1, 2])]) (some [])

theorem mixedBranch_reads :
    mixedBranch.Writable ∧ Database.decoded (mixedBranch.encode ++ [9]) = .ok mixedBranch ∧
      Database.decoded (mixedBranch.encode.take 30) = .error (.encoding .endOfInput) := by
  have h : mixedBranch.Writable := by
    refine ⟨by decide, ?_, by decide⟩
    simp [Children.ofList, Children.insert, Children.empty, insertSlot, Slot.Writable, Codec.maxLength]
    decide
  obtain ⟨hread, hcut, -⟩ := prefix_code h
  exact ⟨h, hread [9], hcut _ (List.take_prefix 30 _) (by decide)⟩

end TrieNode

end MerkleBuffer
