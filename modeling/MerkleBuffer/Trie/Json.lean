/-
Trie nodes as JSON: every case is an object with one member, named for the case,
and byte strings are arrays of numbers.
-/
import MerkleBuffer.Json.Value
import MerkleBuffer.Trie.Node

namespace MerkleBuffer

/-- A byte string as an array of numbers. -/
def Bytes.toJson (bytes : Bytes) : Json :=
  .array (bytes.map fun b => .number b.toNat)

def Slot.toJson : Slot → Json
  | .hash target => .object [("Hash", Bytes.toJson target.bytes)]
  | .inline value => .object [("Inline", Bytes.toJson value)]

/-- Child slots as an object: an index becomes the name of a member. -/
def Children.toJson (children : Children) : Json :=
  .record (children.slots.map fun p => (toString p.1.toNat, p.2.toJson))

def TrieNode.toJson : TrieNode → Json
  | .branch stem children value =>
    .object [("Branch", .record [("prefix", Bytes.toJson stem), ("children", children.toJson),
      ("value", match value with
        | some v => Bytes.toJson v
        | none => .null)])]
  | .leaf suffix slot =>
    .object [("Leaf", .record [("key_suffix", Bytes.toJson suffix), ("value", slot.toJson)])]
  | .empty => .string "Empty"

end MerkleBuffer
