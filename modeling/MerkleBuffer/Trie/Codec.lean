/-
The canonical encoding of trie nodes.

Numbers have a fixed width and stand least significant byte first: four bytes
for the tag of a node or a slot, eight for a length, one for the presence of a
value. Reading goes front to back and reports the first fault. It accepts child
slots in any order, the last of several for one index counting, and leaves
alone whatever follows the node.
-/
import MerkleBuffer.Reader
import MerkleBuffer.Trie.Node

namespace MerkleBuffer

/-- What can be wrong with an encoded node. -/
inductive DecodeError where
  | endOfInput
  | badVariant (found bound : Nat)
  | badPresence (found : Nat)
deriving DecidableEq, Repr

/-- The wording of each fault. -/
def DecodeError.message : DecodeError → String
  | .endOfInput => "io error: unexpected end of file"
  | .badVariant found bound =>
    s!"invalid value: integer `{found}`, expected variant index 0 <= i < {bound}"
  | .badPresence found => s!"tag for enum is not valid, found {found}"

namespace Codec

/-- The width of a tag and of a length. -/
def tagWidth : Nat := 4
def lengthWidth : Nat := 8

/-- A reader of encoded nodes. -/
abbrev NodeReader := Reader DecodeError

/-- A number in a fixed width. -/
def readNumber (width : Nat) : NodeReader Nat := Reader.number .endOfInput width

/-- A byte string behind its length. -/
def readBytes : NodeReader Bytes := do
  Reader.exact .endOfInput (← readNumber lengthWidth)

def encodeBytes (bytes : Bytes) : Bytes :=
  LittleEndian.encode lengthWidth bytes.length ++ bytes

/-- A hash stands without a length, since all have the same. -/
def readHash : NodeReader Hash := do
  match Hash.ofBytes? (← Reader.exact .endOfInput Hash.size) with
  | some h => return h
  | none => throw .endOfInput

def encodeSlot : Slot → Bytes
  | .hash target => LittleEndian.encode tagWidth 0 ++ target.bytes
  | .inline value => LittleEndian.encode tagWidth 1 ++ encodeBytes value

def readSlot : NodeReader Slot := do
  match ← readNumber tagWidth with
  | 0 => return .hash (← readHash)
  | 1 => return .inline (← readBytes)
  | tag => throw (.badVariant tag 2)

def encodeEntry (entry : UInt8 × Slot) : Bytes :=
  entry.1 :: encodeSlot entry.2

/-- An index and its slot. -/
def readEntry : NodeReader (UInt8 × Slot) := do
  let index ← readNumber 1
  return (UInt8.ofNat index, ← readSlot)

/-- `n` entries, each set over the ones before. -/
def readEntries : Nat → Children → NodeReader Children
  | 0, children => pure children
  | n + 1, children => do
    let (index, slot) ← readEntry
    readEntries n (children.insert index slot)

def encodeChildren (children : Children) : Bytes :=
  LittleEndian.encode lengthWidth children.slots.length ++ children.slots.flatMap encodeEntry

def readChildren : NodeReader Children := do
  readEntries (← readNumber lengthWidth) Children.empty

def encodeValue : Option Bytes → Bytes
  | none => [0]
  | some value => 1 :: encodeBytes value

def readValue : NodeReader (Option Bytes) := do
  match ← readNumber 1 with
  | 0 => return none
  | 1 => return some (← readBytes)
  | tag => throw (.badPresence tag)

/-- A node from the front of the input. -/
def readNode : NodeReader TrieNode := do
  match ← readNumber tagWidth with
  | 0 => return .branch (← readBytes) (← readChildren) (← readValue)
  | 1 => return .leaf (← readBytes) (← readSlot)
  | 2 => return .empty
  | tag => throw (.badVariant tag 3)

end Codec

namespace TrieNode

open Codec

/-- The canonical encoding of a node. -/
def encode : TrieNode → Bytes
  | branch stem children value =>
    LittleEndian.encode tagWidth 0 ++ encodeBytes stem ++ encodeChildren children ++ encodeValue value
  | leaf suffix slot => LittleEndian.encode tagWidth 1 ++ encodeBytes suffix ++ encodeSlot slot
  | empty => LittleEndian.encode tagWidth 2

/-- The node at the front of a byte string. -/
def decode (input : Bytes) : Except DecodeError TrieNode :=
  (readNode.run input).map (·.1)

/-- A node is identified by the digest of its encoding. -/
def hash (node : TrieNode) : Hash := Hash.digest node.encode

end TrieNode

/-- What is staged under a hash: an opaque blob, which has no children, or a
trie node, which is encoded when it is read or written. -/
inductive Node where
  | raw (blob : Bytes)
  | trie (node : TrieNode)
deriving DecidableEq

namespace Node

/-- The bytes that are written to the store. -/
def encode : Node → Bytes
  | raw blob => blob
  | trie node => node.encode

/-- The hashes a node points to. -/
def childHashes : Node → List Hash
  | raw _ => []
  | trie node => node.childHashes

/-- The node in structural form; a blob is decoded. -/
def toTrie : Node → Except DecodeError TrieNode
  | raw blob => TrieNode.decode blob
  | trie node => .ok node

end Node

end MerkleBuffer
