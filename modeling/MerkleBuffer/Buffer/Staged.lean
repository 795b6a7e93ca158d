/-
Staged nodes: what the buffer knows of one node that is not stored yet.

A node points to others in two ways: by the hashes embedded in it, and by
explicit references made while it was staged. Explicit references have a
multiplicity and are kept in the order in which they were first made.
-/
import MerkleBuffer.ByteSize
import MerkleBuffer.Trie.Codec

namespace MerkleBuffer

/-- Explicit references to other nodes, with their multiplicity. -/
abbrev Edges := List (Hash × Nat)

namespace Edges

/-- How often one child may be referenced by one parent. -/
def maxCount : Nat := 65535

/-- How often a child is referenced. -/
def count (child : Hash) : Edges → Nat
  | [] => 0
  | (h, n) :: rest => if h = child then n else count child rest

/-- One more reference to a child. -/
def add (child : Hash) : Edges → Edges
  | [] => [(child, 1)]
  | (h, n) :: rest => if h = child then (h, n + 1) :: rest else (h, n) :: add child rest

/-- Every child as often as it is referenced. -/
def expand (edges : Edges) : List Hash :=
  edges.flatMap fun (child, n) => List.replicate n child

end Edges

/-- A node that is not stored yet. -/
structure Staged where
  node : Node
  /-- The bytes of its encoding, as its owner gave them -/
  size : Nat
  /-- The edges and pins that hold it, counted in 32 bits -/
  parents : UInt32
  /-- Its explicit references, once there was one -/
  edges : Option Edges
  /-- The node staged before it, and the one staged after it -/
  prev : Option Hash
  next : Option Hash
deriving DecidableEq

namespace Staged

/-- What a staged node is charged for in memory besides its encoding. -/
def overhead : Nat := 200

/-- What a table of explicit references is charged for, and each of its children. -/
def edgeTableSize : Nat := 48
def edgeSize : Nat := 34

/-- The children embedded in a node, in slot order; the zero hash is no child. -/
def embedded (e : Staged) : List Hash := e.node.childHashes.filter (!·.isZero)

/-- Every child: the explicit ones once each, then the embedded ones. -/
def children (e : Staged) : List Hash := (e.edges.getD []).map (·.1) ++ e.embedded

/-- Every child as often as the node points to it. -/
def references (e : Staged) : List Hash := (e.edges.getD []).expand ++ e.embedded

/-- The bytes charged for the encoding and its key. -/
def payload (e : Staged) : ByteSize := ByteSize.ofNat (Hash.size + e.size)

/-- The bytes charged for explicit references. -/
def edgeCost (e : Staged) : ByteSize :=
  match e.edges with
  | none => ByteSize.zero
  | some edges => ByteSize.ofNat (edgeTableSize + edgeSize * edges.length)

/-- Everything a staged node is charged for. -/
def cost (e : Staged) : ByteSize := e.payload + ByteSize.ofNat overhead + e.edgeCost

/-- One more parent; the count wraps at 2^32. -/
def gainParent (e : Staged) : Staged := { e with parents := e.parents + 1 }

/-- One parent less. -/
def loseParent (e : Staged) : Staged := { e with parents := e.parents - 1 }

end Staged

end MerkleBuffer
