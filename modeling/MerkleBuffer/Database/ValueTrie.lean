/-
Tries that hold a list of values: a leaf for each, numbered by the byte of its
place, and one branch above them.
-/
import MerkleBuffer.Database.Commit

namespace MerkleBuffer

namespace TrieNode

/-- The most values one such trie can hold. -/
def maxValues : Nat := 256

/-- The leaf of the value at a place. -/
def numberedLeaf (place : Nat) (value : String) : TrieNode :=
  valueLeaf [UInt8.ofNat place] (utf8 value)

/-- The leaves of a list of values. -/
def numberedLeaves (values : List String) : List TrieNode :=
  values.mapIdx numberedLeaf

/-- The branch above nodes with these hashes. -/
def branchAbove (hashes : List Hash) : TrieNode :=
  hashes.zipIdx.foldl (fun node (h, place) => node.withChild (UInt8.ofNat place) (.hash h)) (bareBranch [])

end TrieNode

namespace Database

variable {σ : Type} [KeyValueStore σ]

/-- Stage nodes in order. -/
def insertNodes (db : Database σ) : List TrieNode → Outcome σ (List Hash)
  | [] => (.ok [], db)
  | node :: rest =>
    match db.insertNode node with
    | (.error e, after) => (.error e, after)
    | (.ok h, after) =>
      match insertNodes after rest with
      | (.error e, after) => (.error e, after)
      | (.ok hashes, after) => (.ok (h :: hashes), after)

/-- Pin a root while it is committed. -/
def commitPinned (db : Database σ) (root : Hash) : Outcome σ Unit :=
  match db.reference root Hash.zero with
  | (.error e, after) => (.error e, after)
  | (.ok (), pinned) =>
    match pinned.commit root with
    | (.error e, after) => (.error e, after)
    | (.ok (), committed) => committed.dereference root

/-- Store the trie of a list of values; its root is returned. -/
def insertValues (db : Database σ) (values : List String) : Outcome σ Hash :=
  match db.insertNodes (TrieNode.numberedLeaves values) with
  | (.error e, after) => (.error e, after)
  | (.ok hashes, after) =>
    match after.insertNode (TrieNode.branchAbove hashes) with
    | (.error e, after) => (.error e, after)
    | (.ok root, staged) =>
      match staged.commitPinned root with
      | (.error e, after) => (.error e, after)
      | (.ok (), after) => (.ok root, after)

end Database

end MerkleBuffer
