/-
Surveys: which nodes can be reached from a root, and which of them are missing.

A survey follows the embedded child hashes of every node it finds and visits
each hash once, so it ends whatever the nodes point to. It stops at a node that
cannot be read.
-/
import MerkleBuffer.Database.Lookup
import Std.Data.ExtTreeSet

namespace MerkleBuffer

/-- What was found from a root: the number of nodes that are there, and the
hashes that are not. -/
structure Survey where
  found : Nat
  missing : List Hash
deriving DecidableEq, Repr

/-- Whether nothing is missing. -/
def Survey.isComplete (s : Survey) : Bool := s.missing.isEmpty

namespace Database

variable {σ : Type} [KeyValueStore σ]

/-- Visit the hashes in `pending` and what can be reached from them, the last
child of a node first. What was seen and is not missing has been found. -/
def surveyFrom : Nat → Database σ → Std.ExtTreeSet Hash → List Hash → List Hash → Outcome σ Survey
  | 0, db, seen, missing, _ => (.ok ⟨seen.size - missing.length, missing⟩, db)
  | _, db, seen, missing, [] => (.ok ⟨seen.size - missing.length, missing⟩, db)
  | fuel + 1, db, seen, missing, h :: pending =>
    if seen.contains h then surveyFrom fuel db seen missing pending
    else
      match db.trieNode h with
      | (.ok node, after) => surveyFrom fuel after (seen.insert h) missing (node.childHashes.reverse ++ pending)
      | (.error e, after) =>
        if e.isNotFound then surveyFrom fuel after (seen.insert h) (missing ++ [h]) pending
        else (.error e, after)

/-- The most children a node can have. -/
def maxChildren : Nat := 256

/-- A bound on the steps of a survey: each node that some tier holds is visited
once and leaves at most 256 hashes to visit. -/
def surveyBound (db : Database σ) : Nat :=
  let cached := match db.cleans with
    | some cleans => cleans.length
    | none => 0
  (KeyValueStore.size db.disk + db.buffer.length + cached) * maxChildren + 2

/-- Survey what can be reached from a root. -/
def survey (db : Database σ) (root : Hash) : Outcome σ Survey :=
  surveyFrom db.surveyBound db ∅ [] [root]

end Database

end MerkleBuffer
