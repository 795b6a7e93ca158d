/-
Reading through the tiers of a database: the clean cache, the buffer, the store.

A node that was found in the store enters the clean cache, and a hit in the
cache counts as a use there. The zero hash stands for the meta-root, which has
no encoding, so it is found nowhere.
-/
import MerkleBuffer.Database.Basic
import MerkleBuffer.Database.SecureKey

namespace MerkleBuffer.Database

variable {σ : Type} [KeyValueStore σ]

/-- The encoding that the store holds under a hash. It enters the clean cache. -/
def load (db : Database σ) (h : Hash) : Outcome σ Bytes :=
  match KeyValueStore.get db.disk h.bytes with
  | .error e => (.error e, db)
  | .ok none => (.error (.notFound (.node h)), db)
  | .ok (some encoded) => (.ok encoded, { db with cleans := db.cleans.map (·.set h encoded) })

/-- A hit in the clean cache, and the database after this use of it. -/
def cached? (db : Database σ) (h : Hash) : Option (Bytes × Database σ) :=
  match db.cleans with
  | none => none
  | some cleans =>
    match cleans.get h with
    | (none, _) => none
    | (some encoded, after) => some (encoded, { db with cleans := some after })

/-- The encoding of a node. -/
def node (db : Database σ) (h : Hash) : Outcome σ Bytes :=
  if h.isZero then (.error (.notFound .metaRoot), db)
  else
    match db.cached? h with
    | some (encoded, after) => (.ok encoded, after)
    | none =>
      match db.buffer.table[h]? with
      | some e => (.ok e.node.encode, db)
      | none => db.load h

/-- The node that some bytes encode. -/
def decoded (encoded : Bytes) : Except Error TrieNode := (TrieNode.decode encoded).mapError .encoding

/-- The trie node under a hash. One that is staged is returned as it is. -/
def trieNode (db : Database σ) (h : Hash) : Outcome σ TrieNode :=
  if h.isZero then (.error (.notFound .metaRoot), db)
  else
    match db.cached? h with
    | some (encoded, after) => (decoded encoded, after)
    | none =>
      match db.buffer.table[h]? with
      | some e => (e.node.toTrie.mapError .encoding, db)
      | none =>
        match db.load h with
        | (.error e, after) => (.error e, after)
        | (.ok encoded, after) => (decoded encoded, after)

/-- The preimage of a hashed key, from the buffer or the store. -/
def preimage (db : Database σ) (h : Hash) : Except Error (Option Bytes) :=
  match db.buffer.preimage? h with
  | some preimage => .ok (some preimage)
  | none => KeyValueStore.get db.disk (secureKey h)

end MerkleBuffer.Database
