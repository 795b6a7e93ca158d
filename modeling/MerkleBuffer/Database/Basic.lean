/-
The database: a buffer of new trie nodes in front of a store.

Nodes are staged in the buffer, where roots are pinned and shared subtrees are
counted, and reach the store when the buffer is capped or a root is committed.
A clean cache, if there is one, keeps encodings that are stored already.

An operation returns its outcome and the database after it, also when it fails:
what was written before a failure stays written.
-/
import MerkleBuffer.Buffer.References
import MerkleBuffer.CleanCache
import MerkleBuffer.Store.Basic

namespace MerkleBuffer

/-- A database over a store. Its settings are always in order. -/
structure Database (σ : Type) where
  disk : σ
  config : Config
  config_valid : config.Valid
  cleans : Option CleanCache
  buffer : Buffer

/-- The outcome of an operation and the database after it. -/
abbrev Outcome (σ α : Type) := Except Error α × Database σ

/-- The clean cache that settings ask for. -/
def Config.cleanCache (c : Config) : Option CleanCache :=
  if c.cleanCacheSize = 0 then none
  else some (CleanCache.empty c.cleanCacheSize.toNat c.cleanCacheShards.toNat)

theorem Config.valid_standard : Config.standard.Valid := by decide

namespace Database

variable {σ : Type}

/-! ## Opening -/

/-- A database over `disk` with settings that are in order. -/
def ofValid (disk : σ) (config : Config) (h : config.Valid) : Database σ where
  disk
  config
  config_valid := h
  cleans := config.cleanCache
  buffer := Buffer.empty

/-- A database over `disk` with the standard settings. -/
def new (disk : σ) : Database σ := ofValid disk Config.standard Config.valid_standard

/-- A database over `disk`, if the settings are in order. -/
def withConfig (disk : σ) (config : Config) : Except Error (Database σ) :=
  match h : config.fault? with
  | some fault => .error (.config fault)
  | none => .ok (ofValid disk config h)

/-! ## Staging -/

/-- Stage a node under `h`; `blob` is its encoding, and only its length counts.
A hash that is staged already stays as it is. -/
def insert (db : Database σ) (h : Hash) (blob : Bytes) (node : Node) : Outcome σ Unit :=
  if h.isZero then (.error (.metaRoot .insert), db)
  else (.ok (), { db with buffer := db.buffer.insert h blob.length node })

/-- Stage bytes that have no children. -/
def insertBlob (db : Database σ) (h : Hash) (blob : Bytes) : Outcome σ Unit :=
  db.insert h blob (.raw blob)

/-- Stage a trie node under the digest of its encoding. -/
def insertNode (db : Database σ) (node : TrieNode) : Outcome σ Hash :=
  match db.insert node.hash node.encode (.trie node) with
  | (.error e, after) => (.error e, after)
  | (.ok (), after) => (.ok node.hash, after)

/-- Buffer the preimage of a hashed key until the next flush. -/
def insertPreimage (db : Database σ) (h : Hash) (preimage : Bytes) : Database σ :=
  { db with buffer := db.buffer.insertPreimage h preimage }

/-! ## Reference counting -/

/-- Add a reference from `parent` to `child`; the zero hash as the parent pins
the child. -/
def reference (db : Database σ) (child parent : Hash) : Outcome σ Unit :=
  if child.isZero then (.error (.metaRoot .reference), db)
  else (.ok (), { db with buffer := db.buffer.reference child parent })

/-- Release the pin on `root`. Every staged node that nothing holds any more
leaves the buffer. -/
def dereference (db : Database σ) (root : Hash) : Outcome σ Unit :=
  if root.isZero then (.error (.metaRoot .dereference), db)
  else (.ok (), { db with buffer := db.buffer.dereference root })

/-! ## Views -/

/-- The hashes of all staged nodes, in ascending order. -/
def nodes (db : Database σ) : List Hash := db.buffer.table.keys

/-- Whether a node is staged. -/
def contains (db : Database σ) (h : Hash) : Bool := db.buffer.table.contains h

/-- How many edges and pins hold a staged node. The meta-root has no parents. -/
def parentCount (db : Database σ) (h : Hash) : Option UInt32 :=
  if h.isZero then some 0 else (db.buffer.table[h]?).map (·.parents)

/-- The hashes of the staged nodes from the oldest to the newest. -/
def flushOrder (db : Database σ) : List Hash := db.buffer.flushOrder

/-- What staged nodes are charged for, and what preimages are. -/
def size (db : Database σ) : ByteSize × ByteSize :=
  (db.buffer.residentSize, db.buffer.preimagesSize)

def stats (db : Database σ) : Stats := db.buffer.stats

end Database

end MerkleBuffer
