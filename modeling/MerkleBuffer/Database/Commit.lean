/-
Committing a root: all staged nodes below it are stored, children before
parents, behind all buffered preimages.

Nodes leave the buffer batch by batch, as soon as their batch was written, and
enter the clean cache. A commit that fails has stored and dropped the nodes of
the batches before; those that are left still hang together below the root.
-/
import MerkleBuffer.Buffer.Subtree
import MerkleBuffer.Database.Batches

namespace MerkleBuffer.Database

variable {σ : Type}

/-- Move a stored node from the buffer to the clean cache. Keys that are no
hashes of staged nodes change nothing. -/
def settleNode (db : Database σ) (p : Put) : Database σ :=
  match Hash.ofBytes? p.key with
  | none => db
  | some h =>
    if db.buffer.table.contains h then
      { db with buffer := db.buffer.discard h, cleans := db.cleans.map (·.set h p.value) }
    else db

/-- Move stored nodes from the buffer to the clean cache. -/
def settleNodes : Settle σ := fun puts db => puts.foldl settleNode db

variable [KeyValueStore σ]

/-- Store all preimages and the staged nodes below `root`. The pin on `root`
stays. -/
def commit (db : Database σ) (root : Hash) : Outcome σ Unit :=
  if root.isZero then (.error (.metaRoot .commit), db)
  else
    match writeAll Settle.nothing db Batch.empty (db.buffer.preimages.map preimagePut) with
    | (.error e, after) => (.error e, after)
    | (.ok (), stored) =>
      match writeAll settleNodes stored Batch.empty ((stored.buffer.subtree root).map nodePut) with
      | (.error e, after) => (.error e, after)
      | (.ok (), after) =>
        let buffer := after.buffer.clearPreimages
        (.ok (), { after with buffer := { buffer with stats := buffer.stats.sinceCommit } })

end MerkleBuffer.Database
