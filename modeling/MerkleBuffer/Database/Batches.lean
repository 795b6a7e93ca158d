/-
Writing puts to the store of a database, batch by batch.

A batch is written as soon as its values reach the ideal size. What has been
written is then settled: the caller says what this means for the database, for
instance that the nodes leave the buffer. Nothing is settled before its batch
was written, so a failure loses nothing.
-/
import MerkleBuffer.Database.Basic
import MerkleBuffer.Database.SecureKey

namespace MerkleBuffer.Database

variable {σ : Type} [KeyValueStore σ]

/-- What becomes of a database whose store now holds some puts. -/
abbrev Settle (σ : Type) := List Put → Database σ → Database σ

/-- Written puts change nothing. -/
def Settle.nothing : Settle σ := fun _ db => db

/-- Write a batch and settle its puts. -/
def writeBatch (settle : Settle σ) (db : Database σ) (batch : Batch) : Outcome σ Unit :=
  match KeyValueStore.write db.disk batch.puts with
  | .error e => (.error e, db)
  | .ok disk => (.ok (), settle batch.puts { db with disk })

/-- Queue puts in a batch, and write it whenever it is full. The batch that is
still open at the end is returned. -/
def queueAll (settle : Settle σ) (db : Database σ) (batch : Batch) : List Put → Outcome σ Batch
  | [] => (.ok batch, db)
  | p :: rest =>
    match KeyValueStore.accept db.disk with
    | .error e => (.error e, db)
    | .ok () =>
      let batch := batch.push p
      if db.config.idealBatchSize.toNat ≤ batch.valueSize then
        match writeBatch settle db batch with
        | (.error e, after) => (.error e, after)
        | (.ok (), after) => queueAll settle after Batch.empty rest
      else queueAll settle db batch rest

/-- Queue puts behind those of an open batch and write all of them; the last
batch is written even if it is empty. -/
def writeAll (settle : Settle σ) (db : Database σ) (batch : Batch) (puts : List Put) : Outcome σ Unit :=
  match queueAll settle db batch puts with
  | (.error e, after) => (.error e, after)
  | (.ok last, after) => writeBatch settle after last

/-- The put that stores a node. -/
def nodePut (node : Hash × Staged) : Put := ⟨node.1.bytes, node.2.node.encode⟩

/-- The put that stores a preimage. -/
def preimagePut (preimage : Hash × Bytes) : Put := ⟨secureKey preimage.1, preimage.2⟩

end MerkleBuffer.Database
