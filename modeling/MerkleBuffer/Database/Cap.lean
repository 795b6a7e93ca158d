/-
Capping a database: its oldest nodes are stored until the rest fits a limit.

The nodes leave the buffer only after all of them were written, so a cap that
fails leaves the buffer as it was.
-/
import MerkleBuffer.Database.Batches

namespace MerkleBuffer

namespace Buffer

/-- The oldest nodes that have to go until `size` bytes come down to `limit`. -/
def overflow (limit : ByteSize) : ByteSize → List (Hash × Staged) → List (Hash × Staged)
  | _, [] => []
  | size, (h, e) :: rest =>
    if limit < size then (h, e) :: overflow limit (size - e.cost) rest else []

/-- Drop nodes that are stored now, and count them. -/
def discardFlushed (b : Buffer) (flushed : List (Hash × Staged)) : Buffer :=
  let after := flushed.foldl (fun b node => b.discard node.1) b
  { after with stats := { after.stats with
      flushNodes := after.stats.flushNodes + (b.length - after.length)
      flushSize := after.stats.flushSize + (b.payloadSize - after.payloadSize) } }

end Buffer

namespace Database

variable {σ : Type} [KeyValueStore σ]

/-- Whether a cap flushes the preimages as well. -/
def preimagesOverflow (db : Database σ) : Bool :=
  ByteSize.ofNat db.config.preimageFlushThreshold.toNat < db.buffer.preimagesSize

/-- Store the oldest nodes until what staged nodes are charged for is at most
`limit`. Preimages are stored first if there are more than the threshold. -/
def cap (db : Database σ) (limit : ByteSize) : Outcome σ Unit :=
  if db.buffer.residentSize ≤ limit then (.ok (), db)
  else
    let preimages := if db.preimagesOverflow then db.buffer.preimages else []
    let oldest := Buffer.overflow limit db.buffer.residentSize db.buffer.inOrder
    match writeAll Settle.nothing db Batch.empty (preimages.map preimagePut ++ oldest.map nodePut) with
    | (.error e, after) => (.error e, after)
    | (.ok (), after) =>
      let buffer := if db.preimagesOverflow then after.buffer.clearPreimages else after.buffer
      (.ok (), { after with buffer := buffer.discardFlushed oldest })

end Database

end MerkleBuffer
