/-
The settings of a database, and when they make sense.

The limit for `cap` is no setting: it is given on every call.
-/
import MerkleBuffer.Hash

namespace MerkleBuffer

/-- Bytes of queued values after which a batch should be written. -/
def idealBatchSize : Nat := 100 * 1024

/-- The settings a database is opened with; each is a number below 2^64. -/
structure Config where
  /-- Bytes the clean cache may hold; zero turns it off -/
  cleanCacheSize : UInt64
  /-- Shards of the clean cache -/
  cleanCacheShards : UInt64
  /-- Queued bytes after which a batch is written out -/
  idealBatchSize : UInt64
  /-- Preimage bytes above which `cap` flushes preimages too -/
  preimageFlushThreshold : UInt64
deriving DecidableEq, Repr

/-- What can be wrong with settings. -/
inductive ConfigFault where
  | zeroBatchSize
  | zeroShards
  | cacheTooSmall (size shards : UInt64)
deriving DecidableEq, Repr

/-- The wording of each fault. -/
def ConfigFault.message : ConfigFault → String
  | .zeroBatchSize => "ideal_batch_size must be non-zero"
  | .zeroShards => "clean_cache_shards must be non-zero when the clean cache is enabled"
  | .cacheTooSmall size shards => s!"clean_cache_size of {size} bytes is too small for {shards} shards"

namespace Config

/-- The settings of a database that nobody configured. -/
def standard : Config where
  cleanCacheSize := 16 * 1024 * 1024
  cleanCacheShards := 16
  idealBatchSize := 100 * 1024
  preimageFlushThreshold := 4 * 1024 * 1024

instance : Inhabited Config := ⟨standard⟩

/-- The standard settings with the clean cache turned off. -/
def withoutCleanCache : Config := { standard with cleanCacheSize := 0 }

/-- The first fault of the settings, if they have one. A shard must have room
for the smallest entry, a hash and one byte. -/
def fault? (c : Config) : Option ConfigFault :=
  if c.idealBatchSize = 0 then some .zeroBatchSize
  else if c.cleanCacheSize = 0 then none
  else if c.cleanCacheShards = 0 then some .zeroShards
  else if c.cleanCacheSize / c.cleanCacheShards ≤ 32 then
    some (.cacheTooSmall c.cleanCacheSize c.cleanCacheShards)
  else none

/-- Settings a database can be opened with. -/
def Valid (c : Config) : Prop := c.fault? = none

instance (c : Config) : Decidable c.Valid := inferInstanceAs (Decidable (c.fault? = none))

end Config

end MerkleBuffer
