/-
The clean cache: encodings of nodes that are already stored, bounded in bytes.

The cache is split into shards, each with its own share of the capacity, and
the first eight bytes of a hash choose its shard. A shard keeps its entries
from the least to the most recently used. An entry costs 32 bytes more than its
value; one that costs more than the whole shard is not taken, and then an older
value of the same hash stays.
-/
import MerkleBuffer.Hash

namespace MerkleBuffer

/-- One shard: its entries, least recently used first, and the bytes they cost. -/
structure Shard where
  entries : List (Hash × Bytes)
  size : Nat
  capacity : Nat
deriving DecidableEq, Repr

namespace Shard

def empty (capacity : Nat) : Shard := ⟨[], 0, capacity⟩

instance : Inhabited Shard := ⟨empty 0⟩

/-- The cost of an entry with this value. -/
def cost (value : Bytes) : Nat := Hash.size + value.length

/-- The value held for a hash. -/
def find? (s : Shard) (h : Hash) : Option Bytes :=
  (s.entries.find? (·.1 == h)).map (·.2)

/-- The entries without the one for `h`. -/
def without (h : Hash) (entries : List (Hash × Bytes)) : List (Hash × Bytes) :=
  entries.filter (·.1 != h)

/-- Drop entries, least recently used first, until the rest fits. -/
def evict (capacity : Nat) : Nat → List (Hash × Bytes) → Nat × List (Hash × Bytes)
  | size, [] => (size, [])
  | size, e :: rest =>
    if capacity < size then evict capacity (size - cost e.2) rest else (size, e :: rest)

/-- Hold `value` for `h` as the most recent entry. -/
def set (s : Shard) (h : Hash) (value : Bytes) : Shard :=
  if s.capacity < cost value then s
  else
    let old := match s.find? h with
      | some previous => cost previous
      | none => 0
    let (size, entries) :=
      evict s.capacity (s.size - old + cost value) (without h s.entries ++ [(h, value)])
    { s with entries, size }

/-- Make the entry for `h`, if there is one, the most recent. -/
def touch (s : Shard) (h : Hash) : Shard :=
  match s.find? h with
  | some value => { s with entries := without h s.entries ++ [(h, value)] }
  | none => s

end Shard

/-- A cache of at least one shard. -/
structure CleanCache where
  shards : Array Shard
  shards_pos : 0 < shards.size

namespace CleanCache

/-- An empty cache that shares `capacity` bytes among `shards` shards; a cache
has at least one. -/
def empty (capacity shards : Nat) : CleanCache where
  shards := Array.replicate (max shards 1) (Shard.empty (capacity / max shards 1))
  shards_pos := by rw [Array.size_replicate]; omega

/-- The shard a hash belongs to, chosen by its first eight bytes. -/
def index (c : CleanCache) (h : Hash) : Fin c.shards.size :=
  ⟨LittleEndian.decode (h.bytes.take 8) % c.shards.size, Nat.mod_lt _ c.shards_pos⟩

def shard (c : CleanCache) (h : Hash) : Shard := c.shards[c.index h]

/-- Change the shard that `h` belongs to. -/
def modifyShard (c : CleanCache) (h : Hash) (f : Shard → Shard) : CleanCache where
  shards := c.shards.modify (c.index h) f
  shards_pos := by rw [Array.size_modify]; exact c.shards_pos

/-- The value held for a hash, without counting as a use. -/
def find? (c : CleanCache) (h : Hash) : Option Bytes := (c.shard h).find? h

def contains (c : CleanCache) (h : Hash) : Bool := (c.find? h).isSome

/-- The value held for a hash, and the cache after this use of it. -/
def get (c : CleanCache) (h : Hash) : Option Bytes × CleanCache :=
  (c.find? h, c.modifyShard h (·.touch h))

/-- Hold `value` for `h`. -/
def set (c : CleanCache) (h : Hash) (value : Bytes) : CleanCache :=
  c.modifyShard h (·.set h value)

/-- The number of entries. -/
def length (c : CleanCache) : Nat := total (c.shards.toList.map (·.entries.length))

def isEmpty (c : CleanCache) : Bool := c.length == 0

/-- The bytes the entries cost. -/
def size (c : CleanCache) : Nat := total (c.shards.toList.map (·.size))

end CleanCache

end MerkleBuffer
