/-
A store that lives in memory. The last value put under a key counts.
-/
import MerkleBuffer.Store.Basic
import Std.Data.ExtTreeMap

namespace MerkleBuffer

/-- Keys and their values. -/
structure MemoryStore where
  entries : Std.ExtTreeMap Bytes Bytes

namespace MemoryStore

def empty : MemoryStore := ⟨∅⟩

instance : Inhabited MemoryStore := ⟨empty⟩

/-- The value stored under a key. -/
def get? (s : MemoryStore) (key : Bytes) : Option Bytes := s.entries[key]?

def contains (s : MemoryStore) (key : Bytes) : Bool := s.entries.contains key

/-- The number of keys. -/
def size (s : MemoryStore) : Nat := s.entries.size

def isEmpty (s : MemoryStore) : Bool := s.entries.isEmpty

/-- All keys, in ascending order. -/
def keys (s : MemoryStore) : List Bytes := s.entries.keys

/-- Keys and values, in ascending order of the keys. -/
def toList (s : MemoryStore) : List (Bytes × Bytes) := s.entries.toList

/-- Store one put. -/
def put (s : MemoryStore) (p : Put) : MemoryStore := ⟨s.entries.insert p.key p.value⟩

/-- Store puts, later ones over earlier ones. -/
def putAll (s : MemoryStore) (puts : List Put) : MemoryStore := puts.foldl put s

/-- Remove a key. -/
def erase (s : MemoryStore) (key : Bytes) : MemoryStore := ⟨s.entries.erase key⟩

instance : KeyValueStore MemoryStore where
  get s key := .ok (s.get? key)
  has s key := .ok (s.contains key)
  accept _ := .ok ()
  write s puts := .ok (s.putAll puts)
  size := size

end MemoryStore

end MerkleBuffer
