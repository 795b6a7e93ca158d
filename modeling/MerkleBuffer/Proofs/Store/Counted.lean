/-
How many keys a store has.

A counted store has values under the keys that it counts and under no others, whatever
was written to it and however it was opened. So there are at most as many keys with a
value as its size says.
-/
import MerkleBuffer.Store.Memory
import MerkleBuffer.Store.RecordLog
import Mathlib.Data.List.Perm.Subperm

namespace MerkleBuffer

/-- A store that counts every key that it has a value for. -/
class CountedStore (σ : Type) [KeyValueStore σ] : Prop where
  length_le_size (s : σ) {keys : List Bytes} (hnodup : keys.Nodup)
    (hget : ∀ key ∈ keys, ∃ value, KeyValueStore.get s key = .ok (some value)) : keys.length ≤ KeyValueStore.size s

theorem length_le_size_of_contains {β : Type} {table : Std.ExtTreeMap Bytes β} {keys : List Bytes} (hnodup : keys.Nodup)
    (hkeys : ∀ key ∈ keys, key ∈ table) : keys.length ≤ table.size := by
  have hsub : keys ⊆ table.keys := fun key hkey => Std.ExtTreeMap.mem_keys.2 (hkeys key hkey)
  have hle := (hnodup.subperm hsub).length_le
  rwa [Std.ExtTreeMap.length_keys] at hle

instance : CountedStore MemoryStore where
  length_le_size s keys hnodup hget := by
    refine length_le_size_of_contains hnodup fun key hkey => ?_
    obtain ⟨value, hvalue⟩ := hget key hkey
    have hentry : s.entries[key]? = some value := Except.ok.inj hvalue
    exact Std.ExtTreeMap.mem_iff_isSome_getElem?.2 (by rw [hentry]; rfl)

instance [FrameCodec] : CountedStore RecordLog where
  length_le_size log keys hnodup hget := by
    refine length_le_size_of_contains hnodup fun key hkey => ?_
    obtain ⟨value, hvalue⟩ := hget key hkey
    -- a key that is not in the index reads as absent
    by_contra hno
    have hnone : log.index[key]? = none := Std.ExtTreeMap.getElem?_eq_none hno
    have hget : log.get key = .ok (some value) := hvalue
    rw [RecordLog.get, hnone] at hget
    cases hget

end MerkleBuffer
