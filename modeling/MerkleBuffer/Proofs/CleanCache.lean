/-
What a clean cache holds.

A property of all entries survives uses of the cache, and new entries that have
it: eviction only drops entries.
-/
import MerkleBuffer.CleanCache

namespace MerkleBuffer

namespace Shard

theorem mem_of_mem_evict {capacity size : Nat} {entries : List (Hash × Bytes)} {x : Hash × Bytes}
    (hx : x ∈ (evict capacity size entries).2) : x ∈ entries := by
  induction entries generalizing size with
  | nil => simp [evict] at hx
  | cons e rest ih =>
    unfold evict at hx
    split at hx
    · exact List.mem_cons_of_mem _ (ih hx)
    · exact hx

theorem mem_of_find? {s : Shard} {h : Hash} {value : Bytes} (hf : s.find? h = some value) :
    (h, value) ∈ s.entries := by
  obtain ⟨x, hx, rfl⟩ := Option.map_eq_some_iff.1 hf
  have heq : x.1 = h := by simpa using List.find?_some hx
  exact heq ▸ List.mem_of_find?_eq_some hx

end Shard

/-- Everything in a clean cache satisfies `V`. -/
def CleanCache.All (V : Hash → Bytes → Prop) (c : CleanCache) : Prop :=
  ∀ s ∈ c.shards, ∀ x ∈ s.entries, V x.1 x.2

namespace CleanCache

variable {V : Hash → Bytes → Prop} {c : CleanCache} {h : Hash} {value : Bytes}

theorem All.empty (capacity shards : Nat) : (CleanCache.empty capacity shards).All V := by
  intro s hs x hx
  obtain ⟨-, rfl⟩ := Array.mem_replicate.1 hs
  simp [Shard.empty] at hx

theorem All.modifyShard {f : Shard → Shard} (hc : c.All V)
    (hf : ∀ s : Shard, (∀ x ∈ s.entries, V x.1 x.2) → ∀ x ∈ (f s).entries, V x.1 x.2) :
    (c.modifyShard h f).All V := by
  intro s hs
  obtain ⟨i, hi, rfl⟩ := Array.mem_iff_getElem.1 hs
  have hi' : i < c.shards.size := by simpa [CleanCache.modifyShard] using hi
  simp only [CleanCache.modifyShard, Array.getElem_modify]
  split
  · exact hf _ (hc _ (Array.getElem_mem hi'))
  · exact hc _ (Array.getElem_mem hi')

theorem All.set (hc : c.All V) (hv : V h value) : (c.set h value).All V := by
  refine hc.modifyShard fun s hs x hx => ?_
  unfold Shard.set at hx
  split at hx
  · exact hs x hx
  · have hmem := Shard.mem_of_mem_evict hx
    rcases List.mem_append.1 hmem with hw | hn
    · exact hs x (List.mem_filter.1 hw).1
    · rw [List.mem_singleton.1 hn]
      exact hv

theorem All.get (hc : c.All V) (h : Hash) : (c.get h).2.All V := by
  refine hc.modifyShard fun s hs x hx => ?_
  unfold Shard.touch at hx
  split at hx
  · next value hf =>
    rcases List.mem_append.1 hx with hw | hn
    · exact hs x (List.mem_filter.1 hw).1
    · rw [List.mem_singleton.1 hn]
      exact hs _ (Shard.mem_of_find? hf)
  · exact hs x hx

theorem All.find? (hc : c.All V) (hf : c.find? h = some value) : V h value :=
  hc _ (Array.getElem_mem _) _ (Shard.mem_of_find? hf)

end CleanCache

end MerkleBuffer
