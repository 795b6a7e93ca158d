/-
Each shard of the clean cache holds what was used last.

Order the hashes of a shard by their last touch: a set that fits, or a get that hits.
What the shard holds is the longest first part of this order that fits, most recent
first. A touch moves one entry to the front of the order; what the shard evicts then
is what this pushes behind its capacity (`LongestFitting.front`), and an entry that
was evicted before stays behind it.
-/
import MerkleBuffer.Proofs.CacheAccounting
import MerkleBuffer.Proofs.Lists

namespace MerkleBuffer

open Shard (cost without)

/-- The hashes that a use of a cache with shards of `share` bytes touches: one that is
set, if its entry fits, and one that is found. -/
def CacheUse.touches (share : Nat) (c : CleanCache) : CacheUse → List Hash
  | .set h value => if cost value ≤ share then [h] else []
  | .get h => if (c.get h).1.isSome then [h] else []
  | .contains _ => []

namespace CleanCache

/-- The hashes that several uses touch, one after another. -/
def touched (share : Nat) (c : CleanCache) : List CacheUse → List Hash
  | [] => []
  | u :: rest => u.touches share c ++ (u.run c).touched share rest

/-- The entries of shard `i` of `n`, most recently touched first, where `blob` tells
the value of a hash. -/
def byLastTouch (blob : Hash → Bytes) (n i : Nat) (touched : List Hash) : List (Hash × Bytes) :=
  (touched.filter (home n · = i)).dedup.reverse.map fun h => (h, blob h)

end CleanCache

open CleanCache (home byLastTouch)

/-- What holds for shard `i` of `n` once these hashes were touched. -/
structure Shard.HoldsRecent (blob : Hash → Bytes) (share n : Nat) (touched : List Hash) (i : Nat) (s : Shard) :
    Prop where
  capacity : s.capacity = share
  recent : LongestFitting share (byLastTouch blob n i touched) s.recent

variable {share n i : Nat} {blob : Hash → Bytes} {touched : List Hash} {uses : List CacheUse} {c : CleanCache}
  {s s' : Shard} {h : Hash} {value : Bytes}

/-! ## The order of touches -/

theorem byLastTouch_home (blob : Hash → Bytes) (touched : List Hash) (h : Hash) :
    byLastTouch blob n (home n h) (touched ++ [h]) =
      (h, blob h) :: without h (byLastTouch blob n (home n h) touched) := by
  have hcomp : (fun x : Hash × Bytes => x.1 != h) ∘ (fun k => (k, blob k)) = fun k => decide (k ≠ h) := by
    funext k
    by_cases hk : k = h <;> simp [hk]
  rw [byLastTouch, List.filter_append, List.filter_cons_of_pos (by simp), List.filter_nil, dedup_concat,
    List.reverse_concat, List.map_cons, ← List.filter_reverse, byLastTouch, without, List.filter_map, hcomp]

theorem byLastTouch_others (blob : Hash → Bytes) (touched : List Hash) (hi : i ≠ home n h) :
    byLastTouch blob n i (touched ++ [h]) = byLastTouch blob n i touched := by
  rw [byLastTouch, List.filter_append, List.filter_cons_of_neg (by simpa using hi.symm), List.filter_nil,
    List.append_nil, byLastTouch]

theorem nodup_keys_byLastTouch (blob : Hash → Bytes) (n i : Nat) (touched : List Hash) :
    ((byLastTouch blob n i touched).map (·.1)).Nodup := by
  have hkeys : (byLastTouch blob n i touched).map (·.1) = (touched.filter (home n · = i)).dedup.reverse := by
    rw [byLastTouch, List.map_map]
    exact List.map_id _
  rw [hkeys]
  exact List.nodup_reverse.2 (List.nodup_dedup _)

theorem eq_of_mem_byLastTouch {x : Hash × Bytes} (hx : x ∈ byLastTouch blob n i touched) : x.2 = blob x.1 := by
  obtain ⟨k, -, rfl⟩ := List.mem_map.1 hx
  rfl

theorem CleanCache.touched_concat (share : Nat) (c : CleanCache) (uses : List CacheUse) (u : CacheUse) :
    c.touched share (uses ++ [u]) = c.touched share uses ++ u.touches share (c.runAll uses) := by
  induction uses generalizing c with
  | nil => simp [touched, runAll]
  | cons first rest ih =>
    rw [List.cons_append, touched, ih, touched, List.append_assoc]
    rfl

/-! ## Touches of a shard -/

/-- The value that a shard holds for a hash is the one that it is set with. -/
theorem Shard.HoldsRecent.eq_blob (hs : s.HoldsRecent blob share n touched i) (hf : s.find? h = some value) :
    value = blob h :=
  eq_of_mem_byLastTouch (hs.recent.initial.subset (List.mem_reverse.2 (Shard.mem_of_find? hf)))

/-- A touch of its hash `h` brings a shard and its order forward together. -/
theorem Shard.HoldsRecent.leadsWith (hs : s.HoldsRecent blob share n touched (home n h))
    (hl : Shard.LeadsWith h (blob h) s s') : s'.HoldsRecent blob share n (touched ++ [h]) (home n h) where
  capacity := hl.capacity.trans hs.capacity
  recent := by
    rw [byLastTouch_home]
    refine hs.recent.front (nodup_keys_byLastTouch ..) (fun x hx heq => ?_) (hs.capacity ▸ hl.kept)
    rw [eq_of_mem_byLastTouch hx, heq]

theorem Shard.HoldsRecent.others (hs : s.HoldsRecent blob share n touched i) (hi : i ≠ home n h) :
    s.HoldsRecent blob share n (touched ++ [h]) i where
  capacity := hs.capacity
  recent := by
    rw [byLastTouch_others blob touched hi]
    exact hs.recent

/-- **Every use keeps each shard at what was used last.** -/
theorem recent_run (u : CacheUse) (hu : ∀ h value, u = .set h value → value = blob h)
    (hc : c.EachShard n (Shard.Housed share n uses)) (hr : c.EachShard n (Shard.HoldsRecent blob share n touched)) :
    (u.run c).EachShard n (Shard.HoldsRecent blob share n (touched ++ u.touches share c)) := by
  cases u with
  | set h value =>
    obtain rfl : value = blob h := hu h value rfl
    have hs := hc.of_hash h
    by_cases hv : cost (blob h) ≤ share
    · rw [CacheUse.touches, if_pos hv]
      exact hr.modifyShard ((hr.of_hash h).leadsWith (hs.exact.leadsWith_set (by rwa [hs.capacity])))
        fun i s hi hs => hs.others hi
    · rw [CacheUse.touches, if_neg hv, List.append_nil]
      refine hr.modifyShard ?_ fun _ _ _ hs => hs
      rw [Shard.set_of_lt (by rw [hs.capacity]; omega)]
      exact hr.of_hash h
  | get h =>
    cases hf : (c.shard h).find? h with
    | none =>
      have hmiss : (c.get h).1.isSome = false := congrArg Option.isSome hf
      rw [CacheUse.touches, hmiss, if_neg Bool.false_ne_true, List.append_nil]
      refine hr.modifyShard ?_ fun _ _ _ hs => hs
      rw [Shard.touch_of_none hf]
      exact hr.of_hash h
    | some value =>
      have hhit : (c.get h).1.isSome = true := congrArg Option.isSome hf
      obtain rfl : value = blob h := (hr.of_hash h).eq_blob hf
      rw [CacheUse.touches, if_pos hhit]
      exact hr.modifyShard ((hr.of_hash h).leadsWith ((hc.of_hash h).exact.leadsWith_touch hf))
        fun i s hi hs => hs.others hi
  | contains h =>
    rw [CacheUse.touches, List.append_nil]
    exact hr

namespace CleanCache

/-- **Each shard is an exact LRU bounded in bytes.** After any uses that give a hash
one value, it holds the longest part of its entries by last touch, most recent first,
that costs at most its share. -/
theorem holds_recent (blob : Hash → Bytes) (capacity shards : Nat) (uses : List CacheUse)
    (hblob : ∀ h value, .set h value ∈ uses → value = blob h) :
    ((empty capacity shards).runAll uses).EachShard (max shards 1)
      (Shard.HoldsRecent blob (capacity / max shards 1) (max shards 1)
        ((empty capacity shards).touched (capacity / max shards 1) uses)) := by
  induction uses using List.reverseRecOn with
  | nil => exact .empty fun i => ⟨rfl, .of_fits (Nat.zero_le _)⟩
  | append_singleton uses u ih =>
    rw [touched_concat, runAll_concat]
    refine recent_run u (fun h value hu => hblob h value (by simp [hu])) (housed_runAll capacity shards uses) ?_
    exact ih fun h value hmem => hblob h value (List.mem_append_left _ hmem)

/-- Seventy bytes hold two of three small values. The second is looked at in between,
which is no use of it, and gives way to the third; a value that is too large moves
nothing. -/
theorem holds_recent_threeSmall :
    let key (x : UInt8) : Hash := ⟨List.replicate 32 x, List.length_replicate⟩
    let blob : Hash → Bytes := fun h => if h = key 4 then List.replicate 40 0 else h.bytes.take 2
    let uses : List CacheUse := [.set (key 1) [1, 1], .set (key 2) [2, 2], .get (key 1), .contains (key 2),
      .set (key 3) [3, 3], .get (key 2), .set (key 4) (List.replicate 40 0)]
    let order := [(key 3, [3, 3]), (key 1, [1, 1]), (key 2, [2, 2])]
    (∀ h value, .set h value ∈ uses → value = blob h) ∧
      ∀ s, ((empty 70 1).runAll uses).shards[0]? = some s → LongestFitting 70 order s.recent := by
  intro key blob uses order
  have hblob : ∀ h value, .set h value ∈ uses → value = blob h := by
    intro h value hmem
    simp only [uses, List.mem_cons, CacheUse.set.injEq, List.not_mem_nil, or_false, reduceCtorEq, false_or] at hmem
    rcases hmem with ⟨rfl, rfl⟩ | ⟨rfl, rfl⟩ | ⟨rfl, rfl⟩ | ⟨rfl, rfl⟩ <;> decide
  refine ⟨hblob, fun s hs => ?_⟩
  have hrecent := (holds_recent blob 70 1 uses hblob).shard 0 s hs
  have htouched : (empty 70 1).touched 70 uses = [key 1, key 2, key 1, key 3] := by decide
  have horder : byLastTouch blob 1 0 [key 1, key 2, key 1, key 3] = order := by decide
  have hlongest := hrecent.recent
  rw [show 70 / max 1 1 = 70 by rfl, show max 1 1 = 1 by rfl] at hlongest
  rwa [htouched, horder] at hlongest

end CleanCache

end MerkleBuffer
