/-
The clean cache accounts for what it holds.

The uses of a cache may set one hash to different values, growing and shrinking, and
set values that are too large and leave the older one in place. Each use changes the
shard of one hash only, so what holds for each shard (`Housed`) is kept by every use
(`housed_run`), and the sums over all shards follow from it.
-/
import MerkleBuffer.Proofs.Cache.Shard
import Mathlib.Data.List.Induction

namespace MerkleBuffer

open Shard (cost)

/-- A use of a clean cache. -/
inductive CacheUse
  | set (h : Hash) (value : Bytes)
  | get (h : Hash)
  | contains (h : Hash)

namespace CacheUse

/-- The cache after a use of it. -/
def run (c : CleanCache) : CacheUse → CleanCache
  | .set h value => c.set h value
  | .get h => (c.get h).2
  | .contains _ => c

/-- The value that a use sets for `h`, if its cost is at most `share`. -/
def gives (share : Nat) (h : Hash) : CacheUse → Option Bytes
  | .set k value => if k = h ∧ cost value ≤ share then some value else none
  | .get _ => none
  | .contains _ => none

end CacheUse

/-- The value of the last use that sets one for `h` whose cost is at most `share`. -/
def lastFitting (share : Nat) (uses : List CacheUse) (h : Hash) : Option Bytes :=
  uses.reverse.findSome? (CacheUse.gives share h)

namespace CleanCache

/-- The shard that the first eight bytes of a hash select among `n`. -/
def home (n : Nat) (h : Hash) : Nat := LittleEndian.decode (h.bytes.take 8) % n

/-- All entries, shard after shard. -/
def entries (c : CleanCache) : List (Hash × Bytes) := c.shards.toList.flatMap (·.entries)

/-- The cache after several uses of it. -/
def runAll (c : CleanCache) (uses : List CacheUse) : CleanCache := uses.foldl CacheUse.run c

/-- Hold `value` for `h`, unless a size would fall below zero. -/
def set? (c : CleanCache) (h : Hash) (value : Bytes) : Option CleanCache := do
  let s ← (c.shard h).set? h value
  return c.modifyShard h fun _ => s

/-- A cache with `capacity` bytes and `shards` shards, or one if these are none,
accounts for the `uses` that led to it. -/
structure Accounted (capacity shards : Nat) (uses : List CacheUse) (c : CleanCache) : Prop where
  count : c.shards.size = max shards 1
  size : c.size = total (c.entries.map fun x => Hash.size + x.2.length)
  within : c.size ≤ capacity
  never_clips : ∀ h value, c.set? h value = some (c.set h value)
  once : (c.entries.map (·.1)).Nodup
  at_home : ∀ i s, c.shards[i]? = some s → ∀ x ∈ s.entries, home (max shards 1) x.1 = i
  hit : ∀ h value, (c.get h).1 = some value → lastFitting (capacity / max shards 1) uses h = some value
  hit_after_set : ∀ h value, cost value ≤ capacity / max shards 1 → ((c.set h value).get h).1 = some value

/-- A cache of `n` shards, with `P` for each at its place. -/
structure EachShard (n : Nat) (P : Nat → Shard → Prop) (c : CleanCache) : Prop where
  count : c.shards.size = n
  shard : ∀ i s, c.shards[i]? = some s → P i s

end CleanCache

/-- What holds for shard `i` of `n` after some uses of the cache. -/
structure Shard.Housed (share n : Nat) (uses : List CacheUse) (i : Nat) (s : Shard) : Prop where
  exact : s.Exact
  capacity : s.capacity = share
  at_home : ∀ x ∈ s.entries, CleanCache.home n x.1 = i
  given : ∀ x ∈ s.entries, lastFitting share uses x.1 = some x.2

variable {share n i : Nat} {uses uses' : List CacheUse} {c : CleanCache} {s s' : Shard} {h : Hash}
  {value : Bytes} {P Q : Nat → Shard → Prop}

theorem lastFitting_concat (share : Nat) (uses : List CacheUse) (u : CacheUse) (h : Hash) :
    lastFitting share (uses ++ [u]) h = (u.gives share h).or (lastFitting share uses h) := by
  cases hu : u.gives share h <;> simp [lastFitting, hu]

theorem CleanCache.runAll_concat (c : CleanCache) (uses : List CacheUse) (u : CacheUse) :
    c.runAll (uses ++ [u]) = u.run (c.runAll uses) := List.foldl_concat ..

/-! ## One shard at a time -/

namespace CleanCache.EachShard

theorem empty {capacity shards : Nat} (hp : ∀ i, P i (Shard.empty (capacity / max shards 1))) :
    EachShard (max shards 1) P (CleanCache.empty capacity shards) where
  count := Array.size_replicate
  shard i s hs := by
    obtain ⟨-, rfl⟩ := Array.mem_replicate.1 (Array.mem_of_getElem? hs)
    exact hp i

theorem index (hc : EachShard n P c) (h : Hash) : (c.index h : Nat) = home n h := by
  rw [home, ← hc.count]
  rfl

theorem getElem?_home (hc : EachShard n P c) (h : Hash) : c.shards[home n h]? = some (c.shard h) := by
  rw [← hc.index h]
  exact Array.getElem?_eq_getElem (c.index h).isLt

theorem of_hash (hc : EachShard n P c) (h : Hash) : P (home n h) (c.shard h) := hc.shard _ _ (hc.getElem?_home h)

theorem of_mem (hc : EachShard n P c) (hs : s ∈ c.shards.toList) : ∃ i, P i s := by
  obtain ⟨i, hi⟩ := List.mem_iff_getElem?.1 hs
  exact ⟨i, hc.shard i s (by simpa using hi)⟩

theorem modifyShard (hc : EachShard n P c) {f : Shard → Shard} (hmine : Q (home n h) (f (c.shard h)))
    (hothers : ∀ i s, i ≠ home n h → P i s → Q i s) : EachShard n Q (c.modifyShard h f) where
  count := by rw [CleanCache.modifyShard, Array.size_modify, hc.count]
  shard i s hs := by
    rw [CleanCache.modifyShard, Array.getElem?_modify, hc.index h] at hs
    split at hs
    · next heq =>
      subst heq
      rw [hc.getElem?_home h] at hs
      exact Option.some.inj hs ▸ hmine
    · next hne => exact hothers i s (Ne.symm hne) (hc.shard i s hs)

end CleanCache.EachShard

namespace Shard.Housed

/-- A shard that a use leaves as it is. -/
theorem kept (hs : Housed share n uses i s)
    (hgiven : ∀ x ∈ s.entries, lastFitting share uses' x.1 = lastFitting share uses x.1) :
    Housed share n uses' i s where
  exact := hs.exact
  capacity := hs.capacity
  at_home := hs.at_home
  given x hx := (hgiven x hx).trans (hs.given x hx)

theorem leadsWith (hs : Housed share n uses (CleanCache.home n h) s) (hl : LeadsWith h value s s')
    (hh : lastFitting share uses' h = some value)
    (hgiven : ∀ k, k ≠ h → lastFitting share uses' k = lastFitting share uses k) :
    Housed share n uses' (CleanCache.home n h) s' where
  exact := hl.exact hs.exact
  capacity := hl.capacity.trans hs.capacity
  at_home x hx := by
    rcases hl.mem hx with rfl | ⟨hx, -⟩
    · rfl
    · exact hs.at_home x hx
  given x hx := by
    rcases hl.mem hx with rfl | ⟨hx, hne⟩
    · exact hh
    · exact (hgiven x.1 hne).trans (hs.given x hx)

end Shard.Housed

/-- **Every use keeps each shard in order.** -/
theorem housed_run (u : CacheUse) (hc : c.EachShard n (Shard.Housed share n uses)) :
    (u.run c).EachShard n (Shard.Housed share n (uses ++ [u])) := by
  cases u with
  | set h value =>
    have hother : ∀ k, k ≠ h → lastFitting share (uses ++ [.set h value]) k = lastFitting share uses k := by
      intro k hk
      rw [lastFitting_concat, CacheUse.gives, if_neg (by simp [hk.symm])]
      rfl
    have hs := hc.of_hash h
    refine hc.modifyShard ?_ fun i s hi hs => hs.kept fun x hx => hother x.1 fun heq => ?_
    · by_cases hv : cost value ≤ share
      · refine hs.leadsWith (hs.exact.leadsWith_set (by rwa [hs.capacity])) ?_ hother
        rw [lastFitting_concat, CacheUse.gives, if_pos ⟨rfl, hv⟩]
        rfl
      · rw [Shard.set_of_lt (by rw [hs.capacity]; omega)]
        refine hs.kept fun x _ => ?_
        rw [lastFitting_concat, CacheUse.gives, if_neg (by simp [hv])]
        rfl
    · exact hi (by rw [← hs.at_home x hx, heq])
  | get h =>
    have hsame : ∀ k, lastFitting share (uses ++ [.get h]) k = lastFitting share uses k := fun k => by
      rw [lastFitting_concat]
      rfl
    have hs := hc.of_hash h
    refine hc.modifyShard ?_ fun i s _ hs => hs.kept fun x _ => hsame x.1
    cases hf : (c.shard h).find? h with
    | none =>
      rw [Shard.touch_of_none hf]
      exact hs.kept fun x _ => hsame x.1
    | some value =>
      refine hs.leadsWith (hs.exact.leadsWith_touch hf) ?_ fun k _ => hsame k
      rw [hsame]
      exact hs.given _ (Shard.mem_of_find? hf)
  | contains h =>
    refine ⟨hc.count, fun i s hs => (hc.shard i s hs).kept fun x _ => ?_⟩
    rw [lastFitting_concat]
    rfl

theorem housed_runAll (capacity shards : Nat) (uses : List CacheUse) :
    ((CleanCache.empty capacity shards).runAll uses).EachShard (max shards 1)
      (Shard.Housed (capacity / max shards 1) (max shards 1) uses) := by
  induction uses using List.reverseRecOn with
  | nil =>
    exact .empty fun i => ⟨.empty _, rfl, by simp [Shard.empty], by simp [Shard.empty]⟩
  | append_singleton uses u ih =>
    rw [CleanCache.runAll_concat]
    exact housed_run u ih

/-! ## All shards together -/

namespace CleanCache

/-- The counters of several shards add up to what the entries of all of them cost, and
to at most a share for each. -/
theorem total_size {l : List Shard} (hl : ∀ s ∈ l, s.Exact ∧ s.capacity = share) :
    total (l.map (·.size)) = bytesOf (l.flatMap (·.entries)) ∧ total (l.map (·.size)) ≤ l.length * share := by
  induction l with
  | nil => simp
  | cons s rest ih =>
    obtain ⟨hs, hcapacity⟩ := hl s List.mem_cons_self
    obtain ⟨hsum, hle⟩ := ih fun s hs => hl s (List.mem_cons_of_mem _ hs)
    have hsize := hs.size
    have hfits := hs.fits
    simp only [List.map_cons, total_cons, List.flatMap_cons, bytesOf_append, List.length_cons, Nat.succ_mul]
    omega

theorem size_eq (hc : c.EachShard n (Shard.Housed share n uses)) : c.size = bytesOf c.entries ∧ c.size ≤ n * share := by
  have htotal := total_size (l := c.shards.toList) fun s hs => by
    obtain ⟨_, hhoused⟩ := hc.of_mem hs
    exact ⟨hhoused.exact, hhoused.capacity⟩
  rwa [Array.length_toList, hc.count] at htotal

theorem nodup_keys (hc : c.EachShard n (Shard.Housed share n uses)) : (c.entries.map (·.1)).Nodup := by
  rw [entries, List.map_flatMap, List.nodup_flatMap]
  refine ⟨fun s hs => ?_, List.pairwise_iff_getElem.2 fun i j hi hj hij h hxi hxj => ?_⟩
  · obtain ⟨_, hhoused⟩ := hc.of_mem hs
    exact hhoused.exact.nodup
  · obtain ⟨x, hx, rfl⟩ := List.mem_map.1 hxi
    obtain ⟨y, hy, heq⟩ := List.mem_map.1 hxj
    have hhome := (hc.shard i _ (by simp)).at_home x hx
    have hhome' := (hc.shard j _ (by simp)).at_home y hy
    rw [heq] at hhome'
    omega

theorem set?_eq (hc : c.EachShard n (Shard.Housed share n uses)) (h : Hash) (value : Bytes) :
    c.set? h value = some (c.set h value) := by
  rw [set?, (hc.of_hash h).exact.set?_eq]
  refine congrArg some ?_
  rw [set, CleanCache.modifyShard, CleanCache.modifyShard, CleanCache.mk.injEq]
  refine Array.ext_getElem? fun i => ?_
  rw [Array.getElem?_modify, Array.getElem?_modify]
  split
  · next heq =>
    subst heq
    rw [hc.index h, hc.getElem?_home h]
    rfl
  · rfl

theorem get_set (hc : c.EachShard n (Shard.Housed share n uses)) (hv : cost value ≤ share) :
    ((c.set h value).get h).1 = some value := by
  have hs := hc.of_hash h
  have hv : cost value ≤ (c.shard h).capacity := by rwa [hs.capacity]
  have hl := hs.exact.leadsWith_set (h := h) hv
  have hafter : (c.set h value).EachShard n fun i s => i = home n h → s.find? h = some value :=
    hc.modifyShard (fun _ => (hl.exact hs.exact).find?_eq_some_iff.2 (hl.mem_self hv)) fun i s hi _ heq => absurd heq hi
  exact hafter.of_hash h rfl

/-- **A cache accounts for what it holds**, whatever its capacity, its number of shards
and the uses of it. -/
theorem accounting_exact (capacity shards : Nat) (uses : List CacheUse) :
    Accounted capacity shards uses ((empty capacity shards).runAll uses) := by
  have hc := housed_runAll capacity shards uses
  exact {
    count := hc.count
    size := (size_eq hc).1
    within := Nat.le_trans (size_eq hc).2 (Nat.mul_div_le capacity (max shards 1))
    never_clips := set?_eq hc
    once := nodup_keys hc
    at_home := fun i s hs => (hc.shard i s hs).at_home
    hit := fun h value hget => (hc.of_hash h).given _ (Shard.mem_of_find? hget)
    hit_after_set := fun h value hv => get_set hc hv }

end CleanCache

end MerkleBuffer
