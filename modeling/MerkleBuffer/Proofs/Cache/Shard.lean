/-
One shard of the clean cache.

Eviction starts with the least recently used entry and stops as soon as the rest
fits, so what stays is the longest run of most recent entries that fits
(`evict_eq`), and a set and a hit are read off that. The size of a shard is then
the sum over its entries at all times. Counted down it never falls below zero:
with every difference checked, `set?` does what `set` does.
-/
import MerkleBuffer.Proofs.CleanCache
import Mathlib.Data.List.Nodup
import Mathlib.Data.Nat.PSub

namespace MerkleBuffer

open Shard (cost without evict)

/-- The bytes that entries cost. -/
def bytesOf (entries : List (Hash × Bytes)) : Nat := total (entries.map fun x => cost x.2)

/-- The longest first part of some entries that costs at most `bound` bytes. -/
structure LongestFitting (bound : Nat) (entries kept : List (Hash × Bytes)) : Prop where
  initial : kept <+: entries
  fits : bytesOf kept ≤ bound
  longest : ∀ l, l <+: entries → bytesOf l ≤ bound → l <+: kept

namespace Shard

/-- The counter of a shard is the sum over its entries and within its capacity, and
it has one entry for a hash. -/
structure Exact (s : Shard) : Prop where
  size : s.size = bytesOf s.entries
  fits : bytesOf s.entries ≤ s.capacity
  nodup : (s.entries.map (·.1)).Nodup

/-- The entries, most recently used first. -/
def recent (s : Shard) : List (Hash × Bytes) := s.entries.reverse

/-- The entries with `value` for `h` as the most recent one. -/
def renewed (s : Shard) (h : Hash) (value : Bytes) : List (Hash × Bytes) := without h s.entries ++ [(h, value)]

/-- After a use that leads with the entry `value` for `h`, the shard holds the longest
part that fits of: this entry, and the others in their order. -/
structure LeadsWith (h : Hash) (value : Bytes) (s s' : Shard) : Prop where
  capacity : s'.capacity = s.capacity
  size : s'.size = bytesOf s'.entries
  kept : LongestFitting s.capacity ((h, value) :: without h s.recent) s'.recent

/-- Drop entries until the rest fits, unless the size would fall below zero. -/
def evict? (capacity : Nat) : Nat → List (Hash × Bytes) → Option (Nat × List (Hash × Bytes))
  | size, [] => some (size, [])
  | size, e :: rest =>
    if capacity < size then do evict? capacity (← size.psub (cost e.2)) rest else some (size, e :: rest)

/-- The bytes that an entry for `h`, if there is one, costs. -/
def replaced (s : Shard) (h : Hash) : Nat :=
  match s.find? h with
  | some previous => cost previous
  | none => 0

/-- Hold `value` for `h`, unless the size would fall below zero. -/
def set? (s : Shard) (h : Hash) (value : Bytes) : Option Shard :=
  if s.capacity < cost value then some s
  else do
    let others ← s.size.psub (s.replaced h)
    let (size, entries) ← evict? s.capacity (others + cost value) (s.renewed h value)
    return { s with entries, size }

end Shard

variable {entries order kept kept' : List (Hash × Bytes)} {bound : Nat} {h : Hash} {value : Bytes}

/-! ## What entries cost -/

@[simp] theorem bytesOf_nil : bytesOf [] = 0 := rfl

@[simp] theorem bytesOf_cons (x : Hash × Bytes) (rest : List (Hash × Bytes)) :
    bytesOf (x :: rest) = cost x.2 + bytesOf rest := rfl

@[simp] theorem bytesOf_append (a b : List (Hash × Bytes)) : bytesOf (a ++ b) = bytesOf a + bytesOf b := by
  simp [bytesOf]

@[simp] theorem bytesOf_reverse (entries : List (Hash × Bytes)) : bytesOf entries.reverse = bytesOf entries := by
  induction entries with
  | nil => rfl
  | cons x rest ih => simp [ih]; omega

namespace Shard

theorem without_eq_self (h : Hash) (hh : h ∉ entries.map (·.1)) : without h entries = entries := by
  refine List.filter_eq_self.2 fun x hx => ?_
  have hne : x.1 ≠ h := fun heq => hh (heq ▸ List.mem_map_of_mem hx)
  simpa using hne

theorem without_reverse (h : Hash) (entries : List (Hash × Bytes)) :
    without h entries.reverse = (without h entries).reverse := List.filter_reverse ..

theorem not_mem_keys_without (h : Hash) (entries : List (Hash × Bytes)) :
    h ∉ (without h entries).map (·.1) := by
  simp [without]

theorem nodup_keys_without (hn : (entries.map (·.1)).Nodup) (h : Hash) : ((without h entries).map (·.1)).Nodup :=
  (List.filter_sublist.map _).nodup hn

theorem bytesOf_without (hn : (entries.map (·.1)).Nodup) (hmem : (h, value) ∈ entries) :
    bytesOf (without h entries) + cost value = bytesOf entries := by
  obtain ⟨a, b, rfl⟩ := List.append_of_mem hmem
  simp only [List.map_append, List.map_cons, List.nodup_append, List.nodup_cons] at hn
  obtain ⟨-, ⟨hb, -⟩, hab⟩ := hn
  have ha : h ∉ a.map (·.1) := fun hm => hab h hm h (by simp) rfl
  have hself : without h [(h, value)] = [] := by simp [without]
  have hsplit : without h (a ++ (h, value) :: b) = a ++ b := by
    calc without h (a ++ (h, value) :: b)
        = without h a ++ (without h [(h, value)] ++ without h b) := by
          rw [without, ← List.singleton_append, List.filter_append, List.filter_append]; rfl
      _ = a ++ b := by rw [without_eq_self h ha, hself, without_eq_self h hb, List.nil_append]
  rw [hsplit]
  simp
  omega

end Shard

/-! ## The longest part that fits -/

namespace LongestFitting

theorem of_fits (hfits : bytesOf order ≤ bound) : LongestFitting bound order order :=
  ⟨List.prefix_rfl, hfits, fun _ hl _ => hl⟩

/-- Entries that do not all fit lose the last one first. -/
theorem concat {x : Hash × Bytes} (hover : bound < bytesOf (order ++ [x])) (hk : LongestFitting bound order kept) :
    LongestFitting bound (order ++ [x]) kept where
  initial := hk.initial.trans (List.prefix_append order [x])
  fits := hk.fits
  longest l hl hfits := by
    rcases List.prefix_concat_iff.1 hl with rfl | hl
    · omega
    · exact hk.longest l hl hfits

theorem mem_of_fits (hk : LongestFitting bound ((h, value) :: order) kept) (hv : cost value ≤ bound) :
    (h, value) ∈ kept := by
  have hfirst : [(h, value)] <+: kept := hk.longest _ (by simp) (by simpa using hv)
  exact hfirst.subset List.mem_cons_self

/-- **An entry that moves to the front drops from the tail alone.** What was kept is
enough to tell what is kept then: an entry that had been dropped comes behind more
bytes than before. -/
theorem front (hn : (order.map (·.1)).Nodup) (hvalue : ∀ x ∈ order, x.1 = h → x.2 = value)
    (hk : LongestFitting bound order kept) (hk' : LongestFitting bound ((h, value) :: without h kept) kept') :
    LongestFitting bound ((h, value) :: without h order) kept' where
  initial := hk'.initial.trans (List.cons_prefix_cons.2 ⟨rfl, hk.initial.filter _⟩)
  fits := hk'.fits
  longest l hl hfits := by
    rcases List.prefix_cons_iff.1 hl with rfl | ⟨rest, rfl, hrest⟩
    · exact List.nil_prefix
    refine hk'.longest _ (List.cons_prefix_cons.2 ⟨rfl, ?_⟩) hfits
    -- the part of the old order that `rest` came from fitted there: it costs at most
    -- one entry for `h` more than `rest`, and `rest` has one before it now
    obtain ⟨m, hm, rfl⟩ := List.prefix_filter_iff.1 hrest
    refine (hk.longest m hm ?_).filter _
    have hnm : (m.map (·.1)).Nodup := (hm.sublist.map _).nodup hn
    have hcost : bytesOf m ≤ bytesOf (without h m) + cost value := by
      by_cases hmem : h ∈ m.map (·.1)
      · obtain ⟨⟨k, w⟩, hx, rfl⟩ := List.mem_map.1 hmem
        obtain rfl : w = value := hvalue _ (hm.subset hx) rfl
        exact Nat.le_of_eq (Shard.bytesOf_without hnm hx).symm
      · rw [Shard.without_eq_self h hmem]
        omega
    have hfits : cost value + bytesOf (without h m) ≤ bound := hfits
    omega

end LongestFitting

namespace Shard

/-! ## Eviction -/

/-- **Eviction keeps the longest run of most recent entries that fits**, with the
bytes it costs. -/
theorem evict_eq (capacity : Nat) (entries : List (Hash × Bytes)) :
    ∃ kept, evict capacity (bytesOf entries) entries = (bytesOf kept, kept) ∧
      LongestFitting capacity entries.reverse kept.reverse := by
  induction entries with
  | nil => exact ⟨[], rfl, .of_fits (Nat.zero_le _)⟩
  | cons e rest ih =>
    by_cases hover : capacity < bytesOf (e :: rest)
    · obtain ⟨kept, heq, hkept⟩ := ih
      refine ⟨kept, ?_, ?_⟩
      · rw [evict, if_pos hover, bytesOf_cons, Nat.add_sub_cancel_left, heq]
      · rw [List.reverse_cons]
        exact hkept.concat (by simp at hover ⊢; omega)
    · refine ⟨e :: rest, by rw [evict, if_neg hover], .of_fits ?_⟩
      rw [bytesOf_reverse]
      omega

theorem evict?_eq (capacity : Nat) (entries : List (Hash × Bytes)) :
    evict? capacity (bytesOf entries) entries = some (evict capacity (bytesOf entries) entries) := by
  induction entries with
  | nil => rfl
  | cons e rest ih =>
    rw [evict?, evict]
    split
    · rw [bytesOf_cons, Nat.psub_eq_sub (Nat.le_add_right ..), Nat.add_sub_cancel_left]
      exact ih
    · rfl

/-! ## Uses of a shard -/

variable {s : Shard}

theorem Exact.empty (capacity : Nat) : (Shard.empty capacity).Exact := ⟨rfl, Nat.zero_le _, .nil⟩

theorem Exact.find?_eq_some_iff (hs : s.Exact) : s.find? h = some value ↔ (h, value) ∈ s.entries := by
  refine ⟨mem_of_find?, fun hmem => ?_⟩
  obtain ⟨w, hw⟩ : ∃ w, s.find? h = some w :=
    Option.isSome_iff_exists.1 (by simpa [find?] using ⟨value, hmem⟩)
  rw [hw]
  exact congrArg some (congrArg Prod.snd (List.inj_on_of_nodup_map hs.nodup (mem_of_find? hw) hmem rfl))

theorem not_mem_of_find?_eq_none (hf : s.find? h = none) : h ∉ s.entries.map (·.1) := by
  intro hmem
  obtain ⟨x, hx, rfl⟩ := List.mem_map.1 hmem
  simp [find?] at hf
  exact hf x.1 x.2 hx rfl

/-- The size covers the entry that a set replaces, and what is left is what the
others cost. -/
theorem Exact.size_eq (hs : s.Exact) (h : Hash) : bytesOf (without h s.entries) + s.replaced h = s.size := by
  rw [hs.size, replaced]
  cases hf : s.find? h with
  | none => rw [without_eq_self h (not_mem_of_find?_eq_none hf), Nat.add_zero]
  | some previous => exact bytesOf_without hs.nodup (mem_of_find? hf)

theorem bytesOf_renewed (s : Shard) (h : Hash) (value : Bytes) :
    bytesOf (s.renewed h value) = bytesOf (without h s.entries) + cost value := by
  simp [renewed]

theorem reverse_renewed (s : Shard) (h : Hash) (value : Bytes) :
    (s.renewed h value).reverse = (h, value) :: without h s.recent := by
  simp [renewed, recent, without_reverse]

theorem Exact.set_eq (hs : s.Exact) (hv : cost value ≤ s.capacity) :
    s.set h value =
      let after := evict s.capacity (bytesOf (s.renewed h value)) (s.renewed h value)
      ⟨after.2, after.1, s.capacity⟩ := by
  rw [bytesOf_renewed, ← Nat.add_sub_cancel (bytesOf (without h s.entries)) (s.replaced h), hs.size_eq]
  exact if_neg (by omega)

theorem set_of_lt (hv : s.capacity < cost value) : s.set h value = s := by rw [set, if_pos hv]

/-- **No difference in a set falls below zero.** -/
theorem Exact.set?_eq (hs : s.Exact) (h : Hash) (value : Bytes) : s.set? h value = some (s.set h value) := by
  by_cases hv : s.capacity < cost value
  · rw [set?, if_pos hv, set_of_lt hv]
  · rw [set?, if_neg hv, Nat.psub_eq_some.2 (hs.size_eq h), hs.set_eq (Nat.le_of_not_lt hv)]
    simp only [Option.bind_eq_bind, Option.bind_some, ← bytesOf_renewed, evict?_eq]
    rfl

/-- A set whose cost fits leads with its entry, in place of an older one for the same
hash. -/
theorem Exact.leadsWith_set (hs : s.Exact) (hv : cost value ≤ s.capacity) : LeadsWith h value s (s.set h value) := by
  obtain ⟨kept, heq, hkept⟩ := evict_eq s.capacity (s.renewed h value)
  rw [reverse_renewed] at hkept
  rw [hs.set_eq hv, heq]
  exact ⟨rfl, rfl, hkept⟩

theorem Exact.leadsWith_touch (hs : s.Exact) (hf : s.find? h = some value) : LeadsWith h value s (s.touch h) := by
  have htouch : s.touch h = { s with entries := s.renewed h value } := by
    rw [touch, hf]
    rfl
  have hbytes : bytesOf (s.renewed h value) = bytesOf s.entries :=
    (s.bytesOf_renewed h value).trans (bytesOf_without hs.nodup (mem_of_find? hf))
  rw [htouch]
  refine ⟨rfl, hs.size.trans hbytes.symm, ?_⟩
  rw [← reverse_renewed]
  refine .of_fits ?_
  rw [bytesOf_reverse, hbytes]
  exact hs.fits

theorem touch_of_none (hf : s.find? h = none) : s.touch h = s := by rw [touch, hf]

variable {s' : Shard}

theorem LeadsWith.exact (hl : LeadsWith h value s s') (hs : s.Exact) : s'.Exact where
  size := hl.size
  fits := by
    have hfits := hl.kept.fits
    rwa [recent, bytesOf_reverse, ← hl.capacity] at hfits
  nodup := by
    have hrecent : (s.recent.map (·.1)).Nodup := by
      simpa [recent, List.map_reverse] using hs.nodup
    have hfront : (((h, value) :: without h s.recent).map (·.1)).Nodup :=
      List.nodup_cons.2 ⟨not_mem_keys_without h s.recent, nodup_keys_without hrecent h⟩
    simpa [recent, List.map_reverse] using (hl.kept.initial.sublist.map (·.1)).nodup hfront

theorem LeadsWith.mem {x : Hash × Bytes} (hl : LeadsWith h value s s') (hx : x ∈ s'.entries) :
    x = (h, value) ∨ x ∈ s.entries ∧ x.1 ≠ h := by
  have hx : x ∈ (h, value) :: without h s.recent := hl.kept.initial.subset (List.mem_reverse.2 hx)
  simpa [recent, without] using hx

/-- **The entry just set is there**, whatever had to make room for it. -/
theorem LeadsWith.mem_self (hl : LeadsWith h value s s') (hv : cost value ≤ s.capacity) : (h, value) ∈ s'.entries :=
  List.mem_reverse.1 (hl.kept.mem_of_fits hv)

end Shard

end MerkleBuffer
