/-
A dereference does the same in whatever order it lets go of children.

Explicit references are kept in a table without an order of its own, and a node may be
let go of several times, from several sides, also when it is long gone. Still every way
through the pending hashes ends, and ends in the same buffer, also where the edges run in
circles and where counts are too high or too low. What goes is told by a fixed point: the
least set of staged nodes that contains each node which the root and the set let go of as
often as it has parents, and at least once.
-/
import Mathlib
import MerkleBuffer.Proofs.Buffer.Cascade
import MerkleBuffer.Proofs.Database.Reordered
import MerkleBuffer.Proofs.ParentCounts

namespace MerkleBuffer

namespace Buffer

variable {b : Buffer} {root h : Hash}

/-- How often a dereference of `root` lets go of a hash when the nodes in `r` are removed:
once if it is the root, and for each explicit reference and each slot of these nodes. -/
def letGo (b : Buffer) (root : Hash) (r : Finset Hash) (h : Hash) : Nat :=
  (if h = root then 1 else 0) + ∑ p ∈ r, b.pointers p h

/-- A set of staged nodes that contains each staged node which is let go of as often as it
has counted parents, and at least once. -/
def Undermined (b : Buffer) (root : Hash) (r : Finset Hash) : Prop :=
  r ⊆ b.staged ∧ ∀ h ∈ b.staged, max 1 (b.parentsOf h) ≤ b.letGo root r h → h ∈ r

theorem drops_eq_letGo (hw : b.WellFormed) (hh : h ∈ b.table) (r : Finset Hash) :
    b.drops {root} r h = b.letGo root r h := by
  have hz : h ≠ Hash.zero := fun heq => hw.zero_not_mem (heq ▸ hh)
  have hsum : ∑ p ∈ r, (b.refs p).count h = ∑ p ∈ r, b.pointers p h :=
    Finset.sum_congr rfl fun p _ => count_refs hw hz p
  rw [drops, letGo, hsum, Multiset.count_singleton]

theorem closedUnderRelease_iff (hw : b.WellFormed) {r : Finset Hash} :
    b.ClosedUnderRelease {root} r ↔ b.Undermined root r := by
  constructor
  · intro hr
    refine ⟨hr.staged, fun h hh hle => hr.closed h hh ?_⟩
    rwa [drops_eq_letGo hw (mem_staged.1 hh)]
  · intro hr
    refine ⟨hr.1, fun h hh hle => hr.2 h hh ?_⟩
    rwa [← drops_eq_letGo hw (mem_staged.1 hh)]

/-- The meta-root is no node, so letting go of it changes nothing. -/
theorem dereference_zero (hw : b.WellFormed) : b.dereference Hash.zero = b := by
  have hunpin : b.unpin Hash.zero = b := by
    rw [unpin, if_neg hw.zero_not_pinned, release]
    split
    · rw [release]
    · next e he => exact absurd (Table.mem_iff_getElem?.2 ⟨e, he⟩) hw.zero_not_mem
  have hcontains : ¬ (Hash.zero ∉ b.pins ∧ b.table.contains Hash.zero) := fun hc =>
    hw.zero_not_mem (Std.ExtTreeMap.contains_iff_mem.1 hc.2)
  have hsize : b.stats.gcSize + (b.payloadSize - b.payloadSize) = b.stats.gcSize := by
    have hlt := b.stats.gcSize.lt_max
    ext
    rw [ByteSize.bytes_add, ByteSize.bytes_sub]
    omega
  simp only [dereference, hunpin, if_neg hcontains, Nat.sub_self, Nat.add_zero, hsize]

/-- What a dereference of `root` can have come to, in one order or another: a buffer, and
the hashes that are still to be let go of. -/
def Releases (b : Buffer) (root : Hash) (c : Buffer) (pending : Multiset Hash) : Prop :=
  Relation.ReflTransGen ReleaseStep (b.cut root, {root}) (c, pending)

end Buffer

section Runs

variable {σ : Type}

theorem Database.buffer_dereference {db : Database σ} (hw : db.buffer.WellFormed) (root : Hash) :
    (db.dereference root).2.buffer = db.buffer.dereference root := by
  unfold Database.dereference
  split
  · next hz => rw [Hash.isZero_iff.1 hz, Buffer.dereference_zero hw]
  · rfl

variable [KeyValueStore σ]

/-- **A dereference does not depend on the order in which children are gone through**, and
always ends. In any state of any run, whatever write failed and in whatever order the maps
came: a release that lets go of any one of the pending hashes at each step has an end,
which it reaches only when none is pending, and then the buffer, with the counters brought
up to date, is the one that the dereference leaves, in all its parts. The nodes that are
removed are the least undermined set; each other node has as many parents less as it was
let go of; and the clamped dereferences go up by the removed nodes that had counted no
parent. -/
theorem release_order (disk : σ) (config : Config) (hv : config.Valid) {db : Database (Faulty σ)}
    (hr : ReachableReordered (.ofValid (.reliable disk) config hv) db) (root : Hash) :
    let b := db.buffer
    let after := (db.dereference root).2.buffer
    let gone := b.staged \ after.staged
    (WellFounded fun s t => Buffer.ReleaseStep t s) ∧
      (∀ c pending, b.Releases root c pending → pending ≠ 0 → ∃ s, Buffer.ReleaseStep (c, pending) s) ∧
      (∀ c, b.Releases root c 0 → b.tallied root c = after) ∧
      IsLeast {r | b.Undermined root r} gone ∧ after.staged = b.staged \ gone ∧
      (∀ h ∈ after.staged, after.parentsOf h + b.letGo root gone h = b.parentsOf h) ∧
      after.stats.clampedDereferences =
        b.stats.clampedDereferences + (gone.filter fun h => b.parentsOf h = 0).card := by
  intro b after gone
  have hw : b.WellFormed := hr.wellFormed .empty
  have hafter : after = b.dereference root := Database.buffer_dereference hw root
  have hgone : gone = b.removed root := by rw [Buffer.removed, ← hafter]
  obtain ⟨hleast, hmem, hcounts, -, -⟩ := Buffer.removed_spec hw.linked root
  have hclamped := congrArg Stats.clampedDereferences (Buffer.stats_dereference hw.linked root)
  rw [← hafter] at hmem hcounts hclamped
  rw [hgone]
  refine ⟨Buffer.wellFounded_releaseStep, fun c pending _ => Buffer.exists_releaseStep c, fun c hrun => ?_, ?_, ?_,
    fun h hh => ?_, hclamped⟩
  · rw [hafter]
    exact Buffer.tallied_of_run hw.linked hrun
  · simp only [Buffer.closedUnderRelease_iff hw] at hleast
    exact hleast
  · ext h
    rw [Finset.mem_sdiff, Buffer.mem_staged, Buffer.mem_staged, hmem]
  · have hmem' := (hmem h).1 (Buffer.mem_staged.1 hh)
    rw [← Buffer.drops_eq_letGo hw hmem'.1]
    exact hcounts h (Buffer.mem_staged.1 hh)

end Runs

/-- Two nodes that reference each other. The first one also holds a blob twice, which a
fourth node holds as well, and a slot of the second one points to a node that was staged
later and has not counted it. -/
def circle : List (Option Nat × Command) :=
  [(none, .insertBlob (.filled 3) [7]), (none, .insert (.filled 2) [8, 9] (.trie (.extension [] (.filled 5)))),
    (none, .insertBlob (.filled 1) [1]), (none, .insertBlob (.filled 4) [2]), (none, .insertBlob (.filled 5) [6]),
    (none, .reference (.filled 2) (.filled 1)), (none, .reference (.filled 1) (.filled 2)),
    (none, .reference (.filled 3) (.filled 1)), (none, .reference (.filled 3) (.filled 1)),
    (none, .reference (.filled 3) (.filled 4))]

/-- The circle is removed with what its slot points to, and the blob is left with one
parent of three. -/
theorem release_order_circle :
    let db := (Database.new (.reliable MemoryStore.empty)).runAll circle
    let after := (db.dereference (.filled 1)).2.buffer
    IsLeast {r | db.buffer.Undermined (.filled 1) r} {.filled 1, .filled 2, .filled 5} ∧
      after.table.keys = [.filled 3, .filled 4] ∧ db.buffer.parentsOf (.filled 3) = 3 ∧
      after.parentsOf (.filled 3) = 1 ∧ after.stats.clampedDereferences = 1 ∧
      ∀ c, db.buffer.Releases (.filled 1) c 0 → db.buffer.tallied (.filled 1) c = after := by
  intro db after
  have hall : AllAllowed (fun _ _ => True) (Database.new (.reliable MemoryStore.empty)) circle := by
    simp [AllAllowed, circle]
  have hreach : Reachable (fun _ _ => True) (Database.new (.reliable MemoryStore.empty)) db := Reachable.start.runAll hall
  obtain ⟨-, -, hruns, hleast, -, hcounts, hclamped⟩ :=
    release_order MemoryStore.empty Config.standard Config.valid_standard hreach.reordered (.filled 1)
  have hkeys : after.table.keys = [.filled 3, .filled 4] := by cbv
  have hstaged : after.staged = {.filled 3, .filled 4} := by
    rw [Buffer.staged, hkeys]
    decide
  have hgone : db.buffer.staged \ (db.dereference (.filled 1)).2.buffer.staged = {.filled 1, .filled 2, .filled 5} := by
    rw [hstaged]
    decide +kernel
  rw [hgone] at hleast hcounts hclamped
  have hparents : db.buffer.parentsOf (.filled 3) = 3 := by decide +kernel
  have hletGo : db.buffer.letGo (.filled 1) {.filled 1, .filled 2, .filled 5} (.filled 3) = 2 := by decide +kernel
  have hleft : after.parentsOf (.filled 3) + _ = _ := hcounts (.filled 3) (hstaged ▸ by decide)
  rw [hletGo, hparents] at hleft
  exact ⟨hleast, hkeys, hparents, by omega, hclamped.trans (by decide +kernel), hruns⟩

end MerkleBuffer
