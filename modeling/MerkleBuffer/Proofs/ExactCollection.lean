/-
Where parent counts are exact, a dereference collects what only its root kept alive.

Counting and reachability come to the same on a graph without circles. What can be
reached from a pin that is left, or from a node that counted nobody, is kept: an edge
from a kept node is one that the removed nodes do not let go of. All else is removed:
a node that is left counts something that holds it, a pin or a node that is left, and
the way up ends.
-/
import Mathlib
import MerkleBuffer.Proofs.Buffer.Cascade
import MerkleBuffer.Proofs.Buffer.Excess
import MerkleBuffer.Proofs.ParentCounts

namespace MerkleBuffer

namespace Buffer

open Relation (ReflTransGen)

variable {b : Buffer} {root h k p q : Hash}

/-- Each staged node has counted the explicit references and the slots of staged nodes
that point to it, and its pin. -/
def CountsExact (b : Buffer) : Prop :=
  ∀ h ∈ b.staged, b.parentsOf h = ∑ p ∈ b.staged, b.pointers p h + if h ∈ b.pins then 1 else 0

theorem countsExact_iff (hw : b.WellFormed) : b.CountsExact ↔ Exact b [] := by
  have hheld : ∀ h ∈ b.table, ∑ p ∈ b.staged, b.pointers p h = b.edgesTo h := by
    intro h hh
    have hz : h ≠ Hash.zero := fun heq => hw.zero_not_mem (heq ▸ hh)
    exact Finset.sum_congr rfl fun p _ => (count_refs hw hz p).symm
  constructor
  · intro hx h hh
    rw [hx h (mem_staged.2 hh), hheld h hh]
    rfl
  · intro hx h hh
    rw [hx h (mem_staged.1 hh), hheld h (mem_staged.1 hh)]
    rfl

/-! ## What is kept -/

/-- Whatever holds a removed node is let go of. -/
theorem Exact.held_le_of_removed (hx : Exact b []) (hl : b.Linked b.flushOrder) (hk : k ∈ b.removed root) :
    max 1 (b.held k) ≤ (if k = root then 1 else 0) + ∑ p ∈ b.removed root, (b.refs p).count k := by
  obtain ⟨hleast, -⟩ := removed_spec hl root
  have hle := le_drops_of_isLeast hleast hk
  have hcount := hx k (mem_staged.1 (hleast.1.staged hk))
  rwa [hcount, drops, Multiset.count_singleton] at hle

theorem sum_removed_le (b : Buffer) (root k : Hash) : ∑ p ∈ b.removed root, (b.refs p).count k ≤ b.edgesTo k :=
  Finset.sum_le_sum_of_subset Finset.sdiff_subset

theorem Exact.keeps_pinned (hx : Exact b []) (hl : b.Linked b.flushOrder) (hq : q ∈ b.pins) (hne : q ≠ root) :
    q ∉ b.removed root := by
  intro hgone
  have hle := hx.held_le_of_removed hl hgone
  have hsum := sum_removed_le b root q
  rw [held, if_pos hq, if_neg hne] at hle
  omega

theorem Exact.keeps_uncounted (hx : Exact b []) (hl : b.Linked b.flushOrder) (hroot : root ∈ b.pins)
    (hq : q ∈ b.table) (hzero : b.parentsOf q = 0) : q ∉ b.removed root := by
  intro hgone
  have hle := hx.held_le_of_removed hl hgone
  have hsum := sum_removed_le b root q
  have hheld := hx q hq
  rw [hzero, List.count_nil, held] at hheld
  have hpin : q ∉ b.pins := fun hq => by
    rw [if_pos hq] at hheld
    omega
  have hne : q ≠ root := fun heq => hpin (heq ▸ hroot)
  rw [if_neg hne] at hle
  omega

/-- What a kept node points to is kept: this edge is not let go of. -/
theorem Exact.keeps_child (hx : Exact b []) (hl : b.Linked b.flushOrder) (hroot : root ∈ b.pins)
    (hp : p ∉ b.removed root) (hpk : b.Points p k) : k ∉ b.removed root := by
  intro hgone
  have hle := hx.held_le_of_removed hl hgone
  have hedge : (b.refs p).count k + ∑ q ∈ b.removed root, (b.refs q).count k ≤ b.edgesTo k := by
    rw [← Finset.sum_insert (f := fun q => (b.refs q).count k) hp]
    exact Finset.sum_le_sum_of_subset (Finset.insert_subset (mem_staged.2 hpk.mem) Finset.sdiff_subset)
  have hpos := List.count_pos_iff.2 hpk.1
  have hpin : (if k = root then 1 else 0) ≤ (if k ∈ b.pins then 1 else 0) := by
    split
    · next heq => rw [if_pos (heq ▸ hroot)]
    · exact Nat.zero_le _
  rw [held] at hle
  omega

/-- What is kept alive by something else than the pin on `root`. -/
def KeptWithout (b : Buffer) (root h : Hash) : Prop :=
  ∃ q ∈ b.table, (q ∈ b.pins.erase root ∨ b.parentsOf q = 0) ∧ ReflTransGen b.Points q h

theorem Exact.keeps (hx : Exact b []) (hw : b.WellFormed) (hroot : root ∈ b.pins) (hh : b.KeptWithout root h) :
    h ∉ b.removed root := by
  obtain ⟨q, hq, hsource, hpath⟩ := hh
  induction hpath with
  | refl =>
    rcases hsource with hpin | hzero
    · obtain ⟨hne, hpin⟩ := hw.pins_nodup.mem_erase_iff.1 hpin
      exact hx.keeps_pinned hw.linked hpin hne
    · exact hx.keeps_uncounted hw.linked hroot hq hzero
  | tail _ hpk ih => exact hx.keeps_child hw.linked hroot ih hpk

/-! ## What is removed -/

/-- A node that counts nobody afterwards had counted nobody before. -/
theorem parentsOf_eq_zero_of_dereference (hl : b.Linked b.flushOrder) (hh : h ∈ (b.dereference root).table)
    (hzero : (b.dereference root).parentsOf h = 0) : b.parentsOf h = 0 := by
  obtain ⟨hleast, hmem, hcounts, -⟩ := removed_spec hl root
  have hcount := hcounts h hh
  obtain ⟨hstaged, hkept⟩ := (hmem h).1 hh
  by_contra hpos
  exact hkept (hleast.1.closed h (mem_staged.2 hstaged) (by omega))

/-- Every node that is left can be reached from what is kept alive. -/
theorem Exact.kept_of_mem (hx : Exact b []) (hw : b.WellFormed) (hacyc : b.Acyclic) (hroot : root ∈ b.pins)
    (hh : h ∈ (b.dereference root).table) : b.KeptWithout root h := by
  obtain ⟨hremnant, -, hpins, -⟩ := remnant_dereference hw.linked root
  have hafter := (hx.dereference hw.pins_nodup hroot).1
  have hall : ∀ x : { x // x ∈ b.staged }, x.1 ∈ (b.dereference root).table → b.KeptWithout root x.1 := by
    intro x
    induction x using hacyc.wellFounded.induction with
    | _ x ih =>
      intro hleft
      have hmem : x.1 ∈ b.table := mem_staged.1 x.2
      have hcount := hafter x.1 hleft
      rw [List.count_nil, Nat.add_zero, held, hpins] at hcount
      by_cases hzero : (b.dereference root).parentsOf x.1 = 0
      · exact ⟨x.1, hmem, .inr (parentsOf_eq_zero_of_dereference hw.linked hleft hzero), .refl⟩
      by_cases hpin : x.1 ∈ b.pins.erase root
      · exact ⟨x.1, hmem, .inl hpin, .refl⟩
      -- it counts something, and that is an edge of a node that is left
      have hedges : (b.dereference root).edgesTo x.1 ≠ 0 := by
        rw [if_neg hpin] at hcount
        omega
      obtain ⟨p, hp⟩ : ∃ p, x.1 ∈ (b.dereference root).refs p := by
        by_contra hno
        exact hedges (edgesTo_eq_zero.2 fun p hp => hno ⟨p, hp⟩)
      have hpleft : p ∈ (b.dereference root).table := mem_of_mem_refs hp
      have hpx : b.Points p x.1 := hremnant.points ⟨hp, hleft⟩
      obtain ⟨q, hq, hsource, hpath⟩ := ih ⟨p, mem_staged.2 hpx.mem⟩ (.single hpx) hpleft
      exact ⟨q, hq, hsource, hpath.tail hpx⟩
  exact hall ⟨h, mem_staged.2 (hremnant.mem hh)⟩ hh

theorem Accounted.freed (ha : b.Accounted) (hl : b.Linked b.flushOrder) (root : Hash) :
    b.payloadSize - (b.dereference root).payloadSize =
      ByteSize.ofNat (∑ h ∈ b.removed root, b.measure Staged.payloadBytes h) := by
  obtain ⟨hremnant, -⟩ := remnant_dereference hl root
  have hsubset : (b.dereference root).staged ⊆ b.staged := fun k hk => mem_staged.2 (hremnant.mem (mem_staged.1 hk))
  have hleft : (b.dereference root).sumOf Staged.payloadBytes =
      ∑ h ∈ (b.dereference root).staged, b.measure Staged.payloadBytes h := by
    refine Finset.sum_congr rfl fun k hk => ?_
    obtain ⟨e', he'⟩ := Table.mem_iff_getElem?.1 (mem_staged.1 hk)
    obtain ⟨e, he, -, hsize, -⟩ := hremnant.entry k e' he'
    rw [measure_of_getElem? he, measure_of_getElem? he']
    exact congrArg (Hash.size + ·) hsize
  have hsplit : ∑ h ∈ b.removed root, b.measure Staged.payloadBytes h + (b.dereference root).sumOf Staged.payloadBytes =
      b.sumOf Staged.payloadBytes := by
    rw [hleft]
    exact Finset.sum_sdiff hsubset
  have hbefore := ha.payload
  have hafter := (ha.dereference root).payload
  have hlt := b.payloadSize.lt_max
  ext
  rw [ByteSize.bytes_sub, ByteSize.bytes_ofNat_of_lt (by omega)]
  omega

end Buffer

/-- **A dereference collects exactly what only its root kept alive.** In a well-formed
state with exact counts and sizes and without circles, and for a pinned root, a node is
staged afterwards just if it can be reached, from one staged node to the next, from a
hash that is still pinned or from a node that counted no parent. Such a node keeps its
encoding, its size, its explicit references and its place in the order of staging. The
counts are exact again, the pin is gone, the counters of collected nodes and bytes go up
by what was removed, and no release is clamped. -/
theorem dereference_collects_exactly {σ : Type} {db : Database σ} (hw : db.buffer.WellFormed)
    (ha : db.buffer.Accounted) (hx : db.buffer.CountsExact) (hacyc : db.buffer.Acyclic) {root : Hash}
    (hroot : root ∈ db.buffer.pins) :
    let b := db.buffer
    let after := (db.dereference root).2.buffer
    let gone := b.staged \ after.staged
    (db.dereference root).1 = .ok () ∧
      (∀ h, h ∈ after.table ↔ ∃ q ∈ b.table, (q ∈ after.pins ∨ b.parentsOf q = 0) ∧
        Relation.ReflTransGen b.Points q h) ∧
      (∀ (h : Hash) (e' : Staged), after.table[h]? = some e' → ∃ e : Staged, b.table[h]? = some e ∧
        e'.node = e.node ∧ e'.size = e.size ∧ e'.edges = e.edges) ∧
      after.flushOrder = b.flushOrder.filter (· ∈ after.table) ∧
      after.CountsExact ∧ root ∉ after.pins ∧ after.pins = b.pins.erase root ∧
      after.stats.gcNodes = b.stats.gcNodes + gone.card ∧
      after.stats.gcSize = b.stats.gcSize + ByteSize.ofNat (∑ h ∈ gone, b.measure Staged.payloadBytes h) ∧
      after.stats.clampedDereferences = b.stats.clampedDereferences := by
  intro b after gone
  have hz : ¬ root.isZero = true := fun hz => hw.zero_not_pinned (Hash.isZero_iff.1 hz ▸ hroot)
  have hrun : db.dereference root = (.ok (), { db with buffer := b.dereference root }) := by
    rw [Database.dereference, if_neg hz]
  have hafter : after = b.dereference root := congrArg (fun x => x.2.buffer) hrun
  have hexact : Buffer.Exact b [] := (Buffer.countsExact_iff hw).1 hx
  obtain ⟨hexact', hclamped⟩ := hexact.dereference hw.pins_nodup hroot
  obtain ⟨hremnant, -, hpins, -⟩ := Buffer.remnant_dereference hw.linked root
  obtain ⟨-, hmem, -, horder, -⟩ := Buffer.removed_spec hw.linked root
  have hstats := Buffer.stats_dereference hw.linked root
  have hgone : gone = b.removed root := by rw [Buffer.removed, ← hafter]
  rw [hgone, hafter]
  refine ⟨congrArg Prod.fst hrun, fun h => ?_, hremnant.entry, ?_, ?_, ?_, hpins, ?_, ?_, hclamped⟩
  · rw [hpins]
    refine ⟨fun hh => hexact.kept_of_mem hw hacyc hroot hh, fun hh => (hmem h).2 ⟨?_, hexact.keeps hw hroot hh⟩⟩
    obtain ⟨q, hq, -, hpath⟩ := hh
    rcases hpath.cases_tail with rfl | ⟨p, -, hph⟩
    · exact hq
    · exact hph.2
  · rw [horder]
    refine List.filter_congr fun h hh => ?_
    rw [decide_eq_decide, hmem]
    exact ⟨fun hkept => ⟨(hw.linked.mem_iff h).1 hh, hkept⟩, fun hboth => hboth.2⟩
  · exact (Buffer.countsExact_iff (hw.dereference root)).2 hexact'
  · rw [hpins, hw.pins_nodup.mem_erase_iff]
    exact fun hboth => hboth.1 rfl
  · rw [hstats]
  · rw [hstats, ← ha.freed hw.linked root]

/-- Two pinned roots. The first one holds a branch twice, and a blob twice that nothing
else holds. The branch holds a pinned blob in two slots, and shares another blob with the
second root. -/
def sharedBelow : List (Option Nat × Command) :=
  [(none, .insertBlob (.filled 1) [7]), (none, .insertBlob (.filled 2) [8, 8]), (none, .insertBlob (.filled 6) [9]),
    (none, .insert (.filled 3) [1, 2, 3]
      (.trie ((((TrieNode.bareBranch []).withChild 0 (.hash (.filled 1))).withChild 1 (.hash (.filled 1))).withChild 2
        (.hash (.filled 2))))),
    (none, .insert (.filled 4) [4] (.trie (.extension [] (.filled 3)))),
    (none, .insert (.filled 5) [5] (.trie (.extension [] (.filled 2)))),
    (none, .reference (.filled 3) (.filled 4)), (none, .reference (.filled 6) (.filled 4)),
    (none, .reference (.filled 6) (.filled 4)), (none, .reference (.filled 4) Hash.zero),
    (none, .reference (.filled 5) Hash.zero), (none, .reference (.filled 1) Hash.zero)]

/-- The first root goes with the branch and its own blob: three nodes, whose encodings
have five bytes. -/
theorem dereference_collects_exactly_sharedBelow :
    let db := (Database.new (.reliable MemoryStore.empty)).runAll sharedBelow
    let after := (db.dereference (.filled 4)).2.buffer
    .filled 4 ∈ db.buffer.pins ∧ after.flushOrder = [.filled 1, .filled 2, .filled 5] ∧ after.CountsExact ∧
      db.buffer.parentsOf (.filled 1) = 3 ∧ after.parentsOf (.filled 1) = 1 ∧ after.stats.gcNodes = 3 ∧
      after.stats.gcSize.bytes = 3 * 32 + 5 := by
  intro db after
  have hall : AllAllowed (fun _ _ => True) (Database.new (.reliable MemoryStore.empty)) sharedBelow := by
    simp [AllAllowed, sharedBelow]
  have hreach : Reachable (fun _ _ => True) (Database.new (.reliable MemoryStore.empty)) db :=
    Reachable.start.runAll hall
  have hw : db.buffer.WellFormed := hreach.wellFormed .empty
  have ha : db.buffer.Accounted := ⟨by decide +kernel, by decide +kernel, by decide +kernel⟩
  have hx : db.buffer.CountsExact := by
    unfold Buffer.CountsExact
    decide +kernel
  have hacyc : db.buffer.Acyclic := by
    refine Buffer.ChildrenOlder.acyclic (fun p c hpc => ?_) hw.linked
    have hbefore : ∀ p ∈ db.buffer.staged, ∀ c ∈ db.buffer.refs p, [c, p].Sublist db.buffer.flushOrder := by
      decide +kernel
    exact hbefore p (Buffer.mem_staged.2 hpc.mem) c hpc.1
  have hroot : .filled 4 ∈ db.buffer.pins := by decide +kernel
  obtain ⟨-, -, -, -, hexact, -, -, hnodes, hsize, -⟩ := dereference_collects_exactly hw ha hx hacyc hroot
  have hkeys : after.table.keys = [.filled 1, .filled 2, .filled 5] := by cbv
  have hstaged : after.staged = {.filled 1, .filled 2, .filled 5} := by
    rw [Buffer.staged, hkeys]
    decide
  have hgone : db.buffer.staged \ (db.dereference (.filled 4)).2.buffer.staged = {.filled 4, .filled 3, .filled 6} := by
    rw [hstaged]
    decide +kernel
  rw [hgone] at hnodes hsize
  refine ⟨hroot, ?_, hexact, by decide +kernel, ?_, hnodes.trans (by decide +kernel), ?_⟩
  · cbv
  · cbv
  · rw [hsize]
    decide +kernel

end MerkleBuffer
