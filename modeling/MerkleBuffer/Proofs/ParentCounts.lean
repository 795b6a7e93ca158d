/-
Parent counts are exact, as long as parents are staged after their children.

Capping and committing drop nodes without a word to their children, and still no
count is ever too high: a node leaves only when all its staged children have
left before it. The order of staging carries this over caps, and the walk below
a root over commits, also when a write fails between two batches.
-/
import MerkleBuffer.Proofs.Database.Runs
import MerkleBuffer.Store.Memory

namespace MerkleBuffer

namespace Buffer

variable {b b' : Buffer}

/-- How often a staged node points to a hash: by explicit references, and by the
slots of the node. -/
def pointers (b : Buffer) (p h : Hash) : Nat :=
  match b.table[p]? with
  | none => 0
  | some e => (e.edges.getD []).count h + e.node.childHashes.count h

theorem count_refs (hw : b.WellFormed) {h : Hash} (hz : h ≠ Hash.zero) (p : Hash) :
    (b.refs p).count h = b.pointers p h := by
  rw [pointers]
  split
  · next hnone =>
    rw [refs_of_not_mem (Table.not_mem_iff_getElem?.2 hnone)]
    rfl
  · next e he =>
    have hembedded : e.embedded.count h = e.node.childHashes.count h :=
      List.count_filter (by simpa [Hash.isZero] using hz)
    rw [refs_of_getElem? he, Staged.references, List.count_append, Edges.count_expand (hw.edges p e he).nodup,
      hembedded]

/-- The invariant: the counts are exact, no release has found one at zero, and
children are older than their parents. -/
structure Counted (b : Buffer) : Prop where
  wellFormed : b.WellFormed
  older : b.ChildrenOlder
  exact : Exact b []
  clamped : b.stats.clampedDereferences = 0

theorem Counted.empty : Counted empty where
  wellFormed := .empty
  older p c h := by simpa [Buffer.empty] using h.2
  exact h hh := by simp [Buffer.empty] at hh
  clamped := rfl

/-- Dropping nodes children first keeps the invariant. -/
theorem Counted.discards {hs : List Hash} (hc : b.Counted) (hfirst : ChildrenFirst b.Points [] hs)
    (hclamped : b'.stats.clampedDereferences = b.stats.clampedDereferences) (hsame : SameNodes (b.discards hs) b') :
    b'.Counted where
  wellFormed := hsame.wellFormed (hc.wellFormed.discards hs)
  older := by
    obtain ⟨hr, hl⟩ := Remnant.discards hc.wellFormed.linked hs
    exact hsame.childrenOlder (hc.older.remnant hr hc.wellFormed.linked hl)
  exact := hsame.exact (hc.exact.discards hfirst fun h hh => by cases hh)
  clamped := hclamped.trans hc.clamped

end Buffer

section Runs

variable {σ : Type} [KeyValueStore σ]

/-- A command that keeps to the order of staging, where no node is pointed to by
2^32 edges. -/
structure Orderly (db : Database (Faulty σ)) (c : Command) : Prop where
  /-- A hash is staged before anything points to it, its own node included -/
  staged : ∀ h size node, c.staging? = some (h, size, node) → h ∉ db.buffer.table →
    db.buffer.held h = 0 ∧ h ∉ node.kids
  /-- An explicit reference leads from a node to one that was staged before it -/
  referenced : ∀ child parent, c = .reference child parent → parent ≠ Hash.zero → child ≠ parent →
    child ∈ db.buffer.table → parent ∈ db.buffer.table → Before db.buffer.flushOrder child parent
  dereferenced : ∀ root, c = .dereference root → root ∈ db.buffer.pins
  counted : ∀ h ∈ db.buffer.staged, (c.run db).buffer.held h < 2 ^ 32

/-- **An orderly command keeps the counts exact.** -/
theorem counted_run {db : Database (Faulty σ)} {c : Command} (ho : Orderly db c) (hc : db.buffer.Counted)
    (he : Buffer.Effect db.buffer c (c.run db).buffer) : (c.run db).buffer.Counted := by
  have hroom : Buffer.HasRoom db.buffer (c.run db).buffer :=
    hc.exact.hasRoom fun h hh => ho.counted h (Buffer.mem_staged.2 hh)
  have hw := he.wellFormed hc.wellFormed
  generalize (c.run db).buffer = b' at he hroom hw ⊢
  cases he with
  | same hclamped hsame =>
    exact ⟨hw, hsame.childrenOlder hc.older, hsame.exact hc.exact, hclamped.trans hc.clamped⟩
  | @insert _ h size node hstaging _ hh =>
    obtain ⟨hnone, hself⟩ := ho.staged h size node hstaging hh
    refine ⟨hw, hc.older.insert hc.wellFormed.linked hh hnone hself, hc.exact.insert hh hroom hnone hself, ?_⟩
    rw [(Buffer.insert_frame ..).2.1]
    exact hc.clamped
  | @reference child parent _ =>
    have hbefore := ho.referenced child parent rfl
    refine ⟨hw, hc.older.reference hc.wellFormed.linked hbefore, hc.exact.reference hroom, ?_⟩
    rw [Buffer.stats_reference]
    exact hc.clamped
  | @dereference root _ =>
    obtain ⟨hx, hclamped⟩ := hc.exact.dereference hc.wellFormed.pins_nodup (ho.dereferenced root rfl)
    obtain ⟨hr, hl, -⟩ := Buffer.remnant_dereference hc.wellFormed.linked root
    exact ⟨hw, hc.older.remnant hr hc.wellFormed.linked hl, hx, hclamped.trans hc.clamped⟩
  | cap holdest hclamped hsame =>
    exact hc.discards (hc.older.childrenFirst hc.wellFormed.linked holdest) hclamped hsame
  | @commit root hs _ hfirst hclamped hsame =>
    have hacyc := hc.older.acyclic hc.wellFormed.linked
    have hall := (Buffer.subtree_spec hc.wellFormed hacyc root).2.1
    obtain ⟨rest, hrest⟩ := hfirst
    rw [← hrest] at hall
    exact hc.discards (ChildrenFirst.append.1 hall).1 hclamped hsame

/-- **Parent counts are exact.** In every state of a run of orderly commands, the
count of a staged node is the number of explicit references and slots of staged
nodes that point to it, and one more if it is pinned; and no release has ever
found a count at zero. -/
theorem parent_counts_exact (disk : σ) (config : Config) (hv : config.Valid) {db : Database (Faulty σ)}
    (hr : Reachable Orderly (.ofValid (.reliable disk) config hv) db) :
    (∀ h ∈ db.buffer.table, (db.parentCount h).map UInt32.toNat
      = some (∑ p ∈ db.buffer.staged, db.buffer.pointers p h + if h ∈ db.buffer.pins then 1 else 0)) ∧
    db.stats.clampedDereferences = 0 := by
  have hc : db.buffer.Counted := hr.buffer .empty fun db c ho hc he => counted_run ho hc he
  refine ⟨fun h hh => ?_, hc.clamped⟩
  have hz : h ≠ Hash.zero := fun heq => hc.wellFormed.zero_not_mem (heq ▸ hh)
  have hsum : ∑ p ∈ db.buffer.staged, db.buffer.pointers p h = db.buffer.edgesTo h :=
    Finset.sum_congr rfl fun p _ => (Buffer.count_refs hc.wellFormed hz p).symm
  obtain ⟨e, he⟩ := Table.mem_iff_getElem?.1 hh
  have hexact := hc.exact h hh
  rw [Buffer.parentsOf_of_getElem? he, List.count_nil, Nat.add_zero] at hexact
  rw [hsum, Database.parentCount, if_neg (mt Hash.isZero_iff.1 hz), he]
  exact congrArg some hexact

end Runs

/-- A leaf in two slots of a pinned branch that references it once more, and a cap
that cannot write. -/
def doubledLeaf : List (Option Nat × Command) :=
  [(none, .insertBlob (.filled 1) [7]),
    (none, .insert (.filled 2) [8]
      (.trie (((TrieNode.bareBranch []).withChild 0 (.hash (.filled 1))).withChild 1 (.hash (.filled 1))))),
    (none, .reference (.filled 1) (.filled 2)), (none, .reference (.filled 2) Hash.zero),
    (some 0, .cap ByteSize.zero)]

theorem parent_counts_exact_doubledLeaf :
    ((Database.new (.reliable MemoryStore.empty)).runAll doubledLeaf).parentCount (.filled 1) = some 3 ∧
      (((Database.new (.reliable MemoryStore.empty)).runAll doubledLeaf).parentCount (.filled 1)).map UInt32.toNat
        = some (∑ p ∈ ((Database.new (.reliable MemoryStore.empty)).runAll doubledLeaf).buffer.staged,
          ((Database.new (.reliable MemoryStore.empty)).runAll doubledLeaf).buffer.pointers p (.filled 1)
          + if .filled 1 ∈ ((Database.new (.reliable MemoryStore.empty)).runAll doubledLeaf).buffer.pins
            then 1 else 0) := by
  have horderly : AllAllowed Orderly (Database.new (.reliable MemoryStore.empty)) doubledLeaf := by
    refine ⟨⟨?_, nofun, nofun, by decide +kernel⟩, ⟨?_, nofun, nofun, by decide +kernel⟩,
      ⟨nofun, ?_, nofun, by decide +kernel⟩, ⟨nofun, ?_, nofun, by decide +kernel⟩,
      ⟨nofun, nofun, nofun, by decide +kernel⟩, trivial⟩
    · rintro _ _ _ ⟨⟩ _
      decide +kernel
    · rintro _ _ _ ⟨⟩ _
      decide +kernel
    · rintro _ _ ⟨⟩ _ _ _ _
      unfold Before
      decide +kernel
    · rintro _ _ ⟨⟩ hz
      exact absurd rfl hz
  have hcounts := parent_counts_exact MemoryStore.empty Config.standard Config.valid_standard
    (Reachable.start.runAll horderly)
  exact ⟨by decide +kernel, hcounts.1 _ (by decide +kernel)⟩

end MerkleBuffer
