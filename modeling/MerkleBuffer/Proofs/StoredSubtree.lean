/-
A commit stores what its root leads to, once and from below, and nothing else.

The nodes below a root may be shared at several depths, may be stored in part, and their
explicit references may run in circles and come in any order. A commit that meets no
failure writes each staged node below its root once, behind all of its children but those
that lead back to it, and the rest of the buffer is as it was.
-/
import Mathlib
import MerkleBuffer.Proofs.Database.CommitWalk
import MerkleBuffer.Proofs.Database.Flushes
import MerkleBuffer.Proofs.Database.Reordered

namespace MerkleBuffer

section Runs

variable {σ : Type} [KeyValueStore σ] {db after : Database (Faulty σ)} {root : Hash}

/-- A database before and after all the staged nodes that can be reached from `root` were
stored: `nodes`, in this order. -/
structure StoredSubtree (db after : Database (Faulty σ)) (root : Hash) (nodes : List (Hash × Staged)) : Prop where
  mem_iff : ∀ h, h ∈ nodes.map (·.1) ↔ root ∈ db.buffer.table ∧ Relation.ReflTransGen db.buffer.Points root h
  nodup : (nodes.map (·.1)).Nodup
  staged : ∀ x ∈ nodes, db.buffer.table[x.1]? = some x.2
  /-- A child comes first, unless it leads back to its parent -/
  before : ∀ p ∈ nodes.map (·.1), ∀ c, db.buffer.Points p c → ¬ Relation.ReflTransGen db.buffer.Points c p →
    Before (nodes.map (·.1)) c p
  /-- Batches of preimages were written, and then batches of these nodes. No other key is
  the hash of a node. -/
  written : ∃ preimages batches, after.disk.journal = db.disk.journal ++ (preimages ++ batches) ∧
    preimages.flatten = db.buffer.preimages.map Database.preimagePut ∧
    batches.flatten = nodes.map Database.nodePut ∧ nodeHashes (preimages ++ batches).flatten = nodes.map (·.1)
  entry : ∀ h, after.buffer.nodeAt? h = if h ∈ nodes.map (·.1) then none else db.buffer.nodeAt? h
  order : after.flushOrder = db.flushOrder.filter (· ∉ nodes.map (·.1))
  pins : after.buffer.pins = db.buffer.pins
  preimages : after.buffer.preimages = []
  preimagesSize : after.buffer.preimagesSize = ByteSize.zero
  stats : after.stats = { Stats.zero with
    clampedDereferences := db.stats.clampedDereferences
    unpinnedDereferences := db.stats.unpinnedDereferences }

theorem Database.commit_succeeded (hw : db.buffer.WellFormed) (h : db.commit root = (.ok (), after)) :
    StoredSubtree db after root (db.buffer.subtree root) := by
  obtain ⟨written, rest, disk₁, gone, left, disk, cleans, hputs, hpreimages, hsub, hnodes, -, hcases⟩ :=
    db.commit_outcome root
  rw [h] at hcases
  rcases hcases with ⟨e, heq⟩ | ⟨-, rfl, rfl, heq⟩
  · cases heq
  obtain rfl := (Prod.mk.inj heq).2
  rw [List.append_nil] at hputs hsub
  obtain ⟨-, -, batches₁, hjournal₁, hflatten₁⟩ := Faulty.wrote_store hpreimages
  obtain ⟨-, -, batches, hjournal, hflatten⟩ := Faulty.wrote_store hnodes
  obtain ⟨hpins, hstats, -⟩ := db.buffer.discards_frame (gone.map (·.1))
  obtain ⟨hentry, hfirst, -⟩ := Buffer.subtree_order hw root
  have hsame : Buffer.SameNodes (db.buffer.discards (gone.map (·.1)))
      (db.buffer.discards (gone.map (·.1))).committed := ⟨rfl, rfl, rfl, rfl⟩
  have hmem : ∀ h, h ∈ db.buffer.below root ↔ _ := fun _ => Buffer.mem_below hw
  have hnodup := db.buffer.nodup_below root
  simp only [Buffer.below] at hmem hnodup
  rw [hsub] at hentry hfirst hmem hnodup ⊢
  have hkeys : nodeHashes (batches₁ ++ batches).flatten = gone.map (·.1) := by
    rw [List.flatten_append, hflatten₁, ← hputs, hflatten, nodeHashes_append, Flush.nodeHashes_preimagePuts,
      nodeHashes_nodePuts, List.nil_append]
  exact {
    mem_iff := hmem
    nodup := hnodup
    staged := hentry
    before := fun p hp c hpc hback => hfirst.before hp ⟨hpc, hback⟩
    written := ⟨batches₁, batches, by rw [hjournal, hjournal₁, List.append_assoc], hflatten₁.trans hputs.symm,
      hflatten, hkeys⟩
    entry := fun k => by rw [← Buffer.nodeAt?_discards, Buffer.nodeAt?, Buffer.nodeAt?, hsame.table]
    order := hsame.flushOrder.trans (Buffer.flushOrder_discards hw.linked _)
    pins := hpins
    preimages := rfl
    preimagesSize := rfl
    stats := congrArg Stats.sinceCommit hstats }

/-- **A commit from end to end.** In any state of any run, whatever write failed before and
in whatever order the maps come, a commit of a root other than the meta-root ends with the
subtree stored, unless the store turns down puts of it, and then with the error of the
store. A walk through the buffer while nodes leave it ends in the same way. -/
theorem commit_stores_subtree (disk : σ) (config : Config) (hv : config.Valid)
    (hr : ReachableReordered (.ofValid (.reliable disk) config hv) db) (writes : Option Nat) {b : Buffer}
    (hb : db.buffer.Reordered b) (hroot : root ≠ Hash.zero) :
    let start := Database.allowing { db with buffer := b } writes
    let after := (start.commit root).2
    b.Points = db.buffer.Points ∧ start.commitWalking root = start.commit root ∧
      ((start.commit root).1 = .ok () ∧ StoredSubtree start after root (b.subtree root) ∨
        ∃ e, (start.commit root).1 = .error e ∧
          Database.Refuses after.disk ((Flush.commit root).puts start) e) := by
  intro start after
  have hw : start.buffer.WellFormed := hb.wellFormed (hr.wellFormed .empty)
  refine ⟨hb.points, Database.commitWalking_eq start root, ?_⟩
  cases hcommit : (start.commit root).1 with
  | ok _ => exact .inl ⟨rfl, Database.commit_succeeded hw (Outcome.eq_mk hcommit)⟩
  | error e => exact .inr ⟨e, rfl, Database.commit_refused hroot (Outcome.eq_mk hcommit)⟩

end Runs

/-- A node with explicit references to three others. The first of them references it back
and holds a node that is stored already, the second one holds the third, and a node beside
them references the third as well. -/
def sharedCircle : List (Option Nat × Command) :=
  [(none, .insertBlob (.filled 9) [1]), (none, .cap ByteSize.zero), (none, .insertBlob (.filled 3) [7]),
    (none, .insert (.filled 4) [8] (.trie (.extension [] (.filled 3)))),
    (none, .insert (.filled 2) [9] (.trie (.extension [] (.filled 9)))), (none, .insertBlob (.filled 1) [2]),
    (none, .insertBlob (.filled 5) [3]), (none, .reference (.filled 2) (.filled 1)),
    (none, .reference (.filled 4) (.filled 1)), (none, .reference (.filled 3) (.filled 1)),
    (none, .reference (.filled 1) (.filled 2)), (none, .reference (.filled 3) (.filled 5)),
    (none, .reference (.filled 1) Hash.zero), (none, .insertPreimage (.filled 6) [5])]

/-- Listed from their end, the references are followed in another order. The same nodes are
stored, and the node beside them stays. -/
theorem commit_stores_subtree_sharedCircle :
    let db := (Database.new (.reliable MemoryStore.empty)).runAll sharedCircle
    let start := Database.allowing { db with buffer := db.buffer.reversed } none
    let after := (start.commit (.filled 1)).2
    db.buffer.below (.filled 1) = [.filled 2, .filled 3, .filled 4, .filled 1] ∧
      start.buffer.below (.filled 1) = [.filled 3, .filled 4, .filled 2, .filled 1] ∧
      StoredSubtree start after (.filled 1) (start.buffer.subtree (.filled 1)) ∧ after.flushOrder = [.filled 5] := by
  intro db start after
  have hall : AllAllowed (fun _ _ => True) (Database.new (.reliable MemoryStore.empty)) sharedCircle := by
    simp [AllAllowed, sharedCircle]
  have hreach : Reachable (fun _ _ => True) (Database.new (.reliable MemoryStore.empty)) db :=
    Reachable.start.runAll hall
  obtain ⟨-, -, hend⟩ := commit_stores_subtree MemoryStore.empty Config.standard Config.valid_standard
    hreach.reordered none db.buffer.reordered_reversed (show Hash.filled 1 ≠ Hash.zero by decide)
  have hok : (start.commit (.filled 1)).1.isOk = true := by cbv
  obtain ⟨-, hstored⟩ := hend.resolve_right fun hfail => by
    obtain ⟨e, he, -⟩ := hfail
    rw [he] at hok
    cases hok
  have hbelow : (start.buffer.subtree (.filled 1)).map (·.1) = [.filled 3, .filled 4, .filled 2, .filled 1] := by cbv
  have horder : start.flushOrder = [.filled 3, .filled 4, .filled 2, .filled 1, .filled 5] := by decide +kernel
  have hleft : after.flushOrder =
      start.flushOrder.filter (· ∉ (start.buffer.subtree (.filled 1)).map (·.1)) := hstored.order
  rw [hbelow, horder] at hleft
  exact ⟨by cbv, hbelow, hstored, hleft.trans (by decide)⟩

end MerkleBuffer
