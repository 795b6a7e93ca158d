/-
No node leaves the buffer before it is stored.

A cap or a commit may fail at any of its writes. What was staged before is then
staged as it was or in the store, and the memory tells exactly which: a cap that
fails has evicted nothing, and a commit that fails has evicted the nodes of the
batches that were written.
-/
import Mathlib
import MerkleBuffer.Proofs.Database.Recorded
import MerkleBuffer.Store.Frame

namespace MerkleBuffer

namespace Buffer

variable {b b' : Buffer}

theorem SameNodes.nodeAt? (hs : SameNodes b b') (h : Hash) : b'.nodeAt? h = b.nodeAt? h := by
  rw [Buffer.nodeAt?, Buffer.nodeAt?, hs.table]

end Buffer

section Runs

variable {σ : Type} [KeyValueStore σ]

/-- Each node that was staged is staged as it was, or it is gone and the store holds
its encoding. -/
def KeptOrStored (db after : Database (Faulty σ)) : Prop :=
  ∀ (h : Hash) (e : Staged), db.buffer.nodeAt? h = some e → after.buffer.nodeAt? h = some e ∨
    h ∉ after.buffer.table ∧ KeyValueStore.get after.disk h.bytes = .ok (some e.node.encode)

/-- Exactly the nodes of the batches that were written are gone. The others stand in
their order, and the pins, the preimages and the counters are as they were. -/
structure EvictedWritten (db after : Database (Faulty σ)) : Prop where
  evicted : ∃ batches, after.disk.journal = db.disk.journal ++ batches ∧
    ∀ h ∈ db.buffer.table, h ∉ after.buffer.table ↔ ∃ batch ∈ batches, ∃ p ∈ batch, p.key = h.bytes
  order : after.flushOrder = db.flushOrder.filter after.contains
  pins : after.buffer.pins = db.buffer.pins
  preimages : after.buffer.preimages = db.buffer.preimages
  preimagesSize : after.buffer.preimagesSize = db.buffer.preimagesSize
  stats : after.buffer.stats = db.buffer.stats

/-- Whatever write of a cap or a commit fails, all that was staged is kept or stored.
A cap that fails leaves the memory as it was, and a commit that fails has evicted
what it has written. -/
structure Database.WritesFirst (db : Database (Faulty σ)) : Prop where
  kept : ∀ f : Flush, KeptOrStored db (f.run db).2
  cap : ∀ limit e after, db.cap limit = (.error e, after) → after = { db with disk := after.disk }
  commit : ∀ root e after, db.commit root = (.error e, after) → EvictedWritten db after

/-- Caps and commits write before they evict, in every state of every run that
stages each hash with the bytes it stands for. -/
def WritesBeforeEvicting (content : Hash → Bytes) (start : Database (Faulty σ)) : Prop :=
  ∀ db, Reachable (Truthful content) start db → ∀ writes, (db.allowing writes).WritesFirst

/-! ## Any outcome -/

theorem Faithful.keptOrStored [LawfulStore σ] {content : Hash → Bytes} {ps : List Put} {db : Database (Faulty σ)}
    (hf : Faithful content ps db) (f : Flush) : KeptOrStored db (f.run db).2 := by
  obtain ⟨written, gone, hafter, -, hgone, hsame, -⟩ := hf.flush f
  intro h e he
  by_cases hh : h ∈ gone.map (·.1)
  · right
    obtain ⟨x, hx, rfl⟩ := List.mem_map.1 hh
    obtain ⟨hget, hwritten⟩ := hgone x hx
    rw [Buffer.nodeAt?_of_getElem? hget] at he
    cases he
    refine ⟨fun hmem => ?_, ?_⟩
    · rw [hsame.table] at hmem
      exact ((Buffer.mem_discards _ _ _).1 hmem).1 hh
    · have hnode : x.2.unlinked.node.encode = content x.1 := hf.node x.1 x.2 hget
      rw [hnode]
      refine hafter.get ?_
      rw [nodeHashes_append]
      exact List.mem_append_right _ hwritten
  · left
    rw [hsame.nodeAt?, Buffer.nodeAt?_discards, if_neg hh]
    exact he

/-! ## Failures -/

theorem Database.cap_failed {db after : Database σ} {limit : ByteSize} {e : Error}
    (h : db.cap limit = (.error e, after)) : after = { db with disk := after.disk } := by
  obtain ⟨_, _, disk, -, -, hcases⟩ := db.cap_outcome limit
  rw [h] at hcases
  rcases hcases with ⟨e', heq⟩ | ⟨-, heq⟩
  · rw [(Prod.mk.inj heq).2]
  · cases heq

theorem Database.commit_failed {db after : Database (Faulty σ)} {root : Hash} {e : Error} (hw : db.buffer.WellFormed)
    (h : db.commit root = (.error e, after)) : EvictedWritten db after := by
  obtain ⟨written, rest, disk₁, gone, left, disk, cleans, hputs, hwrote, hsub, hwrote', -, hcases⟩ :=
    db.commit_outcome root
  rw [h] at hcases
  rcases hcases with ⟨e', heq⟩ | ⟨-, -, -, heq⟩
  · rw [(Prod.mk.inj heq).2]
    obtain ⟨-, -, batches, hjournal, hflatten⟩ := Faulty.wrote_store (hwrote.trans hwrote')
    obtain ⟨hpins, hstats, hpreimages⟩ := db.buffer.discards_frame (gone.map (·.1))
    have hmem := Buffer.mem_discards db.buffer (gone.map (·.1))
    have hkeys : ∀ h : Hash, (∃ batch ∈ batches, ∃ p ∈ batch, p.key = h.bytes) ↔ h ∈ gone.map (·.1) := by
      intro h
      obtain ⟨pre, -, -, rfl, -⟩ := List.map_eq_append_iff.1 hputs
      have hnodes : nodeHashes batches.flatten = gone.map (·.1) := by
        rw [hflatten, nodeHashes_append, Flush.nodeHashes_preimagePuts, nodeHashes_nodePuts, List.nil_append]
      rw [← hnodes, mem_nodeHashes]
      simp only [List.mem_flatten]
      tauto
    exact {
      evicted := ⟨batches, hjournal, fun h hh => by simp [hkeys h, hmem h, hh]⟩
      order := by
        rw [Database.flushOrder, Buffer.flushOrder_discards hw.linked]
        refine List.filter_congr fun k hk => ?_
        have hleft : k ∈ (db.buffer.discards (gone.map (·.1))).table ↔ k ∉ gone.map (·.1) := by
          simp [hmem k, hw.mem_flushOrder.1 hk]
        rw [Database.contains, Bool.eq_iff_iff, decide_eq_true_iff, Std.ExtTreeMap.contains_iff_mem]
        exact hleft.symm
      pins := hpins
      preimages := hpreimages
      preimagesSize := Buffer.discards_induct (I := fun c => c.preimagesSize = db.buffer.preimagesSize)
        (fun c k _ hc => (c.sizes_discard k).2.2.trans hc) rfl
      stats := hstats }
  · cases heq

theorem writesBeforeEvicting_of_holds [LawfulStore σ] {disk : σ} (hdisk : LawfulStore.Holds disk [])
    (content : Hash → Bytes) (config : Config) (hv : config.Valid) :
    WritesBeforeEvicting content (.ofValid (.reliable disk) config hv) := by
  intro db hreach writes
  obtain ⟨ps, hf⟩ := hreach.faithful (.start hdisk config hv)
  have hf' := hf.allowing writes
  exact ⟨hf'.keptOrStored, fun _ _ _ h => Database.cap_failed h, fun _ _ _ h => Database.commit_failed hf'.wellFormed h⟩

end Runs

/-- **Write before evict, at every failure point**, over a store in memory and over a
store file that start empty. -/
theorem writes_before_evicting [FrameCodec] (content : Hash → Bytes) (config : Config) (hv : config.Valid) :
    WritesBeforeEvicting content (.ofValid (.reliable MemoryStore.empty) config hv) ∧
      WritesBeforeEvicting content (.ofValid (.reliable RecordLog.create) config hv) :=
  ⟨writesBeforeEvicting_of_holds MemoryStore.holds_empty content config hv,
    writesBeforeEvicting_of_holds RecordLog.holds_create content config hv⟩

/-- Settings under which every node is a batch of its own, without a clean cache. -/
def nodeByNode : Config := { Config.withoutCleanCache with idealBatchSize := 1 }

theorem nodeByNode_valid : nodeByNode.Valid := by decide

/-- A database over an empty store that writes node by node. -/
def nodeByNodeStart : Database (Faulty MemoryStore) :=
  .ofValid (.reliable MemoryStore.empty) nodeByNode nodeByNode_valid

/-- A blob and a pinned node over it. -/
def leafAndRoot : List (Option Nat × Command) :=
  [(none, .insertBlob (.filled 1) [7]), (none, .insert (.filled 2) [8] (.trie (.extension [] (.filled 1)))),
    (none, .reference (.filled 2) Hash.zero)]

/-- The outcome of a commit that can write the blob and not its parent. -/
def interrupted : Outcome (Faulty MemoryStore) Unit :=
  (Flush.commit (.filled 2)).run ((nodeByNodeStart.runAll leafAndRoot).allowing (some 2))

theorem interrupted_fails : ∃ e, interrupted = (.error e, interrupted.2) := by
  have hfails : interrupted.1.isOk = false := by cbv
  cases hf : interrupted.1 with
  | error e => exact ⟨e, Outcome.eq_mk hf⟩
  | ok u => rw [hf] at hfails; cases hfails

/-- The bytes of the blob and of its parent. -/
def leafBytes (h : Hash) : Bytes :=
  if h = .filled 1 then [7] else (Node.trie (.extension [] (.filled 1))).encode

/-- The blob is stored and gone, and its parent is as it was. -/
theorem writes_before_evicting_leafAndRoot :
    let db := (nodeByNodeStart.runAll leafAndRoot).allowing (some 2)
    interrupted.2.contains (.filled 1) = false ∧ EvictedWritten db interrupted.2 ∧
      KeyValueStore.get interrupted.2.disk (Hash.filled 1).bytes = .ok (some [7]) ∧
      interrupted.2.buffer.nodeAt? (.filled 2) = db.buffer.nodeAt? (.filled 2) := by
  have hgone : interrupted.2.contains (.filled 1) = false := by cbv
  have hleft : interrupted.2.contains (.filled 2) = true := by cbv
  intro db
  have htruthful : AllAllowed (Truthful leafBytes) nodeByNodeStart leafAndRoot := by
    refine ⟨?_, ?_, ?_, trivial⟩ <;> intro h size node hc _ <;> cases hc
    · decide
    · decide
  have hfirst := (writes_before_evicting leafBytes nodeByNode nodeByNode_valid).1 _
    (Reachable.start.runAll htruthful) (some 2)
  have hkept : KeptOrStored db interrupted.2 := hfirst.kept (.commit (.filled 2))
  obtain ⟨e, hfails⟩ := interrupted_fails
  have hblob : (db.buffer.nodeAt? (.filled 1)).map (·.node.encode) = some [7] := by decide +kernel
  obtain ⟨leaf, hleaf, hencode⟩ := Option.map_eq_some_iff.1 hblob
  have hroot : (db.buffer.nodeAt? (.filled 2)).isSome = true := by decide +kernel
  obtain ⟨root, hroot⟩ := Option.isSome_iff_exists.1 hroot
  refine ⟨hgone, hfirst.commit (.filled 2) e _ hfails, ?_, ?_⟩
  · rcases hkept _ leaf hleaf with hsame | ⟨-, hget⟩
    · have hmem := Std.ExtTreeMap.contains_iff_mem.2 (Buffer.mem_iff_nodeAt?.2 ⟨leaf, hsame⟩)
      rw [Database.contains, hmem] at hgone
      cases hgone
    · rwa [hencode] at hget
  · rcases hkept _ root hroot with hsame | ⟨hno, -⟩
    · exact hsame.trans hroot.symm
    · exact absurd (Std.ExtTreeMap.contains_iff_mem.1 hleft) hno

end MerkleBuffer
