/-
Nothing that is pinned, staged or stored is lost, nor anything below it, as long
as no count of parents wraps.

In a run of careful commands over an empty store, in which any write may fail,
all nodes that can be reached from such a hash can be read, from the buffer or
from the store. After a commit that succeeded, all nodes below its root are in
the store. Careful commands leave room in the counts, also for the edges of nodes
that were written and dropped, which a count does not forget. It is not enough
that the edges there are can be counted (`child_lost_when_count_wraps`).
-/
import Mathlib
import MerkleBuffer.Proofs.WrappedCount
import MerkleBuffer.Store.Frame

namespace MerkleBuffer

open Relation (ReflTransGen)

section Runs

variable {σ : Type} [KeyValueStore σ]

/-- Runs of careful commands from `start` lose nothing: whatever can be reached
from a hash that is pinned, staged or stored is staged or stored, and reads as
what its hash stands for; and whatever can be reached from a root that was staged
or stored is in the store after a commit of the root that succeeds. -/
def NothingLost (content : Hash → Node) (start : Database (Faulty σ)) : Prop :=
  ∀ db, Reachable (Careful content) start db →
    (∀ h, h ∈ db.buffer.pins ∨ h ∈ db.buffer.table ∨ db.Stored h → ∀ d, ReflTransGen (Embeds content) h d →
      (d ∈ db.buffer.table ∨ db.Stored d) ∧ (db.node d).1 = .ok (content d).encode) ∧
    ∀ writes root, db.buffer.Acyclic → root ∈ db.buffer.table ∨ db.Stored root →
      ((db.allowing writes).commit root).1 = .ok () → ∀ d, ReflTransGen (Embeds content) root d →
        KeyValueStore.get ((db.allowing writes).commit root).2.disk d.bytes = .ok (some (content d).encode)

variable [LawfulStore σ] {content : Hash → Node} {ps : List Put}

theorem Intact.reads {db : Database (Faulty σ)} (hi : Intact content ps db) {h d : Hash}
    (hh : h ∈ db.buffer.pins ∨ h ∈ db.buffer.table ∨ db.Stored h) (hd : ReflTransGen (Embeds content) h d) :
    (d ∈ db.buffer.table ∨ db.Stored d) ∧ (db.node d).1 = .ok (content d).encode := by
  have hstart : h ∈ db.buffer.table ∨ h ∈ nodeHashes ps := by
    rcases hh with hpin | hmem | hstored
    · exact hi.mem_of_pinned hpin
    · exact .inl hmem
    · exact .inr (hi.stored_iff.1 hstored)
  have hend := hi.mem_of_reachable hstart hd
  exact ⟨hend.imp_right hi.stored_iff.2, hi.node hend⟩

theorem Intact.reads_committed {db : Database (Faulty σ)} (hi : Intact content ps db) {root d : Hash}
    (hacyc : db.buffer.Acyclic) (hroot : root ∈ db.buffer.table ∨ db.Stored root)
    (hok : (db.commit root).1 = .ok ()) (hd : ReflTransGen (Embeds content) root d) :
    KeyValueStore.get (db.commit root).2.disk d.bytes = .ok (some (content d).encode) := by
  obtain ⟨qs, hafter, hwrites⟩ := hi.commit hacyc root
  have hwritten : root ∈ nodeHashes (ps ++ qs) := by
    rw [nodeHashes_append, List.mem_append]
    exact hroot.symm.imp hi.stored_iff.1 (hwrites hok)
  exact hafter.get (hafter.mem_of_written hwritten hd)

theorem nothingLost_of_holds {disk : σ} (hdisk : LawfulStore.Holds disk []) (content : Hash → Node)
    (config : Config) (hv : config.Valid) : NothingLost content (.ofValid (.reliable disk) config hv) := by
  intro db hr
  obtain ⟨ps, hi⟩ := hr.intact (.start hdisk config hv)
  exact ⟨fun h hh d hd => hi.reads hh hd, fun writes root hacyc hroot hok d hd =>
    (hi.allowing writes).reads_committed hacyc hroot hok hd⟩

end Runs

/-- **No live node is ever lost** while the counts have room, over a store in memory
and over a store file that start empty. -/
theorem nothing_lost [FrameCodec] (content : Hash → Node) (config : Config) (hv : config.Valid) :
    NothingLost content (.ofValid (.reliable MemoryStore.empty) config hv) ∧
      NothingLost content (.ofValid (.reliable RecordLog.create) config hv) :=
  ⟨nothingLost_of_holds MemoryStore.holds_empty content config hv,
    nothingLost_of_holds RecordLog.holds_create content config hv⟩

/-- **A node is lost below a pin when a count wraps.** Fewer than 2^32 edges and pins hold any
node after any command of this run, and in the end a pinned node is staged whose child can be
read nowhere. -/
theorem child_lost_when_count_wraps :
    let start := Database.ofValid (Faulty.reliable MemoryStore.empty) Config.withoutCleanCache (by decide)
    let db := start.runAll losingBlob
    AllAllowed (EdgeBounded overNewestBlob) start losingBlob ∧
      Hash.filled 3 ∈ db.buffer.pins ∧ Hash.filled 3 ∈ db.buffer.table ∧
      Embeds overNewestBlob (.filled 3) (.filled 2) ∧ Hash.filled 2 ∉ db.buffer.table ∧ ¬ db.Stored (.filled 2) ∧
      (db.node (.filled 2)).1 = .error (.notFound (.node (.filled 2))) := by
  obtain ⟨hall, hforsaken, ps, hfront, hnever⟩ := losingBlob_spec MemoryStore.holds_empty fun _ => trivial
  have hedge : Embeds overNewestBlob (.filled 3) (.filled 2) := by
    unfold Embeds
    decide
  exact ⟨hall, hforsaken.pinned, (hforsaken.mem_iff _).2 rfl, hedge,
    hforsaken.unreadable hfront hnever (by decide) (by decide)⟩

/-- Every hash but that of one blob stands for a node that leads to the blob. -/
def overBlob (h : Hash) : Node := if h = .filled 1 then .raw [7] else .trie (.extension [] (.filled 1))

/-- The blob is staged, and a pinned node over it; then a cap cannot write. -/
def pinnedNode : List (Option Nat × Command) :=
  [(none, .insertBlob (.filled 1) [7]), (none, .insert (.filled 2) [8] (.trie (.extension [] (.filled 1)))),
    (none, .reference (.filled 2) Hash.zero), (some 0, .cap ByteSize.zero)]

/-- Then both are stored, and another node is staged over the blob. -/
def storedBlob : List (Option Nat × Command) :=
  pinnedNode ++ [(none, .cap ByteSize.zero), (none, .insert (.filled 3) [9] (.trie (.extension [] (.filled 1))))]

theorem forall_kids_extension {P : Hash → Prop} {h : Hash} (hh : P h) :
    ∀ k ∈ (Node.trie (.extension [] h)).kids, P k := by
  intro k hk
  simp only [Node.kids, Node.childHashes, TrieNode.childHashes, TrieNode.extension, Slot.target?,
    Option.toList_some, List.mem_filter, List.mem_singleton] at hk
  exact hk.1 ▸ hh

/-- In memory, the blob reads below a pin whose node is stored; in a file, it is
stored with the node over it. -/
theorem nothing_lost_overBlob :
    let db := (Database.new (.reliable MemoryStore.empty)).runAll storedBlob
    let file := (Database.new (.reliable RecordLog.create)).runAll pinnedNode
    db.contains (.filled 1) = false ∧ (db.node (.filled 1)).1 = .ok [7] ∧
      KeyValueStore.get ((file.allowing none).commit (.filled 2)).2.disk (Hash.filled 1).bytes =
        .ok (some [7]) := by
  intro db file
  obtain ⟨hmemory, hfile⟩ := nothing_lost overBlob Config.standard Config.valid_standard
  have hcareful : AllAllowed (Careful overBlob) (Database.new (.reliable MemoryStore.empty)) storedBlob := by
    refine ⟨⟨.of_staging rfl rfl (List.forall_mem_nil _), nofun, by decide +kernel⟩,
      ⟨.of_staging rfl rfl (forall_kids_extension (.inl ?_)), nofun, by decide +kernel⟩,
      ⟨.of_quiet rfl (by simp), nofun, by decide +kernel⟩, .cap _ _ _, .cap _ _ _,
      ⟨.of_staging rfl rfl (forall_kids_extension (.inr ⟨[7], ?_⟩)), nofun, by decide +kernel⟩, trivial⟩
    · decide +kernel
    · decide +kernel
  have hcareful' : AllAllowed (Careful overBlob) (Database.new (.reliable RecordLog.create)) pinnedNode := by
    refine ⟨⟨.of_staging rfl rfl (List.forall_mem_nil _), nofun, by decide +kernel⟩,
      ⟨.of_staging rfl rfl (forall_kids_extension (.inl ?_)), nofun, by decide +kernel⟩,
      ⟨.of_quiet rfl (by simp), nofun, by decide +kernel⟩, .cap _ _ _, trivial⟩
    decide +kernel
  have hreach := Reachable.start.runAll hcareful'
  have holder : file.buffer.ChildrenOlder := fun p c hpc =>
    (by decide +kernel : ∀ p ∈ file.buffer.staged, ∀ c ∈ file.buffer.refs p, [c, p].Sublist file.buffer.flushOrder)
      p (Buffer.mem_staged.2 hpc.mem) c hpc.1
  have hacyc := holder.acyclic (hreach.wellFormed .empty).linked
  have hedge : ReflTransGen (Embeds overBlob) (.filled 2) (.filled 1) := by
    refine .single ?_
    unfold Embeds
    decide
  have hok : ((((Database.new (.reliable RecordLog.create)).runAll pinnedNode).allowing none).commit (.filled 2)).1 =
      .ok () := by cbv
  have hpin : Hash.filled 2 ∈ db.buffer.pins := by decide +kernel
  have hmem : Hash.filled 2 ∈ file.buffer.table := by decide +kernel
  have hread := (hmemory db (Reachable.start.runAll hcareful)).1 (.filled 2) (.inl hpin) (.filled 1) hedge
  have hget := (hfile file hreach).2 none (.filled 2) hacyc (.inl hmem) hok (.filled 1) hedge
  exact ⟨by decide +kernel, hread.2, hget⟩

end MerkleBuffer
