/-
Structural reads agree with raw ones.

A node is read as its encoding or in structural form. Both reads ask the clean cache, the
buffer and the store in this order, but a trie node that is staged has no encoding at
hand: one read encodes it, and the other hands it out as it is. That these are two forms
of one node rests on the codec. In which of the three a node is found, under which hash
it was staged and what is wrong with it makes no difference.
-/
import Mathlib
import MerkleBuffer.Proofs.Database.Recorded
import MerkleBuffer.Proofs.Trie.Codec
import MerkleBuffer.Store.Memory

namespace MerkleBuffer

/-- A node each of whose byte strings is shorter than 2^64 bytes, as all in memory are. A
blob is not encoded, so it may have any length. -/
def Node.Writable : Node → Prop
  | .raw _ => True
  | .trie node => node.Writable

/-- Decoding what is written for a node gives its structural form, or the fault of a blob
that has none. -/
theorem Node.decode_encode {node : Node} (h : node.Writable) : TrieNode.decode node.encode = node.toTrie := by
  cases node with
  | raw blob => rfl
  | trie node =>
    have hdecode := TrieNode.decode_encode_append h []
    rwa [List.append_nil] at hdecode

/-! ## What is staged can be written -/

/-- A command that stages, if it stages anything, a node that can be written. -/
def Command.Writable (c : Command) : Prop :=
  ∀ h size node, c.staging? = some (h, size, node) → node.Writable

/-- Every staged node can be written. -/
def Buffer.Writable (b : Buffer) : Prop :=
  ∀ (h : Hash) (e : Staged), b.table[h]? = some e → e.node.Writable

theorem Buffer.writable_empty : Buffer.empty.Writable := by
  intro h e he
  simp [Buffer.empty] at he

theorem Buffer.Effect.writable {b b' : Buffer} {c : Command} (he : Buffer.Effect b c b') (hw : b.WellFormed)
    (hc : c.Writable) (hb : b.Writable) : b'.Writable := by
  intro h e' he'
  rcases he.entry hw he' with ⟨e, hstaged, hnode⟩ | ⟨size, node, hstaging, -, hnode⟩
  · rw [hnode]
    exact hb h e hstaged
  · rw [hnode]
    exact hc h size node hstaging

section Reads

variable {σ : Type} [KeyValueStore σ]

theorem Reachable.writable {start db : Database (Faulty σ)} (hr : Reachable (fun _ c => c.Writable) start db)
    (hw : start.buffer.WellFormed) (hb : start.buffer.Writable) : db.buffer.Writable := by
  have hboth : db.buffer.WellFormed ∧ db.buffer.Writable :=
    hr.buffer (I := fun b => b.WellFormed ∧ b.Writable) ⟨hw, hb⟩
      fun _ c hc hI he => ⟨he.wellFormed hI.1, he.writable hI.1 hc hI.2⟩
  exact hboth.2

/-! ## One case for each place a node is found in -/

namespace Database

variable (db : Database σ) (h : Hash)

/-- A node that comes from the store is decoded, and a load that fails keeps its error. -/
theorem trieNode_load :
    (match db.load h with
      | (.error e, after) => ((.error e, after) : Outcome σ TrieNode)
      | (.ok encoded, after) => (decoded encoded, after)) = ((db.load h).1.bind decoded, (db.load h).2) := by
  rcases db.load h with ⟨loaded, after⟩
  cases loaded with
  | error e => rfl
  | ok encoded => rfl

/-- **A structural read decodes what a raw read finds**, and leaves the same database, if
what is staged can be written. -/
theorem trieNode_eq_decoded (hb : db.buffer.Writable) :
    db.trieNode h = ((db.node h).1.bind decoded, (db.node h).2) := by
  unfold trieNode node
  by_cases hz : h.isZero
  · rw [if_pos hz, if_pos hz]
    rfl
  rw [if_neg hz, if_neg hz]
  cases hcached : db.cached? h with
  | some hit => rfl
  | none =>
    cases hstaged : db.buffer.table[h]? with
    | none => exact db.trieNode_load h
    | some e =>
      have hform : decoded e.node.encode = e.node.toTrie.mapError .encoding := by
        rw [decoded, Node.decode_encode (hb h e hstaged)]
      simp only [Except.bind, hform]

end Database

/-- **Structural and raw reads agree.** In every state of every run, over any store and
with or without a clean cache, whatever hashes nodes were staged under and whatever the
store answers by now: reading a trie node gives the node, or the error, that decoding
the encoding of the node gives, and the database is the same after both reads, its clean
cache included. -/
theorem structural_reads_agree (disk : Faulty σ) (config : Config) (hv : config.Valid) {db : Database (Faulty σ)}
    (hr : Reachable (fun _ c => c.Writable) (.ofValid disk config hv) db) (now : Faulty σ) (h : Hash) :
    let reader := { db with disk := now }
    reader.trieNode h = ((reader.node h).1.bind Database.decoded, (reader.node h).2) := by
  intro reader
  have hb : reader.buffer.Writable := hr.writable .empty Buffer.writable_empty
  exact reader.trieNode_eq_decoded h hb

end Reads

/-- A leaf, staged under a hash that is not its digest, in the clean cache and in the
store, another one in the buffer, and bytes that encode no node, in the buffer and in
the store. -/
def threePlaces : List (Option Nat × Command) :=
  [(none, .insert (.filled 1) [] (.trie (.valueLeaf [1] [2]))), (none, .commit (.filled 1)),
    (none, .insertBlob (.filled 2) [9]), (none, .cap ByteSize.zero),
    (none, .insert (.filled 3) [] (.trie (.extension [3] (.filled 1)))), (none, .insertBlob (.filled 4) [])]

theorem structural_reads_agree_threePlaces :
    let db := (Database.new (.reliable MemoryStore.empty)).runAll threePlaces
    let broken := { db with disk := { Faulty.reliable MemoryStore.empty with failReads := true } }
    (db.trieNode (.filled 1)).1 = .ok (.valueLeaf [1] [2]) ∧
      (db.trieNode (.filled 2)).1 = .error (.encoding .endOfInput) ∧
      (db.trieNode (.filled 2)).2.cleans = (db.node (.filled 2)).2.cleans ∧
      (db.trieNode (.filled 3)).1 = .ok (.extension [3] (.filled 1)) ∧
      (db.trieNode (.filled 4)).1 = .error (.encoding .endOfInput) ∧
      (broken.trieNode (.filled 2)).1 = .error (Faulty.injected "read") := by
  intro db broken
  have hio : (broken.node (.filled 2)).1 = .error (Faulty.injected "read") := by cbv
  have hall : AllAllowed (fun _ c => c.Writable) (Database.new (.reliable MemoryStore.empty)) threePlaces := by
    refine ⟨?_, ?_, ?_, ?_, ?_, ?_, trivial⟩ <;> intro h size node hstaging <;> cases hstaging
    · exact ⟨by decide, show 1 < Codec.maxLength by decide⟩
    · trivial
    · exact ⟨by decide, trivial⟩
    · trivial
  have hread := structural_reads_agree (.reliable MemoryStore.empty) Config.standard Config.valid_standard
    (Reachable.start.runAll hall)
  have hsound : ∀ h, db.trieNode h = ((db.node h).1.bind Database.decoded, (db.node h).2) := hread db.disk
  have hbroken : ∀ h, broken.trieNode h = ((broken.node h).1.bind Database.decoded, (broken.node h).2) :=
    hread broken.disk
  rw [hsound, hsound, hsound, hsound, hbroken, hio]
  refine ⟨?_, ?_, rfl, ?_, ?_, rfl⟩
  all_goals cbv

end MerkleBuffer
