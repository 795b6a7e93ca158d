/-
The counters of nodes and bytes balance.

A node that was staged is staged still, or it was collected, or it was flushed, and each
is counted once. Collecting and flushing are counted by differences that an operation takes
before and after, so what leaves the buffer enters the counters, however many nodes that
are (`Balances.left`). Commits start the counters again; between two of them every command
adds to the books exactly what it newly stages (`Command.balances`), whether it fails or
not.
-/
import Mathlib
import MerkleBuffer.Proofs.Buffer.Cascade
import MerkleBuffer.Proofs.Database.Runs
import MerkleBuffer.Store.Memory

namespace MerkleBuffer

namespace Buffer

variable {b b' c : Buffer} {sizes more : List Nat}

/-- The nodes on the books: those that are staged, were collected, or were flushed. -/
def bookedNodes (b : Buffer) : Nat := b.length + b.stats.gcNodes + b.stats.flushNodes

/-- The bytes on the books: those of the encodings, with their keys, that are staged, were
collected, or were flushed. -/
def bookedBytes (b : Buffer) : Nat :=
  b.sumOf Staged.payloadBytes + b.stats.gcSize.bytes + b.stats.flushSize.bytes

/-- Between `b` and `b'` nodes of these sizes were newly staged, and nothing else was
added to the books or lost from them. -/
structure Balances (b b' : Buffer) (sizes : List Nat) : Prop where
  nodes : b'.bookedNodes = b.bookedNodes + sizes.length
  bytes : b'.bookedBytes = b.bookedBytes + total (sizes.map (Hash.size + ·))

namespace Balances

theorem trans (h₁ : Balances b b' sizes) (h₂ : Balances b' c more) : Balances b c (sizes ++ more) where
  nodes := by rw [h₂.nodes, h₁.nodes, List.length_append, Nat.add_assoc]
  bytes := by rw [h₂.bytes, h₁.bytes, List.map_append, total_append, Nat.add_assoc]

/-- What changes neither the nodes, apart from what holds them, nor the counters changes
nothing on the books. -/
theorem unchanged (hsum : ∀ f : Staged → Nat, (∀ e : Staged, f e.gainParent.unlinked = f e.unlinked) →
      (∀ (e : Staged) child, f (e.addChild child).unlinked = f e.unlinked) → b'.sumOf f = b.sumOf f)
    (hstats : b'.stats = b.stats) : Balances b b' [] := by
  have hlength : b'.length = b.length := by
    have hone := hsum (fun _ => 1) (fun _ => rfl) fun _ _ => rfl
    rwa [sumOf_const, sumOf_const, Nat.one_mul, Nat.one_mul] at hone
  constructor
  · rw [bookedNodes, bookedNodes, hlength, hstats, List.length_nil, Nat.add_zero]
  · rw [bookedBytes, bookedBytes, hsum Staged.payloadBytes (fun _ => rfl) fun _ _ => rfl, hstats]
    rfl

theorem sameNodes (hsame : SameNodes b b') (hstats : b'.stats = b.stats) : Balances b b' [] :=
  unchanged (fun _ _ _ => sumOf_of_table hsame.table) hstats

theorem refl (b : Buffer) : Balances b b [] := sameNodes (.refl b) rfl

theorem reference (b : Buffer) (child parent : Hash) : Balances b (b.reference child parent) [] :=
  unchanged (fun _ hgain hadd => sumOf_reference hgain hadd child parent) (stats_reference b child parent)

theorem insert {h : Hash} (hh : h ∉ b.table) (size : Nat) (node : Node) :
    Balances b (b.insert h size node) [size] := by
  have hstats := (b.insert_frame h size node).2.1
  have hlength : (b.insert h size node).length = b.length + 1 := by
    have hone : (b.insert h size node).sumOf (fun _ => 1) = b.sumOf (fun _ => 1) + 1 :=
      sumOf_insert hh (fun _ _ => rfl) size node
    rwa [sumOf_const, sumOf_const, Nat.one_mul, Nat.one_mul] at hone
  have hbytes : (b.insert h size node).sumOf Staged.payloadBytes = b.sumOf Staged.payloadBytes + (Hash.size + size) :=
    sumOf_insert hh (fun _ _ => rfl) size node
  constructor
  · rw [bookedNodes, bookedNodes, hlength, hstats, List.length_singleton]
    omega
  · rw [bookedBytes, bookedBytes, hbytes, hstats, List.map_singleton, total_cons, total_nil]
    omega

/-- What has left the buffer is no more than what was there. -/
theorem length_le_of_remnant (hr : Remnant b b') : b'.length ≤ b.length := by
  have hone : b'.sumOf (fun _ => 1) ≤ b.sumOf (fun _ => 1) := sumOf_le_of_remnant hr fun _ _ _ => rfl
  rwa [sumOf_const, sumOf_const, Nat.one_mul, Nat.one_mul] at hone

/-- A counter of bytes takes up what has left the buffer. -/
theorem bytes_freed (hp : b.PayloadExact) (hp' : b'.PayloadExact) (hr : Remnant b b') (counter : ByteSize)
    (hroom : b.sumOf Staged.payloadBytes + counter.bytes < UInt64.size) :
    b'.sumOf Staged.payloadBytes + (counter + (b.payloadSize - b'.payloadSize)).bytes =
      b.sumOf Staged.payloadBytes + counter.bytes := by
  have hle : b'.sumOf Staged.payloadBytes ≤ b.sumOf Staged.payloadBytes := sumOf_le_of_remnant hr payloadBytes_congr
  have hfreed : (b.payloadSize - b'.payloadSize).bytes =
      b.sumOf Staged.payloadBytes - b'.sumOf Staged.payloadBytes := by
    rw [ByteSize.bytes_sub, hp, hp']
  rw [ByteSize.bytes_add_of_lt (by omega), hfreed]
  omega

/-- **What a dereference collects stays on the books.** -/
theorem dereference (hp : b.PayloadExact) (hl : b.Linked b.flushOrder) (hroom : b.bookedBytes < UInt64.size)
    (root : Hash) : Balances b (b.dereference root) [] := by
  have hr := (remnant_dereference hl root).1
  have hstats := stats_dereference hl root
  have hlength := length_le_of_remnant hr
  have hgone : b.length - (b.dereference root).length = (b.removed root).card := by
    rw [removed, Finset.card_sdiff_of_subset fun k hk => mem_staged.2 (hr.mem (mem_staged.1 hk)), card_staged,
      card_staged]
  rw [bookedBytes] at hroom
  have hbytes := bytes_freed hp (hp.dereference root) hr b.stats.gcSize (by omega)
  constructor
  · rw [bookedNodes, bookedNodes, hstats]
    dsimp only
    rw [List.length_nil]
    omega
  · rw [bookedBytes, bookedBytes, hstats]
    dsimp only
    rw [hbytes]
    rfl

/-- **What is flushed stays on the books.** -/
theorem discardFlushed (hp : b.PayloadExact) (hl : b.Linked b.flushOrder) (hroom : b.bookedBytes < UInt64.size)
    (nodes : List (Hash × Staged)) : Balances b (b.discardFlushed nodes) [] := by
  have hfold : nodes.foldl (fun b node => b.discard node.1) b = b.discards (nodes.map (·.1)) := by
    rw [Buffer.discards, List.foldl_map]
  have hr := (Remnant.discards hl (nodes.map (·.1))).1
  have hstats := (b.discards_frame (nodes.map (·.1))).2.1
  have hlength := length_le_of_remnant hr
  rw [bookedBytes] at hroom
  have hbytes := bytes_freed hp (hp.discards (nodes.map (·.1))) hr b.stats.flushSize (by omega)
  rw [Buffer.discardFlushed, hfold, hstats]
  constructor
  · show (b.discards (nodes.map (·.1))).length + b.stats.gcNodes +
      (b.stats.flushNodes + (b.length - (b.discards (nodes.map (·.1))).length)) = b.bookedNodes + 0
    rw [bookedNodes]
    omega
  · show (b.discards (nodes.map (·.1))).sumOf Staged.payloadBytes + b.stats.gcSize.bytes +
      (b.stats.flushSize + (b.payloadSize - (b.discards (nodes.map (·.1))).payloadSize)).bytes = b.bookedBytes + 0
    rw [bookedBytes]
    omega

end Balances

end Buffer

/-! ## One command -/

namespace Command

/-- The size of the node that a command stages in a buffer, if it stages one that is not
there yet. -/
def newlyStaged (c : Command) (b : Buffer) : List Nat :=
  match c.staging? with
  | some (h, size, _) => if h = Hash.zero ∨ h ∈ b.table then [] else [size]
  | none => []

def isCommit : Command → Bool
  | commit _ => true
  | _ => false

end Command

namespace Database

variable {σ : Type} {db : Database σ} {limit : ByteSize}

theorem payloadExact_capped (hp : db.buffer.PayloadExact) : (db.capped limit).PayloadExact := by
  unfold capped
  split
  · exact hp
  split
  · exact Buffer.PayloadExact.discardFlushed (b := db.buffer.clearPreimages) hp _
  · exact hp.discardFlushed _

theorem balances_capped (hp : db.buffer.PayloadExact) (hl : db.buffer.Linked db.buffer.flushOrder)
    (hroom : db.buffer.bookedBytes < UInt64.size) : Buffer.Balances db.buffer (db.capped limit) [] := by
  unfold capped
  split
  · exact .refl _
  split
  · have hclear : Buffer.SameNodes db.buffer db.buffer.clearPreimages := ⟨rfl, rfl, rfl, rfl⟩
    exact (Buffer.Balances.sameNodes hclear rfl).trans
      (Buffer.Balances.discardFlushed (b := db.buffer.clearPreimages) hp (hclear.linked hl).self hroom _)
  · exact .discardFlushed hp hl hroom _

end Database

section Steps

variable {σ : Type} [KeyValueStore σ]

/-- Every command, commits included, keeps the counter of encodings exact, if what it
counts is in range afterwards. -/
theorem payloadExact_run (c : Command) (db : Database σ) (hp : db.buffer.PayloadExact)
    (hr : (c.run db).buffer.sumOf Staged.payloadBytes < UInt64.size) : (c.run db).buffer.PayloadExact := by
  have hstaging : ∀ h size node, c.staging? = some (h, size, node) → (c.run db).buffer.PayloadExact := by
    intro h size node hc
    rw [run_staging hc] at hr ⊢
    split at hr
    · rwa [if_pos ‹_›]
    · rw [if_neg ‹_›]
      exact hp.insert hr
  have hlookup : ∀ h, c = .lookup h ∨ c = .lookupTrieNode h → (c.run db).buffer.PayloadExact := by
    intro h hc
    obtain ⟨cleans, heq, -⟩ := run_lookup c h hc db
    rwa [heq]
  cases c with
  | insert h blob node => exact hstaging _ _ _ rfl
  | insertBlob h blob => exact hstaging _ _ _ rfl
  | insertNode node => exact hstaging _ _ _ rfl
  | insertPreimage h preimage =>
    simp only [Command.run, Database.insertPreimage, Buffer.insertPreimage]
    split <;> exact hp
  | reference child parent =>
    simp only [Command.run, Database.reference]
    split
    · exact hp
    · exact hp.reference child parent
  | dereference root =>
    simp only [Command.run, Database.dereference]
    split
    · exact hp
    · exact hp.dereference root
  | cap limit =>
    obtain ⟨_, _, _, -, -, ⟨e, heq⟩ | ⟨-, heq⟩⟩ := db.cap_outcome limit
    · rwa [Command.run, heq]
    · rw [Command.run, heq]
      exact Database.payloadExact_capped hp
  | commit root =>
    obtain ⟨_, _, _, gone, _, _, _, -, -, -, -, -, ⟨e, heq⟩ | ⟨-, -, -, heq⟩⟩ := db.commit_outcome root
    · rw [Command.run, heq]
      exact hp.discards _
    · rw [Command.run, heq]
      exact hp.discards (gone.map (·.1))
  | lookup h => exact hlookup h (.inl rfl)
  | lookupTrieNode h => exact hlookup h (.inr rfl)

/-- **One step of the books.** A command that is no commit adds what it newly stages,
whatever its outcome. -/
theorem Command.balances (c : Command) (db : Database σ) (hc : c.isCommit = false) (hp : db.buffer.PayloadExact)
    (hl : db.buffer.Linked db.buffer.flushOrder) (hroom : db.buffer.bookedBytes < UInt64.size) :
    Buffer.Balances db.buffer (c.run db).buffer (c.newlyStaged db.buffer) := by
  have hstaging : ∀ h size node, c.staging? = some (h, size, node) →
      Buffer.Balances db.buffer (c.run db).buffer (c.newlyStaged db.buffer) := by
    intro h size node hstages
    rw [run_staging hstages, Command.newlyStaged, hstages]
    dsimp only
    by_cases hz : h = Hash.zero
    · rw [if_pos hz, if_pos (.inl hz)]
      exact .refl _
    · by_cases hh : h ∈ db.buffer.table
      · rw [if_neg hz, if_pos (.inr hh), Buffer.insert_of_mem hh]
        exact .refl _
      · rw [if_neg hz, if_neg (by tauto)]
        exact .insert hh size node
  have hlookup : ∀ h, c = .lookup h ∨ c = .lookupTrieNode h → Buffer.Balances db.buffer (c.run db).buffer [] := by
    intro h hc
    obtain ⟨cleans, heq, -⟩ := run_lookup c h hc db
    rw [heq]
    exact .refl _
  cases c with
  | insert h blob node => exact hstaging _ _ _ rfl
  | insertBlob h blob => exact hstaging _ _ _ rfl
  | insertNode node => exact hstaging _ _ _ rfl
  | insertPreimage h preimage =>
    refine .sameNodes (.insertPreimage ..) ?_
    simp only [Command.run, Database.insertPreimage, Buffer.insertPreimage]
    split <;> rfl
  | reference child parent =>
    simp only [Command.run, Database.reference]
    split
    · exact .refl _
    · exact .reference _ child parent
  | dereference root =>
    simp only [Command.run, Database.dereference]
    split
    · exact .refl _
    · exact .dereference hp hl hroom root
  | cap limit =>
    obtain ⟨_, _, _, -, -, ⟨e, heq⟩ | ⟨-, heq⟩⟩ := db.cap_outcome limit
    · rw [Command.run, heq]
      exact .refl _
    · rw [Command.run, heq]
      exact Database.balances_capped hp hl hroom
  | commit root => cases hc
  | lookup h => exact hlookup h (.inl rfl)
  | lookupTrieNode h => exact hlookup h (.inr rfl)

end Steps

/-! ## Runs between commits -/

section Runs

variable {σ : Type} [KeyValueStore σ]

/-- The sizes of the nodes that commands newly stage, one after the other. -/
def Database.newlyStaged (db : Database (Faulty σ)) : List (Option Nat × Command) → List Nat
  | [] => []
  | (writes, c) :: rest => c.newlyStaged db.buffer ++ (c.run (db.allowing writes)).newlyStaged rest

/-- What a run from this buffer adds to the books stays in range. -/
def Buffer.HasRoomFor (b : Buffer) (sizes : List Nat) : Prop :=
  b.bookedBytes + total (sizes.map (Hash.size + ·)) < UInt64.size

/-- **The books of a run.** Induction on the commands: each step needs the room that the
steps before it have left. -/
theorem Database.balances_runAll {cs : List (Option Nat × Command)} {db : Database (Faulty σ)}
    (hcs : ∀ step ∈ cs, step.2.isCommit = false) (hw : db.buffer.WellFormed) (hp : db.buffer.PayloadExact)
    (hroom : db.buffer.HasRoomFor (db.newlyStaged cs)) :
    Buffer.Balances db.buffer (db.runAll cs).buffer (db.newlyStaged cs) ∧ (db.runAll cs).buffer.PayloadExact := by
  induction cs generalizing db with
  | nil => exact ⟨.refl _, hp⟩
  | cons step rest ih =>
    obtain ⟨writes, c⟩ := step
    let next := c.run (db.allowing writes)
    have hsizes : db.newlyStaged ((writes, c) :: rest) = c.newlyStaged db.buffer ++ next.newlyStaged rest := rfl
    rw [Buffer.HasRoomFor, hsizes, List.map_append, total_append] at hroom
    have hstep : Buffer.Balances db.buffer next.buffer (c.newlyStaged db.buffer) :=
      Command.balances c (db.allowing writes) (hcs _ List.mem_cons_self) hp hw.linked
        (Nat.lt_of_le_of_lt (Nat.le_add_right _ _) hroom)
    have hbooked := hstep.bytes
    have hexact : next.buffer.PayloadExact := by
      refine payloadExact_run c (db.allowing writes) hp ?_
      have hle : next.buffer.sumOf Staged.payloadBytes ≤ next.buffer.bookedBytes := by
        rw [Buffer.bookedBytes]
        omega
      exact Nat.lt_of_le_of_lt hle (by omega)
    have hnext : next.buffer.WellFormed := (run_effect c (db.allowing writes)).wellFormed hw
    obtain ⟨hrest, hafter⟩ := ih (fun step hs => hcs step (List.mem_cons_of_mem _ hs)) hnext hexact
      (by rw [Buffer.HasRoomFor]; omega)
    exact ⟨hstep.trans hrest, hafter⟩

/-- Where the counters start: at an opened database, or behind a commit that succeeded,
in a run along which the encodings that are staged are in range. -/
inductive CountersStart (disk : Faulty σ) (config : Config) (hv : config.Valid) : Database (Faulty σ) → Prop
  | opened : CountersStart disk config hv (.ofValid disk config hv)
  | committed {db after : Database (Faulty σ)} {root : Hash} (writes : Option Nat)
      (before : Reachable (fun db c => (c.run db).buffer.sumOf Staged.payloadBytes < UInt64.size)
        (.ofValid disk config hv) db)
      (hcommit : (db.allowing writes).commit root = (.ok (), after)) : CountersStart disk config hv after

theorem Reachable.payloadExact {disk : Faulty σ} {config : Config} {hv : config.Valid} {db : Database (Faulty σ)}
    (hr : Reachable (fun db c => (c.run db).buffer.sumOf Staged.payloadBytes < UInt64.size)
      (.ofValid disk config hv) db) : db.buffer.PayloadExact := by
  induction hr with
  | start => rfl
  | step _ writes c hc ih => exact payloadExact_run c _ ih hc

theorem CountersStart.spec {disk : Faulty σ} {config : Config} {hv : config.Valid} {start : Database (Faulty σ)}
    (hs : CountersStart disk config hv start) :
    start.buffer.WellFormed ∧ start.buffer.PayloadExact ∧ start.buffer.bookedNodes = start.buffer.length ∧
      start.buffer.bookedBytes = start.buffer.sumOf Staged.payloadBytes := by
  cases hs with
  | opened => exact ⟨.empty, rfl, rfl, rfl⟩
  | @committed db _ root writes before hcommit =>
    have hw : db.buffer.WellFormed := before.wellFormed .empty
    obtain ⟨_, _, _, gone, _, _, _, -, -, -, -, -, ⟨e, heq⟩ | ⟨-, -, -, heq⟩⟩ :=
      (db.allowing writes).commit_outcome root
    · rw [heq] at hcommit
      cases hcommit
    · rw [heq] at hcommit
      cases hcommit
      have hsame : Buffer.SameNodes (db.buffer.discards (gone.map (·.1)))
        (db.buffer.discards (gone.map (·.1))).committed := ⟨rfl, rfl, rfl, rfl⟩
      have hexact : (db.buffer.discards (gone.map (·.1))).PayloadExact := before.payloadExact.discards _
      exact ⟨hsame.wellFormed (hw.discards _), hexact, rfl, rfl⟩

/-- **The counters balance.** Since a database was opened, or since its last successful
commit, commands that are no commits have run: nodes were staged, referenced and
dereferenced, pinned or not, and caps have succeeded or failed. Then what is staged,
what was collected and what was flushed are together what was staged at first and what
was staged newly, counted in nodes and counted in bytes, and the bytes are those that
the database counts. -/
theorem counters_balance (disk : Faulty σ) (config : Config) (hv : config.Valid) {start : Database (Faulty σ)}
    (hs : CountersStart disk config hv start) (cs : List (Option Nat × Command))
    (hcs : ∀ step ∈ cs, step.2.isCommit = false)
    (hroom : start.buffer.sumOf Staged.payloadBytes + total ((start.newlyStaged cs).map (Hash.size + ·)) <
      UInt64.size) :
    let after := (start.runAll cs).buffer
    after.length + after.stats.gcNodes + after.stats.flushNodes =
        start.buffer.length + (start.newlyStaged cs).length ∧
      after.sumOf Staged.payloadBytes + after.stats.gcSize.bytes + after.stats.flushSize.bytes =
        start.buffer.sumOf Staged.payloadBytes + total ((start.newlyStaged cs).map (Hash.size + ·)) ∧
      after.payloadSize.bytes = after.sumOf Staged.payloadBytes := by
  obtain ⟨hw, hp, hnodes, hbytes⟩ := hs.spec
  obtain ⟨hbalances, hexact⟩ :=
    Database.balances_runAll hcs hw hp (by rwa [Buffer.HasRoomFor, hbytes])
  rw [← hnodes, ← hbytes]
  exact ⟨hbalances.nodes, hbalances.bytes, hexact⟩

end Runs

/-- A pinned root is dereferenced, and a blob that has no pin. One child is staged anew
after it was collected, and then once more. A cap fails, and the next one flushes it. -/
def collectedAndFlushed : List (Option Nat × Command) :=
  [(none, .insertBlob (.filled 1) [7]), (none, .insert (.filled 2) [8, 9] (.trie (.extension [] (.filled 1)))),
    (none, .reference (.filled 2) Hash.zero), (none, .dereference (.filled 2)), (none, .insertBlob (.filled 3) [4, 5, 6]),
    (none, .dereference (.filled 3)), (none, .insertBlob (.filled 1) [7, 7, 7, 7]), (none, .insertBlob (.filled 1) [7]),
    (none, .insertBlob (.filled 4) []), (some 0, .cap ByteSize.zero), (none, .cap (ByteSize.ofNat 300))]

set_option maxRecDepth 10000 in
/-- Three of the five nodes that were newly staged have been collected and one has been
flushed, so one is staged still. -/
theorem counters_balance_collectedAndFlushed :
    let after := ((Database.new (.reliable MemoryStore.empty)).runAll collectedAndFlushed).buffer
    after.length + after.stats.gcNodes + after.stats.flushNodes = 0 + 5 ∧
      after.sumOf Staged.payloadBytes + after.stats.gcSize.bytes + after.stats.flushSize.bytes = 5 * 32 + 10 ∧
      after.stats.gcNodes = 3 ∧ after.stats.gcSize.bytes = 3 * 32 + 6 ∧ after.stats.flushNodes = 1 := by
  intro after
  have hnew : (Database.new (.reliable MemoryStore.empty)).newlyStaged collectedAndFlushed = [1, 2, 3, 4, 0] := by cbv
  have hroom : Buffer.empty.sumOf Staged.payloadBytes + total ([1, 2, 3, 4, 0].map (Hash.size + ·)) < UInt64.size := by
    decide
  have hbalance := counters_balance (.reliable MemoryStore.empty) Config.standard Config.valid_standard .opened
    collectedAndFlushed (by decide) (hnew ▸ hroom)
  rw [← Database.new, hnew] at hbalance
  refine ⟨hbalance.1, hbalance.2.1, ?_⟩
  unfold after
  exact ⟨by cbv, by cbv, by cbv⟩

end MerkleBuffer
