/-
The size of a batch cannot be noticed.

Puts reach the store in batches, and what they mean for the database happens batch by
batch as well. Over a store that does not tell how puts were spread over batches, all
that counts in the end are the puts in their order (`writeAll_eq_ok`). So two databases
whose settings differ in the ideal size of a batch stay in the same state, as long as
no write fails (`SameState.run`). That a commit drops nodes in the middle of its own
walk makes no difference either (`commitWalking_eq`).
-/
import Mathlib
import MerkleBuffer.Proofs.CacheTransparency
import MerkleBuffer.Proofs.Database.CommitWalk
import MerkleBuffer.Proofs.Store.Sequential

namespace MerkleBuffer

namespace Database

variable {σ : Type} {settle : Settle σ} {db db' after : Database σ}

/-! ## Puts in any number of batches -/

/-- Puts that may be settled in any number of pieces, before or after the store has
changed. -/
structure Settle.Sequential (settle : Settle σ) : Prop where
  append (ps qs : List Put) (db : Database σ) : settle (ps ++ qs) db = settle qs (settle ps db)
  disk (ps : List Put) (db : Database σ) (disk : σ) : settle ps { db with disk } = { settle ps db with disk }

theorem sequential_nothing : (Settle.nothing : Settle σ).Sequential := ⟨fun _ _ _ => rfl, fun _ _ _ => rfl⟩

theorem settleNode_disk (p : Put) (db : Database σ) (disk : σ) :
    settleNode { db with disk } p = { settleNode db p with disk } := by
  unfold settleNode
  split
  · rfl
  · dsimp only
    split <;> rfl

theorem sequential_settleNodes : (settleNodes : Settle σ).Sequential where
  append _ _ _ := List.foldl_append
  disk ps db disk := by
    induction ps generalizing db with
    | nil => rfl
    | cons p rest ih =>
      show settleNodes rest (settleNode { db with disk } p) = _
      rw [settleNode_disk, ih]
      rfl

variable [KeyValueStore σ]

theorem writeAll_cons [SequentialStore σ] (db : Database σ) (batch : Batch) (p : Put) (rest : List Put) :
    writeAll settle db batch (p :: rest) =
      if db.config.idealBatchSize.toNat ≤ (batch.push p).valueSize then
        match writeBatch settle db (batch.push p) with
        | (.error e, after) => (.error e, after)
        | (.ok (), after) => writeAll settle after Batch.empty rest
      else writeAll settle db (batch.push p) rest := by
  rw [writeAll, queueAll, SequentialStore.accept]
  dsimp only
  by_cases hfull : db.config.idealBatchSize.toNat ≤ (batch.push p).valueSize
  · rw [if_pos hfull, if_pos hfull]
    rcases writeBatch settle db (batch.push p) with ⟨_ | _, after⟩ <;> rfl
  · rw [if_neg hfull, if_neg hfull]
    rfl

/-- **Only the puts count**, not how they were spread over batches. -/
theorem writeAll_eq_ok [SequentialStore σ] (hs : settle.Sequential) {batch : Batch} {puts : List Put} :
    writeAll settle db batch puts = (.ok (), after) ↔
      ∃ disk, KeyValueStore.write db.disk (batch.puts ++ puts) = .ok disk ∧
        after = settle (batch.puts ++ puts) { db with disk } := by
  induction puts generalizing db batch with
  | nil =>
    rw [List.append_nil, writeAll, queueAll]
    dsimp only
    unfold writeBatch
    cases KeyValueStore.write db.disk batch.puts with
    | error e => simp
    | ok disk => simp [eq_comm]
  | cons p rest ih =>
    have hputs : batch.puts ++ p :: rest = (batch.push p).puts ++ rest := by simp [Batch.push]
    rw [writeAll_cons, hputs]
    split
    · unfold writeBatch
      rw [SequentialStore.write_append]
      cases hw : KeyValueStore.write db.disk (batch.push p).puts with
      | error e => simp [Except.bind]
      | ok written =>
        -- the store after this batch is the one that the database carries on with
        have hdisk : (settle (batch.push p).puts { db with disk := written }).disk = written := by
          rw [hs.disk]
        have hsettle : ∀ disk, settle rest { settle (batch.push p).puts { db with disk := written } with disk } =
            settle ((batch.push p).puts ++ rest) { db with disk } := fun disk => by
          rw [hs.append]
          exact congrArg (settle rest) (hs.disk (batch.push p).puts { db with disk := written } disk).symm
        refine (@ih (settle (batch.push p).puts { db with disk := written }) Batch.empty).trans ?_
        simp only [Batch.empty, List.nil_append, hdisk, hsettle]
        rfl
    · exact ih

end Database

/-! ## Databases in the same state -/

/-- Two databases in the same state, whose settings may differ in the size of a batch. -/
structure SameState {σ : Type} (db db' : Database σ) : Prop where
  disk : db'.disk = db.disk
  buffer : db'.buffer = db.buffer
  cleans : db'.cleans = db.cleans
  preimageFlushThreshold : db'.config.preimageFlushThreshold = db.config.preimageFlushThreshold

namespace SameState

variable {σ : Type} {db db' : Database σ} {settle : Database.Settle σ}

theorem of_buffer (hs : SameState db db') (f : Buffer → Buffer) :
    SameState { db with buffer := f db.buffer } { db' with buffer := f db'.buffer } :=
  ⟨hs.disk, congrArg f hs.buffer, hs.cleans, hs.preimageFlushThreshold⟩

theorem settleNode (hs : SameState db db') (p : Put) :
    SameState (Database.settleNode db p) (Database.settleNode db' p) := by
  unfold Database.settleNode
  split
  · exact hs
  · rw [hs.buffer, hs.cleans]
    split
    · exact ⟨hs.disk, rfl, rfl, hs.preimageFlushThreshold⟩
    · exact hs

theorem cached? (hs : SameState db db') (h : Hash) :
    db.cached? h = none ∧ db'.cached? h = none ∨
      ∃ encoded after after', db.cached? h = some (encoded, after) ∧ db'.cached? h = some (encoded, after') ∧
        SameState after after' := by
  unfold Database.cached?
  rw [hs.cleans]
  split
  · exact .inl ⟨rfl, rfl⟩
  split
  · exact .inl ⟨rfl, rfl⟩
  · exact .inr ⟨_, _, _, rfl, rfl, hs.disk, hs.buffer, rfl, hs.preimageFlushThreshold⟩

/-- What becomes of databases in the same state when puts were written is the same. -/
def KeptBy (settle : Database.Settle σ) : Prop :=
  ∀ puts db db', SameState db db' → SameState (settle puts db) (settle puts db')

theorem keptBy_nothing : KeptBy (Database.Settle.nothing : Database.Settle σ) := fun _ _ _ hs => hs

theorem keptBy_settleNodes : KeptBy (Database.settleNodes : Database.Settle σ) := by
  intro puts
  induction puts with
  | nil => exact fun _ _ hs => hs
  | cons p rest ih => exact fun _ _ hs => ih _ _ (hs.settleNode p)

variable [KeyValueStore σ] [SequentialStore σ]

theorem writeAll (hs : SameState db db') (hseq : settle.Sequential) (hkept : KeptBy settle) {puts : List Put}
    {after : Database σ} (hok : Database.writeAll settle db Batch.empty puts = (.ok (), after)) :
    ∃ after', Database.writeAll settle db' Batch.empty puts = (.ok (), after') ∧ SameState after after' := by
  obtain ⟨disk, hwrite, rfl⟩ := (Database.writeAll_eq_ok hseq).1 hok
  rw [← hs.disk] at hwrite
  exact ⟨_, (Database.writeAll_eq_ok hseq).2 ⟨disk, hwrite, rfl⟩,
    hkept _ _ _ ⟨rfl, hs.buffer, hs.cleans, hs.preimageFlushThreshold⟩⟩

theorem cap (hs : SameState db db') (limit : ByteSize) (hok : (db.cap limit).1 = .ok ()) :
    (db'.cap limit).1 = .ok () ∧ SameState (db.cap limit).2 (db'.cap limit).2 := by
  have hoverflow : db'.preimagesOverflow = db.preimagesOverflow := by
    rw [Database.preimagesOverflow, Database.preimagesOverflow, hs.buffer, hs.preimageFlushThreshold]
  unfold Database.cap at hok ⊢
  rw [hs.buffer, hoverflow]
  split at hok
  · next hfits =>
    rw [if_pos hfits, if_pos hfits]
    exact ⟨rfl, hs⟩
  next hfits =>
  rw [if_neg hfits, if_neg hfits]
  dsimp only at hok ⊢
  split at hok
  · cases hok
  · next after hwritten =>
    obtain ⟨after', hwritten', hafter⟩ := hs.writeAll Database.sequential_nothing keptBy_nothing hwritten
    rw [hwritten']
    refine ⟨rfl, hafter.disk, ?_, hafter.cleans, hafter.preimageFlushThreshold⟩
    dsimp only
    rw [hafter.buffer]

theorem commit (hs : SameState db db') (root : Hash) (hok : (db.commit root).1 = .ok ()) :
    (db'.commit root).1 = .ok () ∧ SameState (db.commit root).2 (db'.commit root).2 := by
  unfold Database.commit at hok ⊢
  rw [hs.buffer]
  split at hok
  · cases hok
  next hz =>
  rw [if_neg hz, if_neg hz]
  split at hok
  · cases hok
  next stored hstored =>
  obtain ⟨stored', hstored', hsame⟩ := hs.writeAll Database.sequential_nothing keptBy_nothing hstored
  rw [hstored']
  dsimp only
  rw [hsame.buffer]
  split at hok
  · cases hok
  next after hwritten =>
  obtain ⟨after', hwritten', hafter⟩ := hsame.writeAll Database.sequential_settleNodes keptBy_settleNodes hwritten
  rw [hwritten']
  refine ⟨rfl, hafter.disk, ?_, hafter.cleans, hafter.preimageFlushThreshold⟩
  dsimp only
  rw [hafter.buffer]

end SameState

/-! ## Calls that write without failing -/

section Calls

variable {σ : Type} [KeyValueStore σ]

/-- No write fails during a call. The commit of the meta-root writes nothing. -/
def Call.WritesAll (db : Database σ) : Call → Prop
  | command (.cap limit) => (db.cap limit).1 = .ok ()
  | command (.commit root) => root = Hash.zero ∨ (db.commit root).1 = .ok ()
  | _ => True

/-- A call, and before it the order in which the maps of the buffer come to be listed,
or whatever else is done to the buffer. -/
abbrev ArrangedCall := (Buffer → Buffer) × Call

/-- No write fails while calls are made. -/
def Database.WritesAll (db : Database σ) : List ArrangedCall → Prop
  | [] => True
  | (arrange, call) :: rest =>
    let before := { db with buffer := arrange db.buffer }
    call.WritesAll before ∧ (call.run before).WritesAll rest

/-- What can be seen of a database while calls are made: after each the answer, the
buffer with its counters, the clean cache and the store. -/
def Database.observe (db : Database σ) : List ArrangedCall → List (Answer × Buffer × Option CleanCache × σ)
  | [] => []
  | (arrange, call) :: rest =>
    let before := { db with buffer := arrange db.buffer }
    let after := call.run before
    (call.answer before, after.buffer, after.cleans, after.disk) :: after.observe rest

/-- The size of a batch cannot be noticed over a store: whatever size a database is
opened with, if no write fails with one size, then none does with another, and
everything that can be seen during any calls is the same. -/
def BatchSizeUnnoticed (disk : σ) : Prop :=
  ∀ (config : Config) (size : UInt64) (hv : config.Valid) (hv' : { config with idealBatchSize := size }.Valid)
    (calls : List ArrangedCall), (Database.ofValid disk config hv).WritesAll calls →
      (Database.ofValid disk { config with idealBatchSize := size } hv').WritesAll calls ∧
        (Database.ofValid disk { config with idealBatchSize := size } hv').observe calls =
          (Database.ofValid disk config hv).observe calls

end Calls

namespace SameState

section Lookups

variable {σ : Type} [KeyValueStore σ] {db db' : Database σ}

theorem load (hs : SameState db db') (h : Hash) :
    (db'.load h).1 = (db.load h).1 ∧ SameState (db.load h).2 (db'.load h).2 := by
  unfold Database.load
  rw [hs.disk]
  split
  · exact ⟨rfl, hs⟩
  · exact ⟨rfl, hs⟩
  · next encoded _ =>
    have hcleans : db'.cleans.map (·.set h encoded) = db.cleans.map (·.set h encoded) := by rw [hs.cleans]
    exact ⟨rfl, rfl, hs.buffer, hcleans, hs.preimageFlushThreshold⟩

theorem node (hs : SameState db db') (h : Hash) :
    (db'.node h).1 = (db.node h).1 ∧ SameState (db.node h).2 (db'.node h).2 := by
  unfold Database.node
  rw [hs.buffer]
  split
  · exact ⟨rfl, hs⟩
  rcases hs.cached? h with ⟨heq, heq'⟩ | ⟨encoded, after, after', heq, heq', hafter⟩
  · rw [heq, heq']
    dsimp only
    split
    · exact ⟨rfl, hs⟩
    · exact hs.load h
  · rw [heq, heq']
    exact ⟨rfl, hafter⟩

theorem trieNode (hs : SameState db db') (h : Hash) :
    (db'.trieNode h).1 = (db.trieNode h).1 ∧ SameState (db.trieNode h).2 (db'.trieNode h).2 := by
  unfold Database.trieNode
  rw [hs.buffer]
  split
  · exact ⟨rfl, hs⟩
  rcases hs.cached? h with ⟨heq, heq'⟩ | ⟨encoded, after, after', heq, heq', hafter⟩
  · rw [heq, heq']
    dsimp only
    split
    · exact ⟨rfl, hs⟩
    · obtain ⟨hanswer, hafter⟩ := hs.load h
      rcases hload : db.load h with ⟨loaded, after⟩
      rcases hload' : db'.load h with ⟨loaded', after'⟩
      rw [hload, hload'] at hanswer hafter
      obtain rfl : loaded' = loaded := hanswer
      cases loaded' <;> exact ⟨rfl, hafter⟩
  · rw [heq, heq']
    exact ⟨rfl, hafter⟩

end Lookups

variable {σ : Type} [KeyValueStore σ] [SequentialStore σ] {db db' : Database σ}

/-- **One call**: where no write fails in one database, none does in the other, and both
answer the same and are in the same state again. -/
theorem call (hs : SameState db db') (call : Call) (hok : call.WritesAll db) :
    call.WritesAll db' ∧ call.answer db' = call.answer db ∧ SameState (call.run db) (call.run db') := by
  have hstaging : ∀ h size node (c : Command), c.staging? = some (h, size, node) →
      SameState (c.run db) (c.run db') := by
    intro h size node c hc
    rw [run_staging hc, run_staging hc]
    split
    · exact hs
    · exact hs.of_buffer (·.insert h size node)
  cases call with
  | preimage h =>
    refine ⟨trivial, ?_, hs⟩
    show Answer.preimage (db'.preimage h) = Answer.preimage (db.preimage h)
    rw [Database.preimage, Database.preimage, hs.buffer, hs.disk]
  | command c =>
  cases c with
  | insert h blob node =>
    refine ⟨trivial, ?_, hstaging _ _ _ (.insert h blob node) rfl⟩
    simp only [Call.answer, Command.answer, Database.insert]
    split <;> rfl
  | insertBlob h blob =>
    refine ⟨trivial, ?_, hstaging _ _ _ (.insertBlob h blob) rfl⟩
    simp only [Call.answer, Command.answer, Database.insertBlob, Database.insert]
    split <;> rfl
  | insertNode node =>
    refine ⟨trivial, ?_, hstaging _ _ _ (.insertNode node) rfl⟩
    by_cases hz : node.hash.isZero <;> simp [Call.answer, Command.answer, Database.insertNode, Database.insert, hz]
  | insertPreimage h preimage => exact ⟨trivial, rfl, hs.of_buffer (·.insertPreimage h preimage)⟩
  | reference child parent =>
    simp only [Call.answer, Command.answer, Call.run, Command.run, Database.reference]
    split
    · exact ⟨trivial, rfl, hs⟩
    · exact ⟨trivial, rfl, hs.of_buffer (·.reference child parent)⟩
  | dereference root =>
    simp only [Call.answer, Command.answer, Call.run, Command.run, Database.dereference]
    split
    · exact ⟨trivial, rfl, hs⟩
    · exact ⟨trivial, rfl, hs.of_buffer (·.dereference root)⟩
  | cap limit =>
    obtain ⟨hok', hafter⟩ := hs.cap limit hok
    exact ⟨hok', congrArg Answer.done (hok'.trans hok.symm), hafter⟩
  | commit root =>
    rcases hok with rfl | hok
    · exact ⟨.inl rfl, rfl, hs⟩
    · obtain ⟨hok', hafter⟩ := hs.commit root hok
      exact ⟨.inr hok', congrArg Answer.done (hok'.trans hok.symm), hafter⟩
  | lookup h => exact ⟨trivial, congrArg Answer.encoded (hs.node h).1, (hs.node h).2⟩
  | lookupTrieNode h => exact ⟨trivial, congrArg Answer.node (hs.trieNode h).1, (hs.trieNode h).2⟩

theorem observe (hs : SameState db db') {calls : List ArrangedCall} (hok : db.WritesAll calls) :
    db'.WritesAll calls ∧ db'.observe calls = db.observe calls := by
  induction calls generalizing db db' with
  | nil => exact ⟨trivial, rfl⟩
  | cons step rest ih =>
    obtain ⟨arrange, call⟩ := step
    obtain ⟨hcall, hrest⟩ := hok
    obtain ⟨hcall', hanswer, hafter⟩ := (hs.of_buffer arrange).call call hcall
    obtain ⟨hrest', hobserve⟩ := ih hafter hrest
    refine ⟨⟨hcall', hrest'⟩, ?_⟩
    rw [Database.observe, Database.observe]
    rw [hobserve, hanswer, hafter.buffer, hafter.cleans, hafter.disk]

end SameState

theorem batchSizeUnnoticed {σ : Type} [KeyValueStore σ] [SequentialStore σ] (disk : σ) : BatchSizeUnnoticed disk := by
  intro config size hv hv' calls hok
  have hs : SameState (Database.ofValid disk config hv)
      (Database.ofValid disk { config with idealBatchSize := size } hv') := ⟨rfl, rfl, rfl, rfl⟩
  exact hs.observe hok

theorem MemoryStore.writesAll (db : Database MemoryStore) (calls : List ArrangedCall) : db.WritesAll calls := by
  have hwriteAll : ∀ {settle : Database.Settle MemoryStore}, settle.Sequential → ∀ (db : Database MemoryStore) puts,
      Database.writeAll settle db Batch.empty puts =
        (.ok (), settle puts { db with disk := db.disk.putAll puts }) := fun hseq db puts =>
    (Database.writeAll_eq_ok hseq).2 ⟨_, rfl, rfl⟩
  induction calls generalizing db with
  | nil => trivial
  | cons step rest ih =>
    refine ⟨?_, ih _⟩
    obtain ⟨arrange, call⟩ := step
    generalize { db with buffer := arrange db.buffer } = before
    match call with
    | .preimage _ => trivial
    | .command (.cap limit) =>
      show (before.cap limit).1 = .ok ()
      unfold Database.cap
      split
      · rfl
      · dsimp only
        rw [hwriteAll Database.sequential_nothing]
    | .command (.commit root) =>
      by_cases hz : root = Hash.zero
      · exact .inl hz
      · refine .inr ?_
        unfold Database.commit
        rw [if_neg (mt Hash.isZero_iff.1 hz), hwriteAll Database.sequential_nothing]
        dsimp only
        rw [hwriteAll Database.sequential_settleNodes]
    | .command (.insert ..) | .command (.insertBlob ..) | .command (.insertNode _) | .command (.insertPreimage ..)
    | .command (.reference ..) | .command (.dereference _) | .command (.lookup _) | .command (.lookupTrieNode _) =>
      trivial

/-- **Batch size does not matter.** A commit that walks through the buffer while its
batches leave it, over any store, is the commit that lists the subtree first. And over
stores in memory, where no write fails, and over all store files the size of a batch
cannot be noticed. -/
theorem batch_size_unnoticed [FrameCodec] :
    (∀ (σ : Type) [KeyValueStore σ] (db : Database σ) (root : Hash), db.commitWalking root = db.commit root) ∧
      (∀ disk : MemoryStore, BatchSizeUnnoticed disk) ∧
      (∀ (db : Database MemoryStore) (calls : List ArrangedCall), db.WritesAll calls) ∧
      ∀ disk : RecordLog, BatchSizeUnnoticed disk :=
  ⟨fun _ _ => Database.commitWalking_eq, batchSizeUnnoticed, MemoryStore.writesAll, batchSizeUnnoticed⟩

/-- Two nodes over one blob that refer to each other explicitly. One of them is
committed, with all the others below it. -/
def tangled : List ArrangedCall :=
  [.insertBlob (.filled 1) [7], .insert (.filled 2) [8] (.trie (.extension [] (.filled 1))),
    .insert (.filled 3) [9] (.trie (.extension [] (.filled 1))), .reference (.filled 2) (.filled 3),
    .reference (.filled 3) (.filled 2), .commit (.filled 2), .lookup (.filled 1)].map
      fun c : Command => (id, .command c)

/-- With batches of one put each, the walk drops all nodes before it ends. -/
theorem batch_size_unnoticed_tangled :
    let small := { Config.standard with idealBatchSize := 1 }
    let memory := Database.ofValid MemoryStore.empty Config.standard Config.valid_standard
    let file := Database.ofValid RecordLog.create Config.standard Config.valid_standard
    (Database.ofValid MemoryStore.empty small (by decide)).observe tangled = memory.observe tangled ∧
      (memory.observe tangled).map (fun x => (x.2.1.length, x.2.2.2.size)) =
        [(1, 0), (2, 0), (3, 0), (3, 0), (3, 0), (0, 3), (0, 3)] ∧
      file.WritesAll tangled ∧
      (Database.ofValid RecordLog.create small (by decide)).observe tangled = file.observe tangled := by
  obtain ⟨-, hmemory, hwrites, hfile⟩ := batch_size_unnoticed
  have hok : (Database.ofValid RecordLog.create Config.standard Config.valid_standard).WritesAll tangled := by
    refine ⟨trivial, trivial, trivial, trivial, trivial, .inr ?_, trivial, trivial⟩
    set_option maxRecDepth 10000 in cbv
  refine ⟨(hmemory MemoryStore.empty _ 1 _ (by decide) tangled (hwrites _ tangled)).2, ?_, hok,
    (hfile RecordLog.create _ 1 _ (by decide) tangled hok).2⟩
  set_option maxRecDepth 10000 in cbv

end MerkleBuffer
