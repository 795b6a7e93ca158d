/-
The clean cache cannot be noticed.

Two databases are alike if they differ in their clean caches at most. Every command
takes alike databases to alike ones and answers the same in both, except that a lookup
could find different things in two caches (`Alike.run`, `Alike.answer`). In coherent
databases it finds what it would find without a cache, so whatever is done with the two,
a caller watches the same answers, buffers and stores go by (`Alike.watch`).
-/
import Mathlib
import MerkleBuffer.Proofs.Database.Coherent
import MerkleBuffer.Store.Frame

namespace MerkleBuffer

/-! ## Calls and their answers -/

/-- What a caller learns from a call. -/
inductive Answer where
  | done (result : Except Error Unit)
  | hash (result : Except Error Hash)
  | encoded (result : Except Error Bytes)
  | node (result : Except Error TrieNode)
  | preimage (result : Except Error (Option Bytes))

section Calls

variable {σ : Type} [KeyValueStore σ]

/-- The answer to a command. -/
def Command.answer (c : Command) (db : Database σ) : Answer :=
  match c with
  | insert h blob node => .done (db.insert h blob node).1
  | insertBlob h blob => .done (db.insertBlob h blob).1
  | insertNode node => .hash (db.insertNode node).1
  | insertPreimage _ _ => .done (.ok ())
  | reference child parent => .done (db.reference child parent).1
  | dereference root => .done (db.dereference root).1
  | cap limit => .done (db.cap limit).1
  | commit root => .done (db.commit root).1
  | lookup h => .encoded (db.node h).1
  | lookupTrieNode h => .node (db.trieNode h).1

/-- A call: a command, or a lookup of a preimage, which changes nothing. -/
inductive Call where
  | command (c : Command)
  | preimage (h : Hash)

namespace Call

def answer (call : Call) (db : Database σ) : Answer :=
  match call with
  | command c => c.answer db
  | preimage h => .preimage (db.preimage h)

def run (call : Call) (db : Database σ) : Database σ :=
  match call with
  | command c => c.run db
  | preimage _ => db

end Call

/-- What can be seen of a database while calls are made, each with the writes that
succeed from there on: the answer, and then the buffer with its counters and the store. -/
def Database.watch (db : Database (Faulty σ)) : List (Option Nat × Call) → List (Answer × Buffer × Faulty σ)
  | [] => []
  | (writes, call) :: rest =>
    let after := call.run (db.allowing writes)
    (call.answer (db.allowing writes), after.buffer, after.disk) :: after.watch rest

end Calls

/-! ## Alike databases -/

/-- Two databases that differ in their clean caches at most. -/
structure Alike {σ : Type} (db db' : Database σ) : Prop where
  disk : db'.disk = db.disk
  buffer : db'.buffer = db.buffer
  idealBatchSize : db'.config.idealBatchSize = db.config.idealBatchSize
  preimageFlushThreshold : db'.config.preimageFlushThreshold = db.config.preimageFlushThreshold

/-- The same outcome, and databases that are alike after it. -/
structure AlikeOutcome {σ α : Type} (r r' : Outcome σ α) : Prop where
  result : r'.1 = r.1
  after : Alike r.2 r'.2

section Alike

variable {σ : Type} {db db' : Database σ} {settle : Database.Settle σ}

theorem AlikeOutcome.exists_after {α : Type} {r r' : Outcome σ α} (h : AlikeOutcome r r') :
    ∃ result after after', r = (result, after) ∧ r' = (result, after') ∧ Alike after after' :=
  ⟨r.1, r.2, r'.2, rfl, Outcome.eq_mk h.result, h.after⟩

/-- What becomes of alike databases when puts were written is alike. -/
def Database.Settle.KeepsAlike (settle : Settle σ) : Prop :=
  ∀ puts db db', Alike db db' → Alike (settle puts db) (settle puts db')

theorem Alike.settleNode (ha : Alike db db') (p : Put) :
    Alike (Database.settleNode db p) (Database.settleNode db' p) := by
  unfold Database.settleNode
  split
  · exact ha
  · rw [ha.buffer]
    split
    · exact ⟨ha.disk, rfl, ha.idealBatchSize, ha.preimageFlushThreshold⟩
    · exact ha

theorem keepsAlike_nothing : (Database.Settle.nothing : Database.Settle σ).KeepsAlike := fun _ _ _ ha => ha

theorem keepsAlike_settleNodes : (Database.settleNodes : Database.Settle σ).KeepsAlike := by
  intro puts
  induction puts with
  | nil => exact fun _ _ ha => ha
  | cons p rest ih => exact fun _ _ ha => ih _ _ (ha.settleNode p)

variable [KeyValueStore σ]

theorem Alike.writeBatch (ha : Alike db db') (hsettle : settle.KeepsAlike) (batch : Batch) :
    AlikeOutcome (Database.writeBatch settle db batch) (Database.writeBatch settle db' batch) := by
  unfold Database.writeBatch
  rw [ha.disk]
  split
  · exact ⟨rfl, ha⟩
  · exact ⟨rfl, hsettle _ _ _ ⟨rfl, ha.buffer, ha.idealBatchSize, ha.preimageFlushThreshold⟩⟩

theorem Alike.queueAll (ha : Alike db db') (hsettle : settle.KeepsAlike) (batch : Batch) (puts : List Put) :
    AlikeOutcome (Database.queueAll settle db batch puts) (Database.queueAll settle db' batch puts) := by
  induction puts generalizing db db' batch with
  | nil => exact ⟨rfl, ha⟩
  | cons p rest ih =>
    rw [Database.queueAll, Database.queueAll, ha.disk, ha.idealBatchSize]
    split
    · exact ⟨rfl, ha⟩
    dsimp only
    split
    · obtain ⟨written, after, after', heq, heq', hafter⟩ := (ha.writeBatch hsettle (batch.push p)).exists_after
      rw [heq, heq']
      cases written with
      | error e => exact ⟨rfl, hafter⟩
      | ok _ => exact ih hafter Batch.empty
    · exact ih ha (batch.push p)

theorem Alike.writeAll (ha : Alike db db') (hsettle : settle.KeepsAlike) (batch : Batch) (puts : List Put) :
    AlikeOutcome (Database.writeAll settle db batch puts) (Database.writeAll settle db' batch puts) := by
  obtain ⟨queued, after, after', heq, heq', hafter⟩ := (ha.queueAll hsettle batch puts).exists_after
  unfold Database.writeAll
  rw [heq, heq']
  cases queued with
  | error e => exact ⟨rfl, hafter⟩
  | ok last => exact hafter.writeBatch hsettle last

theorem Alike.cap (ha : Alike db db') (limit : ByteSize) : AlikeOutcome (db.cap limit) (db'.cap limit) := by
  have hoverflow : db'.preimagesOverflow = db.preimagesOverflow := by
    rw [Database.preimagesOverflow, Database.preimagesOverflow, ha.buffer, ha.preimageFlushThreshold]
  unfold Database.cap
  rw [ha.buffer, hoverflow]
  split
  · exact ⟨rfl, ha⟩
  dsimp only
  obtain ⟨written, after, after', heq, heq', hafter⟩ :=
    (ha.writeAll keepsAlike_nothing Batch.empty ((if db.preimagesOverflow then db.buffer.preimages else []).map
      Database.preimagePut ++ (Buffer.overflow limit db.buffer.residentSize db.buffer.inOrder).map
        Database.nodePut)).exists_after
  rw [heq, heq']
  cases written with
  | error e => exact ⟨rfl, hafter⟩
  | ok _ =>
    refine ⟨rfl, hafter.disk, ?_, hafter.idealBatchSize, hafter.preimageFlushThreshold⟩
    dsimp only
    rw [hafter.buffer]

theorem Alike.commit (ha : Alike db db') (root : Hash) : AlikeOutcome (db.commit root) (db'.commit root) := by
  unfold Database.commit
  split
  · exact ⟨rfl, ha⟩
  rw [ha.buffer]
  obtain ⟨preimages, stored, stored', heq, heq', hstored⟩ :=
    (ha.writeAll keepsAlike_nothing Batch.empty (db.buffer.preimages.map Database.preimagePut)).exists_after
  rw [heq, heq']
  cases preimages with
  | error e => exact ⟨rfl, hstored⟩
  | ok _ =>
    dsimp only
    rw [hstored.buffer]
    obtain ⟨nodes, after, after', heq, heq', hafter⟩ := (hstored.writeAll keepsAlike_settleNodes Batch.empty
      ((stored.buffer.subtree root).map Database.nodePut)).exists_after
    rw [heq, heq']
    cases nodes with
    | error e => exact ⟨rfl, hafter⟩
    | ok _ =>
      refine ⟨rfl, hafter.disk, ?_, hafter.idealBatchSize, hafter.preimageFlushThreshold⟩
      dsimp only
      rw [hafter.buffer]

/-- Lookups without a cache are about the buffer and the store alone. -/
theorem Alike.node_uncached (ha : Alike db db') (h : Hash) : (db'.uncached.node h).1 = (db.uncached.node h).1 := by
  unfold Database.node
  rw [show db'.uncached.buffer = db.uncached.buffer from ha.buffer]
  split
  · rfl
  dsimp only [Database.cached?, Database.uncached]
  split
  · rfl
  · exact Database.load_congr (show db'.uncached.disk = db.uncached.disk from ha.disk) h

theorem Alike.trieNode_uncached (ha : Alike db db') (h : Hash) :
    (db'.uncached.trieNode h).1 = (db.uncached.trieNode h).1 := by
  unfold Database.trieNode
  rw [show db'.uncached.buffer = db.uncached.buffer from ha.buffer]
  split
  · rfl
  have hload : (db'.uncached.load h).1 = (db.uncached.load h).1 :=
    Database.load_congr (show db'.uncached.disk = db.uncached.disk from ha.disk) h
  rw [Outcome.eq_mk hload]
  dsimp only [Database.cached?, Database.uncached]
  split
  · rfl
  · rcases Database.load _ h with ⟨loaded, after⟩
    cases loaded <;> rfl

theorem Alike.run (ha : Alike db db') (c : Command) : Alike (c.run db) (c.run db') := by
  have hstaging : ∀ h size node, c.staging? = some (h, size, node) → Alike (c.run db) (c.run db') := by
    intro h size node hc
    rw [run_staging hc, run_staging hc, ha.buffer]
    split
    · exact ha
    · exact ⟨ha.disk, rfl, ha.idealBatchSize, ha.preimageFlushThreshold⟩
  have hlookup : ∀ h, c = .lookup h ∨ c = .lookupTrieNode h → Alike (c.run db) (c.run db') := by
    intro h hc
    obtain ⟨cleans, heq, -⟩ := run_lookup c h hc db
    obtain ⟨cleans', heq', -⟩ := run_lookup c h hc db'
    rw [heq, heq']
    exact ⟨ha.disk, ha.buffer, ha.idealBatchSize, ha.preimageFlushThreshold⟩
  have hbuffer : ∀ f : Buffer → Buffer,
      Alike { db with buffer := f db.buffer } { db' with buffer := f db'.buffer } := fun f =>
    ⟨ha.disk, congrArg f ha.buffer, ha.idealBatchSize, ha.preimageFlushThreshold⟩
  cases c with
  | insert h blob node => exact hstaging _ _ _ rfl
  | insertBlob h blob => exact hstaging _ _ _ rfl
  | insertNode node => exact hstaging _ _ _ rfl
  | insertPreimage h preimage => exact hbuffer (·.insertPreimage h preimage)
  | reference child parent =>
    simp only [Command.run, Database.reference]
    split
    · exact ha
    · exact hbuffer (·.reference child parent)
  | dereference root =>
    simp only [Command.run, Database.dereference]
    split
    · exact ha
    · exact hbuffer (·.dereference root)
  | cap limit => exact (ha.cap limit).after
  | commit root => exact (ha.commit root).after
  | lookup h => exact hlookup h (.inl rfl)
  | lookupTrieNode h => exact hlookup h (.inr rfl)

variable [SteadyStore σ] {content : Hash → Bytes} {first : σ}

/-- **Alike databases answer alike**, if what their caches hold is stored. -/
theorem Alike.answer (ha : Alike db db') (hc : Coherent content first db) (hc' : Coherent content first db')
    (c : Command) : c.answer db' = c.answer db := by
  cases c with
  | insert h blob node =>
    simp only [Command.answer, Database.insert]
    split <;> rfl
  | insertBlob h blob =>
    simp only [Command.answer, Database.insertBlob, Database.insert]
    split <;> rfl
  | insertNode node =>
    by_cases hz : node.hash.isZero <;> simp [Command.answer, Database.insertNode, Database.insert, hz]
  | insertPreimage h preimage => rfl
  | reference child parent =>
    simp only [Command.answer, Database.reference]
    split <;> rfl
  | dereference root =>
    simp only [Command.answer, Database.dereference]
    split <;> rfl
  | cap limit => exact congrArg Answer.done (ha.cap limit).result
  | commit root => exact congrArg Answer.done (ha.commit root).result
  | lookup h => exact congrArg Answer.encoded (by rw [hc'.node, hc.node, ha.node_uncached])
  | lookupTrieNode h => exact congrArg Answer.node (by rw [hc'.trieNode, hc.trieNode, ha.trieNode_uncached])

end Alike

/-! ## Runs -/

section Runs

variable {σ : Type}

theorem Alike.allowing {db db' : Database (Faulty σ)} (ha : Alike db db') (writes : Option Nat) :
    Alike (db.allowing writes) (db'.allowing writes) :=
  ⟨congrArg (fun disk : Faulty σ => { disk with writesLeft := writes }) ha.disk, ha.buffer, ha.idealBatchSize,
    ha.preimageFlushThreshold⟩

variable [KeyValueStore σ]

/-- A call that stages, if it stages anything, the bytes that a hash stands for, where
the store had no other value for it at `first`. -/
def Call.Consistent (content : Hash → Bytes) (first : σ) : Call → Prop
  | command c => c.Consistent content first
  | preimage _ => True

/-- The clean cache cannot be noticed over a store: with whatever settings of it a
database is opened, if each hash is staged with one encoding and has no other value in
the store at first, then everything that can be seen during any calls is the same. -/
def CacheUnnoticed (disk : σ) : Prop :=
  ∀ (content : Hash → Bytes) (config : Config) (size shards : UInt64) (hv : config.Valid)
    (hv' : { config with cleanCacheSize := size, cleanCacheShards := shards }.Valid) (calls : List (Option Nat × Call)),
    (∀ step ∈ calls, step.2.Consistent content disk) →
      (Database.ofValid (Faulty.reliable disk) { config with cleanCacheSize := size, cleanCacheShards := shards }
        hv').watch calls = (Database.ofValid (Faulty.reliable disk) config hv).watch calls

variable [SteadyStore σ] {content : Hash → Bytes} {first : Faulty σ} {db db' : Database (Faulty σ)}

theorem Coherent.allowing (hc : Coherent content first db) (writes : Option Nat) :
    Coherent content first (db.allowing writes) :=
  ⟨hc.wellFormed, hc.sound, hc.staged, hc.kept, hc.cached⟩

/-- **One call**: the two databases answer the same, and are alike and coherent again. -/
theorem Alike.call (ha : Alike db db') (hc : Coherent content first db) (hc' : Coherent content first db')
    (call : Call) (hcons : call.Consistent content first) :
    call.answer db' = call.answer db ∧ Alike (call.run db) (call.run db') ∧
      Coherent content first (call.run db) ∧ Coherent content first (call.run db') := by
  cases call with
  | command c => exact ⟨ha.answer hc hc' c, ha.run c, hc.run hcons, hc'.run hcons⟩
  | preimage h =>
    refine ⟨?_, ha, hc, hc'⟩
    show Answer.preimage (db'.preimage h) = Answer.preimage (db.preimage h)
    rw [Database.preimage, Database.preimage, ha.buffer, ha.disk]

theorem Alike.watch (ha : Alike db db') (hc : Coherent content first db) (hc' : Coherent content first db')
    (calls : List (Option Nat × Call)) (hcons : ∀ step ∈ calls, step.2.Consistent content first) :
    db'.watch calls = db.watch calls := by
  induction calls generalizing db db' with
  | nil => rfl
  | cons step rest ih =>
    obtain ⟨writes, call⟩ := step
    obtain ⟨hcall, hrest⟩ := List.forall_mem_cons.1 hcons
    obtain ⟨hanswer, hafter, hcoherent, hcoherent'⟩ :=
      (ha.allowing writes).call (hc.allowing writes) (hc'.allowing writes) call hcall
    rw [Database.watch, Database.watch, ih hafter hcoherent hcoherent' hrest, hanswer, hafter.buffer, hafter.disk]

theorem cacheUnnoticed_of_sound {disk : σ} (hs : SteadyStore.Sound disk) : CacheUnnoticed disk := by
  intro content config size shards hv hv' calls hcons
  have hsound : SteadyStore.Sound (Faulty.reliable disk) := ⟨rfl, hs⟩
  have ha : Alike (Database.ofValid (Faulty.reliable disk) config hv) (Database.ofValid (Faulty.reliable disk)
      { config with cleanCacheSize := size, cleanCacheShards := shards } hv') := ⟨rfl, rfl, rfl, rfl⟩
  have hc : Coherent content (Faulty.reliable disk) (.ofValid (Faulty.reliable disk) config hv) := .start hsound _ hv
  exact ha.watch hc (.start hsound _ hv') calls hcons

end Runs

/-- **The clean cache cannot be noticed**, over any store in memory and any store file
in use. -/
theorem clean_cache_unnoticed [FrameCodec] :
    (∀ disk : MemoryStore, CacheUnnoticed disk) ∧ ∀ disk : RecordLog, disk.InUse → CacheUnnoticed disk :=
  ⟨fun _ => cacheUnnoticed_of_sound trivial, fun _ hdisk => cacheUnnoticed_of_sound hdisk.sound⟩

/-- A blob that is committed and then staged again: now a clean cache and the buffer
hold it both. -/
def cachedBlob : List (Option Nat × Command) :=
  [(none, .insertBlob (.filled 1) [7]), (none, .commit (.filled 1)), (none, .insertBlob (.filled 1) [7])]

/-- The blob is looked up, in one database from the cache and in the other from the
buffer, and the two show the same. -/
theorem clean_cache_unnoticed_cachedBlob :
    let cached := Database.new (Faulty.reliable MemoryStore.empty)
    let uncached := Database.ofValid (Faulty.reliable MemoryStore.empty) Config.withoutCleanCache (by decide)
    let file := Database.new (Faulty.reliable RecordLog.create)
    let uncachedFile := Database.ofValid (Faulty.reliable RecordLog.create) Config.withoutCleanCache (by decide)
    let commands := cachedBlob ++ [(none, Command.lookup (.filled 1))]
    let calls := commands.map fun step => (step.1, Call.command step.2)
    uncached.watch calls = cached.watch calls ∧ uncachedFile.watch calls = file.watch calls ∧
      (cached.runAll cachedBlob).cleans.bind (·.find? (.filled 1)) = some [7] ∧
      (uncached.runAll cachedBlob).cleans.isNone = true := by
  have hcached : ((Database.new (Faulty.reliable MemoryStore.empty)).runAll cachedBlob).cleans.bind
      (·.find? (.filled 1)) = some [7] := by cbv
  have huncached : ((Database.ofValid (Faulty.reliable MemoryStore.empty) Config.withoutCleanCache
      (by decide)).runAll cachedBlob).cleans.isNone = true := by cbv
  intro cached uncached file uncachedFile commands calls
  have hcons : ∀ {σ : Type} [KeyValueStore σ] (disk : σ), KeyValueStore.get disk (Hash.filled 1).bytes = .ok none →
      ∀ step ∈ calls, step.2.Consistent (fun _ => [7]) disk := by
    intro σ _ disk hnone step hstep
    obtain ⟨⟨writes, c⟩, hc, rfl⟩ := List.mem_map.1 hstep
    intro h size node hstaging _
    simp only [commands, cachedBlob, List.cons_append, List.nil_append, List.mem_cons, List.not_mem_nil, or_false,
      Prod.mk.injEq] at hc
    rcases hc with ⟨-, rfl⟩ | ⟨-, rfl⟩ | ⟨-, rfl⟩ | ⟨-, rfl⟩ <;> cases hstaging
    · exact ⟨rfl, trivial, .inl hnone⟩
    · exact ⟨rfl, trivial, .inl hnone⟩
  obtain ⟨hmemory, hfile⟩ := clean_cache_unnoticed
  refine ⟨?_, ?_, hcached, huncached⟩
  · exact hmemory MemoryStore.empty _ Config.standard 0 16 Config.valid_standard (by decide) calls
      (hcons _ (by decide +kernel))
  · exact hfile RecordLog.create .create _ Config.standard 0 16 Config.valid_standard (by decide) calls
      (hcons _ (by decide +kernel))

end MerkleBuffer
