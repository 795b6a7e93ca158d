/-
A cap evicts the shortest oldest prefix that meets the limit.

If the staged nodes fit already, a cap does nothing, and it leaves the preimages where they
are. Otherwise it stores the oldest nodes, as few of them as bring the others down to the
limit, in the order in which they were staged. The others stay as they were.
-/
import Mathlib
import MerkleBuffer.Proofs.Buffer.Oldest
import MerkleBuffer.Proofs.Database.Flushes
import MerkleBuffer.Proofs.ExactSizes

namespace MerkleBuffer

/-- The preimages are charged more than the threshold. -/
def Database.ManyPreimages {σ : Type} (db : Database σ) : Prop :=
  db.config.preimageFlushThreshold.toNat < db.size.2.bytes

instance {σ : Type} (db : Database σ) : Decidable db.ManyPreimages :=
  inferInstanceAs (Decidable (db.config.preimageFlushThreshold.toNat < db.size.2.bytes))

/-- A database before and after its `k` oldest nodes were stored, to bring what the others
are charged for down to `limit`. -/
structure OldestEvicted {σ : Type} (db after : Database (Faulty σ)) (limit : ByteSize) (k : Nat) : Prop where
  /-- With one node less the others would not fit -/
  least : IsLeast { n | Buffer.charged (db.buffer.inOrder.drop n) ≤ limit.bytes } k
  /-- The preimages, if there are many, and then the nodes were written. No other key is the
  hash of a node, and no node is written twice. -/
  written : ∃ batches, after.disk.journal = db.disk.journal ++ batches ∧
    batches.flatten = (if db.ManyPreimages then db.buffer.preimages else []).map Database.preimagePut ++
      (db.buffer.inOrder.take k).map Database.nodePut ∧
    nodeHashes batches.flatten = db.flushOrder.take k ∧ (nodeHashes batches.flatten).Nodup
  entry : ∀ h, after.buffer.nodeAt? h = if h ∈ db.flushOrder.take k then none else db.buffer.nodeAt? h
  order : after.flushOrder = db.flushOrder.drop k
  pins : after.buffer.pins = db.buffer.pins
  size : after.size.1.bytes = Buffer.charged (db.buffer.inOrder.drop k)
  fits : after.size.1 ≤ limit
  preimages : after.buffer.preimages = if db.ManyPreimages then [] else db.buffer.preimages
  preimagesSize : after.size.2 = if db.ManyPreimages then ByteSize.zero else db.size.2
  stats : after.stats = { db.stats with
    flushNodes := db.stats.flushNodes + k
    flushSize := db.stats.flushSize +
      ByteSize.ofNat (total ((db.buffer.inOrder.take k).map fun x => x.2.payloadBytes)) }

namespace Database

/-! ## What goes -/

section Buffers

variable {σ : Type} {db : Database σ} {limit : ByteSize} {k : Nat}

theorem preimagesOverflow_iff (db : Database σ) : db.preimagesOverflow = true ↔ db.ManyPreimages := by
  have hthreshold : (ByteSize.ofNat db.config.preimageFlushThreshold.toNat).bytes =
      db.config.preimageFlushThreshold.toNat := ByteSize.bytes_ofNat_of_lt db.config.preimageFlushThreshold.toNat_lt
  rw [preimagesOverflow, decide_eq_true_iff, ByteSize.lt_def, hthreshold]
  rfl

theorem not_le_of_lt_size (hover : limit < db.size.1) : ¬ db.buffer.residentSize ≤ limit := by
  have hlt : limit.bytes < db.buffer.residentSize.bytes := hover
  rw [ByteSize.le_def]
  omega

/-- The nodes that go are the fewest without which the others fit. -/
theorem capNodes_eq_take (ha : db.buffer.Accounted) (hr : db.buffer.InRange) (hl : db.buffer.Linked db.flushOrder)
    (hover : limit < db.size.1) : ∃ k, k ≤ db.buffer.length ∧ db.capNodes limit = db.buffer.inOrder.take k ∧
      IsLeast { n | Buffer.charged (db.buffer.inOrder.drop n) ≤ limit.bytes } k := by
  obtain ⟨k, htake, hleast⟩ := Buffer.overflow_eq_take limit (ha.charged_inOrder hr hl)
  refine ⟨k, hleast.2 ?_, by rw [capNodes, if_neg (not_le_of_lt_size hover), htake], hleast⟩
  show Buffer.charged (db.buffer.inOrder.drop db.buffer.length) ≤ limit.bytes
  rw [← Buffer.length_inOrder hl, List.drop_length]
  exact Nat.zero_le _

theorem puts_cap (hover : limit < db.size.1) : (Flush.cap limit).puts db =
    (if db.ManyPreimages then db.buffer.preimages else []).map preimagePut ++ (db.capNodes limit).map nodePut := by
  simp only [Flush.puts, Flush.preimages, Flush.nodes, capPreimages, if_neg (not_le_of_lt_size hover),
    db.preimagesOverflow_iff]

/-! ## What is left -/

/-- The buffer of a cap before its nodes are dropped: without the preimages, if these were
written. -/
def unburdened (db : Database σ) : Buffer := if db.ManyPreimages then db.buffer.clearPreimages else db.buffer

theorem unburdened_spec (db : Database σ) :
    Buffer.SameNodes db.buffer db.unburdened ∧ db.unburdened.stats = db.buffer.stats ∧
      db.unburdened.inOrder = db.buffer.inOrder ∧
      db.unburdened.preimages = (if db.ManyPreimages then [] else db.buffer.preimages) ∧
      (db.buffer.Accounted → db.unburdened.Accounted) := by
  unfold unburdened
  split
  · exact ⟨⟨rfl, rfl, rfl, rfl⟩, rfl, rfl, rfl, fun ha => ha.clearPreimages⟩
  · exact ⟨.refl _, rfl, rfl, rfl, fun ha => ha⟩

theorem capped_eq (hover : limit < db.size.1) : db.capped limit = db.unburdened.discardFlushed (db.capNodes limit) := by
  simp only [capped, if_neg (not_le_of_lt_size hover), db.preimagesOverflow_iff]
  rfl

/-- The nodes of a buffer after its oldest ones were dropped and counted, and the sum of
what these are charged for. -/
theorem capped_nodes (hl : db.buffer.Linked db.flushOrder) (hover : limit < db.size.1)
    (htake : db.capNodes limit = db.buffer.inOrder.take k) :
    Buffer.SameNodes (db.buffer.discards (db.flushOrder.take k)) (db.capped limit) ∧
      (db.capped limit).sumOf Staged.residentBytes = Buffer.charged (db.buffer.inOrder.drop k) := by
  obtain ⟨hsame, -, -, -, -⟩ := db.unburdened_spec
  have hnodes : Buffer.SameNodes (db.buffer.discards (db.flushOrder.take k)) (db.capped limit) := by
    rw [capped_eq hover, htake, flushOrder, Buffer.flushOrder, ← List.map_take]
    exact (hsame.discards _).trans (discardFlushed_spec _ _).1
  exact ⟨hnodes, (Buffer.sumOf_of_table hnodes.table).trans (Buffer.sumOf_discards_take hl (fun _ => rfl) k)⟩

theorem preimages_capped (hover : limit < db.size.1) :
    (db.capped limit).preimages = if db.ManyPreimages then [] else db.buffer.preimages := by
  obtain ⟨-, -, -, hpreimages, -⟩ := db.unburdened_spec
  rw [capped_eq hover, (discardFlushed_spec _ _).2.2, hpreimages]

/-- The sizes after a cap are exact, those of the nodes and those of the preimages. -/
theorem sizes_capped (ha : db.buffer.Accounted) (hr : db.buffer.InRange) (hl : db.buffer.Linked db.flushOrder)
    (hover : limit < db.size.1) (htake : db.capNodes limit = db.buffer.inOrder.take k) :
    (db.capped limit).residentSize.bytes = Buffer.charged (db.buffer.inOrder.drop k) ∧
      (db.capped limit).preimagesSize = if db.ManyPreimages then ByteSize.zero else db.size.2 := by
  obtain ⟨hsame, hsum⟩ := capped_nodes hl hover htake
  have hafter : (db.capped limit).Accounted := accounted_capped ha
  have hpreimages := preimages_capped hover
  constructor
  · have hnodes : (db.capped limit).sumOf Staged.residentBytes ≤ db.buffer.sumOf Staged.residentBytes := by
      have htotal := Buffer.sumOf_take_add_drop hl (f := Staged.residentBytes) (fun _ => rfl) k
      rw [Buffer.sumOf_of_table hsame.table, ← htotal]
      exact Nat.le_add_left _ _
    have hpre : (db.capped limit).preimageBytes ≤ db.buffer.preimageBytes := by
      rw [Buffer.preimageBytes, hpreimages]
      split
      · exact Nat.zero_le _
      · exact Nat.le_refl _
    have hpins : (db.capped limit).pins = db.buffer.pins := hsame.pins.trans (db.buffer.discards_frame _).1
    rw [hafter.resident (hr.mono hnodes hpins hpre), hsum]
  · ext
    rw [hafter.preimages, Buffer.preimageBytes, hpreimages]
    split
    · rfl
    · exact ha.preimages.symm

theorem stats_capped (ha : db.buffer.Accounted) (hl : db.buffer.Linked db.flushOrder) (hover : limit < db.size.1)
    (hk : k ≤ db.buffer.length) (htake : db.capNodes limit = db.buffer.inOrder.take k) :
    (db.capped limit).stats = { db.stats with
      flushNodes := db.stats.flushNodes + k
      flushSize := db.stats.flushSize +
        ByteSize.ofNat (total ((db.buffer.inOrder.take k).map fun x => x.2.payloadBytes)) } := by
  obtain ⟨hsame, hstats, hinOrder, -, haccounted⟩ := db.unburdened_spec
  have hk' : k ≤ db.unburdened.length := by rwa [Buffer.length, hsame.table]
  have hcounted := Buffer.stats_discardFlushed_take (haccounted ha) (hsame.linked hl).self hk'
  rw [hinOrder, hstats] at hcounted
  rw [capped_eq hover, htake, hcounted]
  rfl

end Buffers

end Database

/-! ## Caps -/

section Runs

variable {σ : Type} [KeyValueStore σ] {db after : Database (Faulty σ)} {limit : ByteSize}

/-- **A cap that succeeds** has evicted the shortest prefix that meets the limit. -/
theorem Database.cap_succeeded (hw : db.buffer.WellFormed) (ha : db.buffer.Accounted) (hr : db.buffer.InRange)
    (hover : limit < db.size.1) (h : db.cap limit = (.ok (), after)) : ∃ k, OldestEvicted db after limit k := by
  have hl : db.buffer.Linked db.flushOrder := hw.linked
  obtain ⟨k, hk, htake, hleast⟩ := capNodes_eq_take ha hr hl hover
  obtain ⟨hwrote, hbuffer⟩ := Flush.succeeded (f := .cap limit) h
  have hbuffer : after.buffer = db.capped limit := hbuffer
  obtain ⟨-, -, batches, hjournal, hflatten⟩ := Faulty.wrote_store hwrote
  obtain ⟨hsame, -⟩ := capped_nodes hl hover htake
  obtain ⟨hsize, hpreimagesSize⟩ := sizes_capped ha hr hl hover htake
  rw [← hbuffer] at hsame hsize hpreimagesSize
  have hkeys : nodeHashes batches.flatten = db.flushOrder.take k := by
    rw [hflatten, Flush.nodeHashes_puts, Flush.nodes, htake, List.map_take]
    rfl
  refine ⟨k, ?_⟩
  exact {
    least := hleast
    written := ⟨batches, hjournal, by rw [hflatten, puts_cap hover, htake], hkeys,
      hkeys ▸ (List.take_sublist k _).nodup hl.nodup⟩
    entry := fun h => by rw [← Buffer.nodeAt?_discards, Buffer.nodeAt?, Buffer.nodeAt?, hsame.table]
    order := hsame.flushOrder.trans (Buffer.flushOrder_discards_take hl k)
    pins := hsame.pins.trans (db.buffer.discards_frame _).1
    size := hsize
    fits := hsize.trans_le hleast.1
    preimages := by rw [hbuffer, preimages_capped hover]
    preimagesSize := hpreimagesSize
    stats := by rw [stats, hbuffer, stats_capped ha hl hover hk htake] }

/-- **A cap evicts the shortest oldest prefix that meets the limit.** In every state of a
run over any store, whatever write failed before, as long as what staged nodes and pins are
charged, and what preimages are, stays below 2^64 bytes: if the staged nodes fit the limit,
a cap changes nothing. Otherwise it ends with the prefix evicted, unless the store turns
down puts of it, and then with the error of the store. -/
theorem cap_evicts_shortest_prefix (disk : Faulty σ) (config : Config) (hv : config.Valid)
    (hr : Reachable (fun db c => (c.run db).buffer.InRange) (.ofValid disk config hv) db) (writes : Option Nat)
    (limit : ByteSize) :
    let start := db.allowing writes
    let after := (start.cap limit).2
    (start.size.1 ≤ limit → start.cap limit = (.ok (), start)) ∧
      (limit < start.size.1 →
        (start.cap limit).1 = .ok () ∧ (∃ k, OldestEvicted start after limit k) ∨
          ∃ e, (start.cap limit).1 = .error e ∧ Database.Refuses after.disk ((Flush.cap limit).puts start) e) := by
  intro start after
  obtain ⟨ha, hrange⟩ := hr.accounted
  have hw : start.buffer.WellFormed := hr.wellFormed .empty
  refine ⟨fun hfits => ?_, fun hover => ?_⟩
  · have hfits : start.buffer.residentSize ≤ limit := hfits
    rw [Database.cap, if_pos hfits]
  · cases hcap : (start.cap limit).1 with
    | ok _ => exact .inl ⟨rfl, Database.cap_succeeded hw ha hrange hover (Outcome.eq_mk hcap)⟩
    | error e => exact .inr ⟨e, rfl, Database.cap_refused (Outcome.eq_mk hcap)⟩

end Runs

/-- Settings under which a preimage of nine bytes is more than the threshold, and every put
is a batch of its own. -/
def fewPreimages : Config := { Config.withoutCleanCache with idealBatchSize := 1, preimageFlushThreshold := 40 }

theorem fewPreimages_valid : fewPreimages.Valid := by decide

/-- Three nodes, the middle one with an explicit reference besides the one in its slot and
the newest one pinned, and a preimage. -/
def threeAges : List (Option Nat × Command) :=
  [(none, .insertBlob (.filled 1) [7]), (none, .insert (.filled 2) [8, 9] (.trie (.extension [] (.filled 1)))),
    (none, .reference (.filled 1) (.filled 2)), (none, .insertBlob (.filled 3) [1, 2, 3]),
    (none, .reference (.filled 3) Hash.zero), (none, .insertPreimage (.filled 9) [1, 2, 3, 4, 5, 6, 7, 8, 9])]

/-- At 784 bytes nothing has to go. At 300 bytes two nodes have to, with one they would
still take 551. -/
theorem cap_evicts_shortest_prefix_threeAges :
    let db := (Database.ofValid (Faulty.reliable MemoryStore.empty) fewPreimages fewPreimages_valid).runAll threeAges
    let after := (db.cap (ByteSize.ofNat 300)).2
    db.cap (ByteSize.ofNat 784) = (.ok (), db) ∧ OldestEvicted db after (ByteSize.ofNat 300) 2 ∧
      after.flushOrder = [.filled 3] ∧ after.size.1.bytes = 32 + 3 + 200 ∧ after.buffer.preimages = [] := by
  intro db after
  have hrange : AllAllowed (fun db c => (c.run db).buffer.InRange)
      (Database.ofValid (Faulty.reliable MemoryStore.empty) fewPreimages fewPreimages_valid) threeAges := by
    refine ⟨?_, ?_, ?_, ?_, ?_, ?_, trivial⟩
    all_goals
      refine ⟨?_, ?_⟩
      · decide +kernel
      · decide +kernel
  have hreach := Reachable.start.runAll hrange
  obtain ⟨hkept, -⟩ := cap_evicts_shortest_prefix _ fewPreimages fewPreimages_valid hreach none (ByteSize.ofNat 784)
  obtain ⟨-, hevicted⟩ := cap_evicts_shortest_prefix _ fewPreimages fewPreimages_valid hreach none (ByteSize.ofNat 300)
  have hok : (db.cap (ByteSize.ofNat 300)).1.isOk = true := by cbv
  obtain ⟨-, k, hk⟩ := (hevicted (by decide +kernel)).resolve_right fun hfail => by
    obtain ⟨e, he, -⟩ := hfail
    rw [show (db.cap (ByteSize.ofNat 300)).1 = .error e from he] at hok
    cases hok
  have hk : OldestEvicted db after (ByteSize.ofNat 300) k := hk
  have hnone : Buffer.charged (db.buffer.inOrder.drop 0) = 784 := by decide +kernel
  have hone : Buffer.charged (db.buffer.inOrder.drop 1) = 551 := by decide +kernel
  have htwo : Buffer.charged (db.buffer.inOrder.drop 2) = 235 := by decide +kernel
  have hlimit : (ByteSize.ofNat 300).bytes = 300 := by decide
  have hfits : Buffer.charged (db.buffer.inOrder.drop k) ≤ (ByteSize.ofNat 300).bytes := hk.least.1
  have hle : k ≤ 2 := hk.least.2 (show Buffer.charged (db.buffer.inOrder.drop 2) ≤ _ by omega)
  obtain rfl : k = 2 := by
    interval_cases k
    · omega
    · omega
    · rfl
  have horder : db.flushOrder = [.filled 1, .filled 2, .filled 3] := by decide +kernel
  have hmany : db.ManyPreimages := by decide +kernel
  exact ⟨hkept (by decide +kernel), hk, by rw [hk.order, horder]; rfl, hk.size.trans htwo,
    by rw [hk.preimages, if_pos hmany]⟩

end MerkleBuffer
