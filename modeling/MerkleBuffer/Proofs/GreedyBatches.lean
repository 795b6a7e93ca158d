/-
Batches are the greedy split of the puts.

Puts are queued one after the other, and a batch is closed by the put with which its
values reach the ideal size. So a sequence of puts is cut into consecutive batches of
which only the last one is still open, and there is one way to do so
(`GreedySplit.unique`). The split is found by induction along the loop that queues the
puts (`queueAll_split`): what is queued and not yet written stays below the ideal size.
A cap is one such sequence. A commit is two, and the batch that is open behind its
preimages is written before its nodes are queued.
-/
import Mathlib
import MerkleBuffer.Proofs.Database.Recorded
import MerkleBuffer.Store.Memory

namespace MerkleBuffer

theorem valueBytes_append (ps qs : List Put) : valueBytes (ps ++ qs) = valueBytes ps + valueBytes qs := by
  simp [valueBytes]

/-- A first part of some puts has no more bytes of values. -/
theorem valueBytes_le {ps qs : List Put} (hinitial : ps <+: qs) : valueBytes ps ≤ valueBytes qs := by
  obtain ⟨rest, rfl⟩ := hinitial
  rw [valueBytes_append]
  exact Nat.le_add_right _ _

theorem initial_dropLast {ps qs : List Put} (hinitial : ps <+: qs) (hne : ps ≠ qs) : ps <+: qs.dropLast := by
  obtain ⟨rest, rfl⟩ := hinitial
  have hrest : rest ≠ [] := by
    rintro rfl
    exact hne (List.append_nil ps).symm
  rw [List.dropLast_append_of_ne_nil hrest]
  exact List.prefix_append _ _

/-- Puts cut into consecutive batches. Each batch but the last is closed by the put with
which its values reach `n` bytes, and the last one, which may be empty, is still open. -/
structure GreedySplit (n : Nat) (puts : List Put) (batches : List (List Put)) : Prop where
  flatten : batches.flatten = puts
  ne_nil : batches ≠ []
  short : ∀ batch ∈ batches, valueBytes batch.dropLast < n
  full : ∀ batch ∈ batches.dropLast, n ≤ valueBytes batch
  last : ∀ batch ∈ batches.getLast?, valueBytes batch < n

namespace GreedySplit

variable {n : Nat} {puts held batch batch' : List Put} {batches batches' : List (List Put)} {p : Put}

theorem single (hn : valueBytes batch < n) : GreedySplit n batch [batch] where
  flatten := List.append_nil batch
  ne_nil := List.cons_ne_nil _ _
  short _ hb := by
    obtain rfl := List.mem_singleton.1 hb
    exact Nat.lt_of_le_of_lt (valueBytes_le (List.dropLast_prefix _)) hn
  full _ hb := by cases hb
  last _ hb := by
    cases hb
    exact hn

theorem cons (hshort : valueBytes batch.dropLast < n) (hfull : n ≤ valueBytes batch)
    (hs : GreedySplit n puts batches) : GreedySplit n (batch ++ puts) (batch :: batches) where
  flatten := by rw [List.flatten_cons, hs.flatten]
  ne_nil := List.cons_ne_nil _ _
  short := List.forall_mem_cons.2 ⟨hshort, hs.short⟩
  full := by
    rw [List.dropLast_cons_of_ne_nil hs.ne_nil]
    exact List.forall_mem_cons.2 ⟨hfull, hs.full⟩
  last b hb := by
    rw [List.getLast?_cons_of_ne_nil hs.ne_nil] at hb
    exact hs.last b hb

theorem tail (hs : GreedySplit n puts (batch :: batches)) (hne : batches ≠ []) :
    n ≤ valueBytes batch ∧ GreedySplit n batches.flatten batches := by
  have hfull := hs.full
  rw [List.dropLast_cons_of_ne_nil hne] at hfull
  have hlast := hs.last
  rw [List.getLast?_cons_of_ne_nil hne] at hlast
  exact ⟨hfull batch List.mem_cons_self, rfl, hne, fun b hb => hs.short b (List.mem_cons_of_mem _ hb),
    fun b hb => hfull b (List.mem_cons_of_mem _ hb), hlast⟩

/-- **What is in memory is bounded.** A batch is held while it is filled, and with the
put that was queued last it has at most that value on top of `n - 1` bytes. -/
theorem held_le (hs : GreedySplit n puts batches) (hb : batch ∈ batches) (hheld : held ++ [p] <+: batch) :
    valueBytes (held ++ [p]) ≤ n - 1 + p.value.length := by
  have hbefore : held <+: batch.dropLast := by
    refine initial_dropLast ((List.prefix_append held [p]).trans hheld) ?_
    rintro rfl
    simpa using hheld.length_le
  have hlt := Nat.lt_of_le_of_lt (valueBytes_le hbefore) (hs.short batch hb)
  have hone : valueBytes [p] = p.value.length := by simp [valueBytes]
  rw [valueBytes_append, hone]
  omega

theorem held_le_of_splits {sequences : List (List Put)} {splits : List (List (List Put))}
    (hs : List.Forall₂ (GreedySplit n) sequences splits) (hb : batch ∈ splits.flatten)
    (hheld : held ++ [p] <+: batch) : valueBytes (held ++ [p]) ≤ n - 1 + p.value.length := by
  induction hs with
  | nil => cases hb
  | cons hfirst _ ih =>
    cases List.mem_append.1 hb with
    | inl h => exact hfirst.held_le h hheld
    | inr h => exact ih h

/-- The first batch of a split is no shorter than that of another one. -/
theorem head_initial (hs : GreedySplit n puts (batch :: batches)) (hs' : GreedySplit n puts (batch' :: batches')) :
    batch' <+: batch := by
  have hputs : batch <+: puts := ⟨batches.flatten, hs.flatten⟩
  have hputs' : batch' <+: puts := ⟨batches'.flatten, hs'.flatten⟩
  by_contra hnot
  have hinitial : batch <+: batch' := (List.prefix_or_prefix_of_prefix hputs hputs').resolve_right hnot
  have hne : batch ≠ batch' := fun heq => hnot (heq ▸ List.prefix_rfl)
  -- the batch is part of what the other one held before its last put, so it is still open,
  -- and nothing comes behind it
  have hopen : valueBytes batch < n :=
    Nat.lt_of_le_of_lt (valueBytes_le (initial_dropLast hinitial hne)) (hs'.short _ List.mem_cons_self)
  have hlast : batches = [] := by
    by_contra hmore
    have hfull := (hs.tail hmore).1
    omega
  have hwhole : batch = puts := by
    have hflatten := hs.flatten
    rwa [hlast, List.flatten_cons, List.flatten_nil, List.append_nil] at hflatten
  exact hnot (hwhole ▸ hputs')

/-- **There is one greedy split.** -/
theorem unique (hs : GreedySplit n puts batches) (hs' : GreedySplit n puts batches') : batches = batches' := by
  induction batches generalizing puts batches' with
  | nil => exact absurd rfl hs.ne_nil
  | cons batch rest ih =>
    cases batches' with
    | nil => exact absurd rfl hs'.ne_nil
    | cons batch' rest' =>
      have hprefix := hs'.head_initial hs
      have hprefix' := hs.head_initial hs'
      obtain rfl : batch = batch' := hprefix.eq_of_length_le hprefix'.length_le
      have hflatten := hs.flatten.trans hs'.flatten.symm
      rw [List.flatten_cons, List.flatten_cons, List.append_cancel_left_eq] at hflatten
      -- a batch that is closed is no last batch
      have hopen : ∀ {rest rest'}, GreedySplit n puts (batch :: rest) → GreedySplit n puts (batch :: rest') →
          rest = [] → rest' = [] := by
        intro rest rest' hs hs' hnil
        subst hnil
        by_contra hne
        have hlt := hs.last batch rfl
        have hfull := (hs'.tail hne).1
        omega
      by_cases hnil : rest = []
      · rw [hnil, hopen hs hs' hnil]
      · have hnil' : rest' ≠ [] := fun h => hnil (hopen hs' hs h)
        rw [ih (hs.tail hnil).2 (hflatten ▸ (hs'.tail hnil').2)]

end GreedySplit

/-! ## The loop that queues puts -/

namespace Database

section Queues

variable {σ : Type} [KeyValueStore σ] {settle : Settle σ} {db after : Database σ} {puts : List Put} {n : Nat}

/-- Batches are written one behind the other, and each is settled before the next one is
begun. -/
inductive Delivers (settle : Settle σ) : Database σ → List (List Put) → Database σ → Prop
  | nothing (db : Database σ) : Delivers settle db [] db
  | batch {db after : Database σ} {disk : σ} {batch : List Put} {rest : List (List Put)}
      (hw : KeyValueStore.write db.disk batch = .ok disk)
      (hrest : Delivers settle (settle batch { db with disk }) rest after) : Delivers settle db (batch :: rest) after

/-- **Queued puts are split greedily**, behind those of a batch that is open. The last
batch is handed back, and it is written with no other puts. -/
theorem queueAll_split (hconfig : ∀ puts (db : Database σ), (settle puts db).config = db.config)
    {batch last : Batch} (hn : db.config.idealBatchSize.toNat = n) (hopen : batch.valueSize < n)
    (hq : queueAll settle db batch puts = (.ok last, after)) {final : Database σ}
    (hlast : Delivers settle after [last.puts] final) :
    ∃ batches, GreedySplit n (batch.puts ++ puts) batches ∧ Delivers settle db batches final := by
  induction puts generalizing db batch with
  | nil =>
    simp only [queueAll, Prod.mk.injEq, Except.ok.injEq] at hq
    obtain ⟨rfl, rfl⟩ := hq
    rw [batch.valueSize_eq] at hopen
    rw [List.append_nil]
    exact ⟨[batch.puts], .single hopen, hlast⟩
  | cons p rest ih =>
    have hpush : (batch.push p).puts = batch.puts ++ [p] := rfl
    have hputs : batch.puts ++ p :: rest = (batch.push p).puts ++ rest := by simp [hpush]
    rw [hputs]
    rw [queueAll] at hq
    split at hq
    · cases hq
    dsimp only at hq
    split at hq
    · next hfull =>
      rw [writeBatch] at hq
      cases hw : KeyValueStore.write db.disk (batch.push p).puts with
      | error e =>
        rw [hw] at hq
        cases hq
      | ok disk =>
        rw [hw] at hq
        have hempty : Batch.empty.valueSize < n := Nat.lt_of_le_of_lt (Nat.zero_le _) hopen
        have hsize : (settle (batch.push p).puts { db with disk }).config.idealBatchSize.toNat = n := by
          rw [hconfig]
          exact hn
        obtain ⟨batches, hsplit, hdelivers⟩ := ih hsize hempty hq
        refine ⟨(batch.push p).puts :: batches, .cons ?_ ?_ hsplit, .batch hw hdelivers⟩
        · rwa [hpush, List.dropLast_concat, ← batch.valueSize_eq]
        · rwa [← (batch.push p).valueSize_eq, ← hn]
    · next hfull =>
      rw [hn] at hfull
      exact ih hn (Nat.lt_of_not_le hfull) hq

/-- **What is written are the batches of the greedy split.** -/
theorem writeAll_split (hconfig : ∀ puts (db : Database σ), (settle puts db).config = db.config)
    (hn : db.config.idealBatchSize.toNat = n) (hpos : 0 < n)
    (hw : writeAll settle db Batch.empty puts = (.ok (), after)) :
    ∃ batches, GreedySplit n puts batches ∧ Delivers settle db batches after := by
  unfold writeAll at hw
  split at hw
  · cases hw
  · next last mid hq =>
    unfold writeBatch at hw
    split at hw
    · cases hw
    · next disk hlast =>
      cases hw
      exact queueAll_split hconfig hn hpos hq (.batch hlast (.nothing _))

end Queues

section Journals

variable {σ : Type} [KeyValueStore σ] {settle : Settle (Faulty σ)} {db after : Database (Faulty σ)}
  {batches : List (List Put)}

/-- The journal lists what was delivered; an empty batch leaves no trace. -/
theorem Delivers.journal (hdisk : ∀ puts (db : Database (Faulty σ)), (settle puts db).disk = db.disk)
    (hd : Delivers settle db batches after) :
    after.disk.journal = db.disk.journal ++ batches.filter (!·.isEmpty) := by
  induction hd with
  | nothing db => rw [List.filter_nil, List.append_nil]
  | @batch db after disk batch rest hw _ ih =>
    obtain ⟨store, -, rfl⟩ := Faulty.write_eq_ok hw
    rw [ih, hdisk]
    cases batch <;> simp

end Journals

theorem settleNodes_config {σ : Type} (puts : List Put) (db : Database σ) :
    (settleNodes puts db).config = db.config := by
  induction puts generalizing db with
  | nil => rfl
  | cons p rest ih =>
    refine (ih (settleNode db p)).trans ?_
    unfold settleNode
    split
    · rfl
    · split <;> rfl

end Database

/-! ## Caps and commits -/

namespace Flush

section Keys

variable {σ : Type} {db : Database σ}

/-- The puts that are queued one behind the other: a commit writes the batch that is open
behind its preimages before it goes on. -/
def sequences (f : Flush) (db : Database σ) : List (List Put) :=
  match f with
  | cap _ => [(f.preimages db).map Database.preimagePut ++ (f.nodes db).map Database.nodePut]
  | commit _ => [(f.preimages db).map Database.preimagePut, (f.nodes db).map Database.nodePut]

theorem flatten_sequences (f : Flush) (db : Database σ) : (f.sequences db).flatten = f.puts db := by
  cases f <;> simp [sequences, puts]

theorem preimages_sublist (f : Flush) (db : Database σ) : List.Sublist (f.preimages db) db.buffer.preimages := by
  cases f with
  | cap limit =>
    simp only [preimages, Database.capPreimages]
    split
    · exact List.nil_sublist _
    · split
      · exact List.Sublist.refl _
      · exact List.nil_sublist _
  | commit root => exact List.Sublist.refl _

theorem nodup_keys (f : Flush) (hw : db.buffer.WellFormed) (hpreimages : (db.buffer.preimages.map (·.1)).Nodup) :
    ((f.puts db).map (·.key)).Nodup := by
  have hsecure : ((f.preimages db).map (secureKey ·.1)).Nodup := by
    have hnodup := ((f.preimages_sublist db).map (·.1)).nodup hpreimages
    have hmap := hnodup.map (f := secureKey) fun _ _ => secureKey_inj
    rwa [List.map_map] at hmap
  have hnodes : ((f.nodes db).map (·.1.bytes)).Nodup := by
    have hmap := (f.nodes_staged hw).2.map (f := Hash.bytes) fun _ _ => Hash.ext
    rwa [List.map_map] at hmap
  have hkeys : (f.puts db).map (·.key) = (f.preimages db).map (secureKey ·.1) ++ (f.nodes db).map (·.1.bytes) := by
    rw [puts, List.map_append, List.map_map, List.map_map]
    rfl
  rw [hkeys, List.nodup_append]
  refine ⟨hsecure, hnodes, fun a ha b hb hab => ?_⟩
  obtain ⟨x, -, rfl⟩ := List.mem_map.1 ha
  obtain ⟨y, -, rfl⟩ := List.mem_map.1 hb
  exact secureKey_ne_bytes x.1 y.1 hab

end Keys

variable {σ : Type} [KeyValueStore σ] {db after : Database (Faulty σ)} {n : Nat}

/-- **A call that succeeds has delivered the greedy split** of each of its sequences. -/
theorem split (f : Flush) (hn : db.config.idealBatchSize.toNat = n) (hpos : 0 < n)
    (hrun : f.run db = (.ok (), after)) :
    ∃ splits, List.Forall₂ (GreedySplit n) (f.sequences db) splits ∧
      after.disk.journal = db.disk.journal ++ splits.flatten.filter (!·.isEmpty) := by
  cases f with
  | cap limit =>
    simp only [run, Database.cap] at hrun
    simp only [sequences, preimages, nodes, Database.capPreimages, Database.capNodes]
    split at hrun
    · next hfits =>
      cases hrun
      rw [if_pos hfits, if_pos hfits]
      exact ⟨[[[]]], .cons (.single hpos) .nil, by simp⟩
    · next hfits =>
      rw [if_neg hfits, if_neg hfits]
      split at hrun
      · cases hrun
      · next stored hw =>
        cases hrun
        obtain ⟨batches, hsplit, hdelivers⟩ := Database.writeAll_split (fun _ _ => rfl) hn hpos hw
        have hjournal := hdelivers.journal fun _ _ => rfl
        refine ⟨[batches], .cons hsplit .nil, ?_⟩
        rw [List.flatten_singleton]
        exact hjournal
  | commit root =>
    simp only [run, Database.commit] at hrun
    simp only [sequences, preimages, nodes]
    split at hrun
    · cases hrun
    split at hrun
    · cases hrun
    next stored hw =>
    obtain ⟨batches, hsplit, hdelivers⟩ := Database.writeAll_split (fun _ _ => rfl) hn hpos hw
    -- the preimages change the store alone
    have hstored : stored.config = db.config ∧ stored.buffer = db.buffer := by
      obtain ⟨-, -, disk, -, -, hafter, -⟩ :=
        Database.writeAll_nothing_spec db (db.buffer.preimages.map Database.preimagePut)
      rw [hw] at hafter
      obtain rfl : stored = { db with disk } := hafter
      exact ⟨rfl, rfl⟩
    split at hrun
    · cases hrun
    next done hw' =>
    cases hrun
    rw [hstored.2] at hw'
    obtain ⟨batches', hsplit', hdelivers'⟩ :=
      Database.writeAll_split Database.settleNodes_config (hstored.1 ▸ hn) hpos hw'
    refine ⟨[batches, batches'], .cons hsplit (.cons hsplit' .nil), ?_⟩
    have hnodes := hdelivers'.journal Database.settleNodes_disk
    rw [hdelivers.journal fun _ _ => rfl, List.append_assoc, ← List.filter_append] at hnodes
    rw [List.flatten_cons, List.flatten_singleton]
    exact hnodes

/-- A call fails where the store turns down a batch, or a put. The meta-root cannot be
committed. -/
theorem refused {f : Flush} (hf : f ≠ commit Hash.zero) {e : Error} (hrun : f.run db = (.error e, after)) :
    Database.Refuses after.disk (f.puts db) e := by
  cases f with
  | cap limit => exact Database.cap_refused hrun
  | commit root => exact Database.commit_refused (fun hz => hf (by rw [hz])) hrun

end Flush

section Reachable

variable {σ : Type} [KeyValueStore σ]

theorem config_run (c : Command) (db : Database σ) : (c.run db).config = db.config := by
  have hstaging : ∀ h size node, c.staging? = some (h, size, node) → (c.run db).config = db.config := by
    intro h size node hc
    rw [run_staging hc]
    split <;> rfl
  have hlookup : ∀ h, c = .lookup h ∨ c = .lookupTrieNode h → (c.run db).config = db.config := by
    intro h hc
    obtain ⟨cleans, heq, -⟩ := run_lookup c h hc db
    rw [heq]
  cases c with
  | insert h blob node => exact hstaging _ _ _ rfl
  | insertBlob h blob => exact hstaging _ _ _ rfl
  | insertNode node => exact hstaging _ _ _ rfl
  | insertPreimage h preimage => rfl
  | reference child parent =>
    simp only [Command.run, Database.reference]
    split <;> rfl
  | dereference root =>
    simp only [Command.run, Database.dereference]
    split <;> rfl
  | cap limit =>
    obtain ⟨_, _, _, -, -, ⟨e, heq⟩ | ⟨-, heq⟩⟩ := db.cap_outcome limit <;> rw [Command.run, heq]
  | commit root =>
    obtain ⟨_, _, _, _, _, _, _, -, -, -, -, -, ⟨e, heq⟩ | ⟨-, -, -, heq⟩⟩ := db.commit_outcome root <;>
      rw [Command.run, heq]
  | lookup h => exact hlookup h (.inl rfl)
  | lookupTrieNode h => exact hlookup h (.inr rfl)

theorem Reachable.config {allowed : Database (Faulty σ) → Command → Prop} {start db : Database (Faulty σ)}
    (hr : Reachable allowed start db) : db.config = start.config := by
  induction hr with
  | start => rfl
  | step _ writes c _ ih => exact (config_run c _).trans ih

theorem Reachable.nodup_preimages {allowed : Database (Faulty σ) → Command → Prop} {start db : Database (Faulty σ)}
    (hr : Reachable allowed start db) (hstart : (start.buffer.preimages.map (·.1)).Nodup) :
    (db.buffer.preimages.map (·.1)).Nodup := by
  induction hr with
  | start => exact hstart
  | step _ writes c _ ih => exact nodup_preimages_run c ih

end Reachable

/-- What a call has delivered that has an ideal size of `n` bytes for its batches. All of
its puts have reached the store, under one key each, in the batches of the greedy splits
of its sequences. And while a batch is filled, what is held of it has fewer than `n`
bytes and the value of one put on top. -/
structure GreedilyBatched {σ : Type} (n : Nat) (f : Flush) (db after : Database (Faulty σ)) : Prop where
  all : (f.sequences db).flatten = f.puts db
  once : ((f.puts db).map (·.key)).Nodup
  split : ∃ splits, List.Forall₂ (GreedySplit n) (f.sequences db) splits ∧
    after.disk.journal = db.disk.journal ++ splits.flatten.filter (!·.isEmpty) ∧
    ∀ batch ∈ splits.flatten, ∀ held p, held ++ [p] <+: batch → valueBytes (held ++ [p]) ≤ n - 1 + p.value.length

/-- **Batches are the greedy split of the puts.** In every state of a run over any store,
with any settings and with writes that fail at any time, a cap and a commit of any root
fail where the store turns down a put or a batch, or they have delivered all of their
puts in the batches of the greedy split. -/
theorem batches_greedy {σ : Type} [KeyValueStore σ] (disk : Faulty σ) (config : Config) (hv : config.Valid)
    {db : Database (Faulty σ)} (hr : Reachable (fun _ _ => True) (.ofValid disk config hv) db) (writes : Option Nat)
    {f : Flush} (hf : f ≠ .commit Hash.zero) :
    (∃ e after, f.run (db.allowing writes) = (.error e, after) ∧
        Database.Refuses after.disk (f.puts (db.allowing writes)) e) ∨
      ∃ after, f.run (db.allowing writes) = (.ok (), after) ∧
        GreedilyBatched config.idealBatchSize.toNat f (db.allowing writes) after := by
  have hw : db.buffer.WellFormed := hr.wellFormed .empty
  have hpreimages : (db.buffer.preimages.map (·.1)).Nodup := hr.nodup_preimages List.nodup_nil
  have hn : (db.allowing writes).config.idealBatchSize.toNat = config.idealBatchSize.toNat :=
    congrArg (·.idealBatchSize.toNat) hr.config
  have hpos : 0 < config.idealBatchSize.toNat := by
    refine Nat.pos_of_ne_zero fun hzero => ?_
    have hsize : config.idealBatchSize = 0 := UInt64.toNat_inj.1 hzero
    rw [Config.Valid, Config.fault?, if_pos hsize] at hv
    cases hv
  cases hrun : f.run (db.allowing writes) with
  | mk result after =>
    cases result with
    | error e => exact .inl ⟨e, after, rfl, f.refused hf hrun⟩
    | ok _ =>
      obtain ⟨splits, hsplits, hjournal⟩ := f.split hn hpos hrun
      exact .inr ⟨after, rfl, f.flatten_sequences _, f.nodup_keys hw hpreimages, splits, hsplits, hjournal,
        fun batch hbatch held p hheld => GreedySplit.held_le_of_splits hsplits hbatch hheld⟩

/-- Settings with batches of three bytes, and preimages that a cap takes along. -/
def threeBytes : Config := { Config.withoutCleanCache with idealBatchSize := 3, preimageFlushThreshold := 60 }

/-- Two preimages, one of them empty, and a root above two blobs, of which one is empty. -/
def emptyValues : List (Option Nat × Command) :=
  [(none, .insertPreimage (.filled 7) [1, 2]), (none, .insertPreimage (.filled 8) []),
    (none, .insertBlob (.filled 1) []), (none, .insertBlob (.filled 2) [3, 4, 5, 6]),
    (none, .insert (.filled 3) [9]
      (.trie (((TrieNode.bareBranch []).withChild 0 (.hash (.filled 1))).withChild 1 (.hash (.filled 2)))))]

/-- In a commit the preimages stay below three bytes, so they are one batch, and of the nodes
each that has bytes closes a batch. In a cap the nodes go on where the preimages stopped. The
last batch is empty in both and leaves no trace. -/
theorem batches_greedy_emptyValues :
    let db := (Database.ofValid (.reliable MemoryStore.empty) threeBytes (by decide)).runAll emptyValues
    (∃ after, (Flush.commit (.filled 3)).run (db.allowing none) = (.ok (), after) ∧
      GreedilyBatched 3 (.commit (.filled 3)) (db.allowing none) after ∧
      after.disk.journal.map (·.map (·.value.length)) = [[2, 0], [0, 4], [95]]) ∧
    ∃ after, (Flush.cap ByteSize.zero).run (db.allowing none) = (.ok (), after) ∧
      GreedilyBatched 3 (.cap ByteSize.zero) (db.allowing none) after ∧
      after.disk.journal.map (·.map (·.value.length)) = [[2, 0, 0, 4], [95]] := by
  intro db
  have hall : AllAllowed (fun _ _ => True) (.ofValid (.reliable MemoryStore.empty) threeBytes (by decide))
      emptyValues := by
    simp [AllAllowed, emptyValues]
  have hbatches {f : Flush} (hf : f ≠ .commit Hash.zero) (hok : (f.run (db.allowing none)).1.isOk = true) :
      f.run (db.allowing none) = (.ok (), (f.run (db.allowing none)).2) ∧
        GreedilyBatched 3 f (db.allowing none) (f.run (db.allowing none)).2 := by
    rcases batches_greedy _ threeBytes (by decide) (Reachable.start.runAll hall) none hf with
      ⟨e, after, hrun, -⟩ | ⟨after, hrun, hbatches⟩
    · rw [hrun] at hok
      cases hok
    · rw [hrun]
      exact ⟨rfl, hbatches⟩
  have hroot : Flush.commit (.filled 3) ≠ .commit Hash.zero := fun heq => absurd (Flush.commit.inj heq) (by decide)
  obtain ⟨hcommit, hcommitted⟩ := hbatches hroot (by set_option maxRecDepth 10000 in cbv)
  have hcap : Flush.cap ByteSize.zero ≠ .commit Hash.zero := fun heq => by cases heq
  obtain ⟨hcap, hcapped⟩ := hbatches hcap (by set_option maxRecDepth 10000 in cbv)
  refine ⟨⟨_, hcommit, hcommitted, ?_⟩, _, hcap, hcapped, ?_⟩
  · set_option maxRecDepth 10000 in cbv
  · set_option maxRecDepth 10000 in cbv

end MerkleBuffer
