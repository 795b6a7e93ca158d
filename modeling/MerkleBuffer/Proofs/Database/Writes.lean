/-
What caps and commits write, and what leaves the buffer with it.

`writeAll_keeps` is the rule for batched writes: an invariant about the puts that
are still to be written, kept by every batch that is written, holds wherever the
writing stops. With it, `cap_outcome` and `commit_outcome` say what both operations
return and what they leave behind, also when they fail; `cap_spec` and `commit_spec`
are what success and failure have in common. Batched writes fail only where the store
turns down a batch, and with its error (`writeAll_refused`).
-/
import MerkleBuffer.Database.Cap
import MerkleBuffer.Database.Commit
import MerkleBuffer.Proofs.Buffer.Walk
import MerkleBuffer.Proofs.CleanCache
import MerkleBuffer.Proofs.Store.Lawful

namespace MerkleBuffer

/-- A buffer after a commit has stored all it had to: it forgets the preimages, and
most counters start again. -/
def Buffer.committed (b : Buffer) : Buffer := { b.clearPreimages with stats := b.stats.sinceCommit }

namespace Database

variable {σ : Type}

/-! ## Settling -/

theorem settleNode_nodePut (db : Database σ) (node : Hash × Staged) :
    ∃ cleans, settleNode db (nodePut node) = { db with buffer := db.buffer.discard node.1, cleans } ∧
      ∀ V, V node.1 node.2.node.encode → (∀ c ∈ db.cleans, c.All V) → ∀ c ∈ cleans, c.All V := by
  unfold settleNode nodePut
  simp only [Hash.ofBytes?_bytes]
  split
  · refine ⟨_, rfl, fun V hV hall c hc => ?_⟩
    obtain ⟨c', hc', rfl⟩ := Option.mem_map.1 hc
    exact (hall c' hc').set hV
  · next hnot =>
    have hmem : node.1 ∉ db.buffer.table := by simpa using hnot
    rw [Buffer.discard_of_not_mem hmem]
    exact ⟨db.cleans, rfl, fun _ _ hall => hall⟩

theorem settleNodes_nodePuts (db : Database σ) (nodes : List (Hash × Staged)) :
    ∃ cleans, settleNodes (nodes.map nodePut) db =
        { db with buffer := db.buffer.discards (nodes.map (·.1)), cleans } ∧
      ∀ V, (∀ x ∈ nodes, V x.1 x.2.node.encode) → (∀ c ∈ db.cleans, c.All V) → ∀ c ∈ cleans, c.All V := by
  induction nodes generalizing db with
  | nil => exact ⟨db.cleans, rfl, fun _ _ hall => hall⟩
  | cons node rest ih =>
    obtain ⟨cleans, hnode, hall⟩ := settleNode_nodePut db node
    obtain ⟨cleans', hrest, hall'⟩ := ih (settleNode db (nodePut node))
    refine ⟨cleans', ?_, fun V hV hcleans => hall' V (fun x hx => hV x (List.mem_cons_of_mem _ hx)) ?_⟩
    · show settleNodes (rest.map nodePut) (settleNode db (nodePut node)) = _
      rw [hrest, hnode]
      rfl
    · rw [hnode]
      exact hall V (hV node List.mem_cons_self) hcleans

/-! ## The nodes of a cap -/

theorem overflow_initial (limit size : ByteSize) (nodes : List (Hash × Staged)) :
    Buffer.overflow limit size nodes <+: nodes := by
  induction nodes generalizing size with
  | nil => exact List.prefix_rfl
  | cons node rest ih =>
    rw [Buffer.overflow]
    split
    · exact (List.prefix_cons_inj node).2 (ih _)
    · exact List.nil_prefix

theorem discardFlushed_spec (b : Buffer) (nodes : List (Hash × Staged)) :
    Buffer.SameNodes (b.discards (nodes.map (·.1))) (b.discardFlushed nodes) ∧
      (b.discardFlushed nodes).stats.clampedDereferences = b.stats.clampedDereferences ∧
      (b.discardFlushed nodes).preimages = b.preimages := by
  have hfold : nodes.foldl (fun b node => b.discard node.1) b = b.discards (nodes.map (·.1)) := by
    rw [Buffer.discards, List.foldl_map]
  obtain ⟨-, hstats, hpreimages⟩ := b.discards_frame (nodes.map (·.1))
  have hclamped := congrArg Stats.clampedDereferences hstats
  rw [Buffer.discardFlushed, hfold]
  exact ⟨⟨rfl, rfl, rfl, rfl⟩, hclamped, hpreimages⟩

/-- The preimages that a cap writes: all, if there are more than the threshold. -/
def capPreimages (db : Database σ) (limit : ByteSize) : List (Hash × Bytes) :=
  if db.buffer.residentSize ≤ limit then [] else if db.preimagesOverflow then db.buffer.preimages else []

/-- The nodes that a cap writes. -/
def capNodes (db : Database σ) (limit : ByteSize) : List (Hash × Staged) :=
  if db.buffer.residentSize ≤ limit then []
  else Buffer.overflow limit db.buffer.residentSize db.buffer.inOrder

/-- The buffer that a cap leaves when it succeeds. -/
def capped (db : Database σ) (limit : ByteSize) : Buffer :=
  if db.buffer.residentSize ≤ limit then db.buffer
  else (if db.preimagesOverflow then db.buffer.clearPreimages else db.buffer).discardFlushed (db.capNodes limit)

theorem capNodes_initial (db : Database σ) (limit : ByteSize) : db.capNodes limit <+: db.buffer.inOrder := by
  unfold capNodes
  split
  · exact List.nil_prefix
  · exact overflow_initial limit db.buffer.residentSize db.buffer.inOrder

theorem capped_spec (db : Database σ) (limit : ByteSize) :
    Buffer.SameNodes (db.buffer.discards ((db.capNodes limit).map (·.1))) (db.capped limit) ∧
      (db.capped limit).stats.clampedDereferences = db.buffer.stats.clampedDereferences ∧
      ((db.capped limit).preimages = db.buffer.preimages ∨ (db.capped limit).preimages = []) := by
  by_cases hfits : db.buffer.residentSize ≤ limit
  · rw [capNodes, capped, if_pos hfits, if_pos hfits]
    exact ⟨.refl _, rfl, .inl rfl⟩
  · rw [capped, if_neg hfits]
    generalize db.capNodes limit = nodes
    split
    · obtain ⟨hnodes, hstats, hpreimages⟩ := discardFlushed_spec db.buffer.clearPreimages nodes
      have hclear : Buffer.SameNodes db.buffer db.buffer.clearPreimages := ⟨rfl, rfl, rfl, rfl⟩
      exact ⟨(hclear.discards _).trans hnodes, hstats, .inr hpreimages⟩
    · obtain ⟨hnodes, hstats, hpreimages⟩ := discardFlushed_spec db.buffer nodes
      exact ⟨hnodes, hstats, .inl hpreimages⟩

variable [KeyValueStore σ]

/-- The store turns down puts with an error: it queues none, or there is a batch of them
that it does not write. -/
def Refuses (disk : σ) (puts : List Put) (e : Error) : Prop :=
  KeyValueStore.accept disk = .error e ∨ ∃ batch, batch <:+: puts ∧ KeyValueStore.write disk batch = .error e

theorem Refuses.mono {disk : σ} {puts puts' : List Put} {e : Error} (hr : Refuses disk puts e)
    (hsub : puts <:+: puts') : Refuses disk puts' e :=
  hr.imp_right fun ⟨batch, hbatch, hwrite⟩ => ⟨batch, hbatch.trans hsub, hwrite⟩

/-! ## Batches -/

section Batches

variable {settle : Settle σ} {I : List Put → Database σ → Prop}

theorem queueAll_keeps
    (hwrite : ∀ batch rest db disk, I (batch ++ rest) db → KeyValueStore.write db.disk batch = .ok disk →
      I rest (settle batch { db with disk }))
    {puts : List Put} {db : Database σ} {batch : Batch} (hstart : I (batch.puts ++ puts) db) :
    (∀ last after, queueAll settle db batch puts = (.ok last, after) → I last.puts after) ∧
      ∀ e after, queueAll settle db batch puts = (.error e, after) → ∃ rest, I rest after := by
  induction puts generalizing db batch with
  | nil =>
    rw [List.append_nil] at hstart
    simp only [queueAll, Prod.mk.injEq, Except.ok.injEq, reduceCtorEq, false_and, false_implies, implies_true,
      and_true]
    rintro _ _ ⟨rfl, rfl⟩
    exact hstart
  | cons p rest ih =>
    have hpush : I ((batch.push p).puts ++ rest) db := by
      have heq : (batch.push p).puts ++ rest = batch.puts ++ p :: rest := by simp [Batch.push]
      rwa [heq]
    rw [queueAll]
    split
    · refine ⟨fun _ _ hq => (nomatch hq), fun e after hq => ?_⟩
      cases hq
      exact ⟨_, hstart⟩
    · dsimp only
      split
      · unfold writeBatch
        cases hw : KeyValueStore.write db.disk (batch.push p).puts with
        | error e =>
          refine ⟨fun _ _ hq => (nomatch hq), fun e after hq => ?_⟩
          cases hq
          exact ⟨_, hstart⟩
        | ok disk =>
          have hnext : I (Batch.empty.puts ++ rest) (settle (batch.push p).puts { db with disk }) :=
            hwrite _ _ _ _ hpush hw
          exact ih hnext
      · exact ih hpush

/-- **The rule for batched writes.** -/
theorem writeAll_keeps
    (hwrite : ∀ batch rest db disk, I (batch ++ rest) db → KeyValueStore.write db.disk batch = .ok disk →
      I rest (settle batch { db with disk }))
    {puts : List Put} {db : Database σ} {batch : Batch} (hstart : I (batch.puts ++ puts) db) :
    (∃ rest, I rest (writeAll settle db batch puts).2) ∧
      ((writeAll settle db batch puts).1 = .ok () → I [] (writeAll settle db batch puts).2) := by
  obtain ⟨hok, herror⟩ := queueAll_keeps hwrite hstart
  unfold writeAll
  split
  · next e after hq => exact ⟨herror e after hq, fun h => by cases h⟩
  · next last after hq =>
    have hlast := hok last after hq
    unfold writeBatch
    cases hw : KeyValueStore.write after.disk last.puts with
    | error e => exact ⟨⟨_, hlast⟩, fun h => by cases h⟩
    | ok disk =>
      have hdone := hwrite last.puts [] after disk (by rwa [List.append_nil]) hw
      exact ⟨⟨_, hdone⟩, fun _ => hdone⟩

theorem queueAll_refused {puts : List Put} {db after : Database σ} {batch : Batch} {e : Error}
    (hq : queueAll settle db batch puts = (.error e, after)) : Refuses after.disk (batch.puts ++ puts) e := by
  induction puts generalizing db batch with
  | nil => cases hq
  | cons p rest ih =>
    have hpush : (batch.push p).puts ++ rest = batch.puts ++ p :: rest := by simp [Batch.push]
    rw [queueAll] at hq
    rw [← hpush]
    split at hq
    · next haccept =>
      cases hq
      exact .inl haccept
    dsimp only at hq
    split at hq
    · unfold writeBatch at hq
      cases hw : KeyValueStore.write db.disk (batch.push p).puts with
      | error fault =>
        rw [hw] at hq
        cases hq
        exact .inr ⟨_, (List.prefix_append _ rest).isInfix, hw⟩
      | ok disk =>
        rw [hw] at hq
        exact (ih hq).mono (List.suffix_append _ rest).isInfix
    · exact ih hq

/-- **Batched writes fail with an error of the store**, at a batch of the puts. -/
theorem writeAll_refused {puts : List Put} {db after : Database σ} {e : Error}
    (hw : writeAll settle db Batch.empty puts = (.error e, after)) : Refuses after.disk puts e := by
  unfold writeAll at hw
  split at hw
  · next hq =>
    cases hw
    exact queueAll_refused hq
  · next last mid hq =>
    -- the last batch is the end of the puts
    obtain ⟨hlast, -⟩ := @queueAll_keeps σ _ settle (fun rest _ => rest <:+ puts)
      (fun batch rest _ _ hI _ => (List.suffix_append batch rest).trans hI) puts db Batch.empty List.suffix_rfl
    unfold writeBatch at hw
    split at hw
    · next hwrite =>
      cases hw
      exact .inr ⟨_, (hlast _ _ hq).isInfix, hwrite⟩
    · cases hw

theorem queueAll_ok (haccept : ∀ rest db, I rest db → KeyValueStore.accept db.disk = .ok ())
    (hwrite : ∀ batch rest db, I (batch ++ rest) db →
      ∃ disk, KeyValueStore.write db.disk batch = .ok disk ∧ I rest (settle batch { db with disk }))
    {puts : List Put} {db : Database σ} {batch : Batch} (hstart : I (batch.puts ++ puts) db) :
    ∃ last after, queueAll settle db batch puts = (.ok last, after) ∧ I last.puts after := by
  induction puts generalizing db batch with
  | nil => exact ⟨batch, db, rfl, by simpa using hstart⟩
  | cons p rest ih =>
    have hpush : I ((batch.push p).puts ++ rest) db := by
      have heq : (batch.push p).puts ++ rest = batch.puts ++ p :: rest := by simp [Batch.push]
      rwa [heq]
    rw [queueAll, haccept _ db hstart]
    dsimp only
    split
    · obtain ⟨disk, hw, hnext⟩ := hwrite _ _ db hpush
      rw [writeBatch, hw]
      exact @ih (settle (batch.push p).puts { db with disk }) Batch.empty hnext
    · exact ih hpush

theorem writeAll_ok (haccept : ∀ rest db, I rest db → KeyValueStore.accept db.disk = .ok ())
    (hwrite : ∀ batch rest db, I (batch ++ rest) db →
      ∃ disk, KeyValueStore.write db.disk batch = .ok disk ∧ I rest (settle batch { db with disk }))
    {puts : List Put} {db : Database σ} (hstart : I puts db) :
    ∃ after, writeAll settle db Batch.empty puts = (.ok (), after) ∧ I [] after := by
  obtain ⟨last, mid, hq, hlast⟩ := @queueAll_ok σ _ settle I haccept hwrite puts db Batch.empty hstart
  obtain ⟨disk, hw, hdone⟩ := hwrite last.puts [] mid (by rwa [List.append_nil])
  exact ⟨_, by rw [writeAll, hq]; simp only [writeBatch, hw], hdone⟩

end Batches

/-! ## Preimages and caps -/

theorem writeAll_nothing_spec (db : Database σ) (puts : List Put) :
    ∃ written rest disk, puts = written ++ rest ∧ Wrote db.disk written disk ∧
      (writeAll Settle.nothing db Batch.empty puts).2 = { db with disk } ∧
      ((writeAll Settle.nothing db Batch.empty puts).1 = .ok () → rest = []) := by
  obtain ⟨⟨rest, hrest⟩, hdone⟩ := @writeAll_keeps σ _ Settle.nothing
    (fun rest d => ∃ written,
      puts = written ++ rest ∧ Wrote db.disk written d.disk ∧ d = { db with disk := d.disk })
    (fun batch rest d disk hI hw => by
      obtain ⟨written, hputs, hwrote, heq⟩ := hI
      refine ⟨written ++ batch, by rw [hputs, List.append_assoc], hwrote.batch hw, ?_⟩
      rw [heq]
      rfl)
    puts db Batch.empty ⟨[], rfl, .nothing, rfl⟩
  by_cases hok : (writeAll Settle.nothing db Batch.empty puts).1 = .ok ()
  · obtain ⟨written, hputs, hwrote, heq⟩ := hdone hok
    exact ⟨written, [], _, hputs, hwrote, heq, fun _ => rfl⟩
  · obtain ⟨written, hputs, hwrote, heq⟩ := hrest
    exact ⟨written, rest, _, hputs, hwrote, heq, fun h => absurd h hok⟩

/-- **What a cap returns.** If it fails, it has written some of the puts, the first
ones, and the buffer is as it was. -/
theorem cap_outcome (db : Database σ) (limit : ByteSize) :
    ∃ (written rest : List Put) (disk : σ),
      (db.capPreimages limit).map preimagePut ++ (db.capNodes limit).map nodePut = written ++ rest ∧
      Wrote db.disk written disk ∧
      ((∃ e, db.cap limit = (.error e, { db with disk })) ∨
        rest = [] ∧ db.cap limit = (.ok (), { db with disk, buffer := db.capped limit })) := by
  by_cases hfits : db.buffer.residentSize ≤ limit
  · simp only [cap, capPreimages, capNodes, capped, if_pos hfits]
    exact ⟨[], [], db.disk, rfl, .nothing, .inr ⟨rfl, rfl⟩⟩
  simp only [cap, capPreimages, capNodes, capped, if_neg hfits]
  generalize (if db.preimagesOverflow = true then db.buffer.preimages else []) = preimages
  generalize Buffer.overflow limit db.buffer.residentSize db.buffer.inOrder = nodes
  obtain ⟨written, rest, disk, hputs, hwrote, hafter, hdone⟩ :=
    writeAll_nothing_spec db (preimages.map preimagePut ++ nodes.map nodePut)
  refine ⟨written, rest, disk, hputs, hwrote, ?_⟩
  split
  · next e after heq =>
    rw [heq] at hafter
    subst hafter
    exact .inl ⟨e, rfl⟩
  · next after heq =>
    rw [heq] at hafter hdone
    subst hafter
    exact .inr ⟨hdone rfl, rfl⟩

/-- **A cap fails with an error of the store.** -/
theorem cap_refused {db after : Database σ} {limit : ByteSize} {e : Error} (h : db.cap limit = (.error e, after)) :
    Refuses after.disk ((db.capPreimages limit).map preimagePut ++ (db.capNodes limit).map nodePut) e := by
  by_cases hfits : db.buffer.residentSize ≤ limit
  · rw [cap, if_pos hfits] at h
    cases h
  simp only [cap, if_neg hfits] at h
  simp only [capPreimages, capNodes, if_neg hfits]
  split at h
  · next hwrite =>
    cases h
    exact writeAll_refused hwrite
  · cases h

/-- **What a cap does.** It writes preimages and then the oldest nodes. If it
succeeds, those nodes have left the buffer; if it fails, none has. -/
theorem cap_spec (db : Database σ) (limit : ByteSize) :
    ∃ (preimages : List (Hash × Bytes)) (nodes : List (Hash × Staged)) (written rest : List Put) (disk : σ)
      (buffer : Buffer),
      nodes <+: db.buffer.inOrder ∧ preimages.map preimagePut ++ nodes.map nodePut = written ++ rest ∧
      Wrote db.disk written disk ∧ (db.cap limit).2 = { db with disk, buffer } ∧
      buffer.stats.clampedDereferences = db.buffer.stats.clampedDereferences ∧
      (Buffer.SameNodes db.buffer buffer ∨
        rest = [] ∧ Buffer.SameNodes (db.buffer.discards (nodes.map (·.1))) buffer) := by
  obtain ⟨written, rest, disk, hputs, hwrote, ⟨e, heq⟩ | ⟨hdone, heq⟩⟩ := db.cap_outcome limit
  · exact ⟨_, _, written, rest, disk, db.buffer, db.capNodes_initial limit, hputs, hwrote, by rw [heq], rfl,
      .inl (.refl _)⟩
  · obtain ⟨hsame, hstats, -⟩ := db.capped_spec limit
    exact ⟨_, _, written, rest, disk, _, db.capNodes_initial limit, hputs, hwrote, by rw [heq], hstats,
      .inr ⟨hdone, hsame⟩⟩

/-! ## Commits -/

/-- **What a commit returns.** It writes preimages and then nodes of the subtree, in
its order. The nodes that were written have left the buffer, also if it fails; if it
succeeds these are all. -/
theorem commit_outcome (db : Database σ) (root : Hash) :
    ∃ (written rest : List Put) (disk₁ : σ) (gone left : List (Hash × Staged)) (disk : σ)
      (cleans : Option CleanCache),
      db.buffer.preimages.map preimagePut = written ++ rest ∧ Wrote db.disk written disk₁ ∧
      db.buffer.subtree root = gone ++ left ∧ Wrote disk₁ (gone.map nodePut) disk ∧
      (∀ V, (∀ x ∈ gone, V x.1 x.2.node.encode) → (∀ c ∈ db.cleans, c.All V) → ∀ c ∈ cleans, c.All V) ∧
      ((∃ e, db.commit root =
          (.error e, { db with disk, cleans, buffer := db.buffer.discards (gone.map (·.1)) })) ∨
        root ≠ Hash.zero ∧ rest = [] ∧ left = [] ∧ db.commit root =
          (.ok (), { db with disk, cleans, buffer := (db.buffer.discards (gone.map (·.1))).committed })) := by
  unfold commit
  split
  · exact ⟨[], db.buffer.preimages.map preimagePut, db.disk, [], db.buffer.subtree root, db.disk, db.cleans, rfl,
      .nothing, rfl, .nothing, fun _ _ hall => hall, .inl ⟨_, rfl⟩⟩
  next hz =>
  have hroot : root ≠ Hash.zero := fun heq => hz (by rw [heq]; rfl)
  obtain ⟨written, rest, disk₁, hputs, hwrote, hafter, hstored⟩ :=
    writeAll_nothing_spec db (db.buffer.preimages.map preimagePut)
  split
  · next e after heq =>
    rw [heq] at hafter
    subst hafter
    exact ⟨written, rest, disk₁, [], db.buffer.subtree root, disk₁, db.cleans, hputs, hwrote, rfl, .nothing,
      fun _ _ hall => hall, .inl ⟨e, rfl⟩⟩
  next stored heq =>
  rw [heq] at hafter hstored
  subst hafter
  -- what is left to be written is the subtree without the nodes that are gone
  obtain ⟨⟨rest', gone, left, cleans, hrest, hsub, hdisk, hdb, hall⟩, hdone⟩ := @writeAll_keeps σ _ settleNodes
    (fun rest d => ∃ gone left cleans, rest = left.map nodePut ∧ db.buffer.subtree root = gone ++ left ∧
      Wrote disk₁ (gone.map nodePut) d.disk ∧
      d = { db with disk := d.disk, buffer := db.buffer.discards (gone.map (·.1)), cleans } ∧
      ∀ V, (∀ x ∈ gone, V x.1 x.2.node.encode) → (∀ c ∈ db.cleans, c.All V) → ∀ c ∈ cleans, c.All V)
    (fun batch rest d disk hI hw => by
      obtain ⟨gone, left, cleans, hrest, hsub, hwrote, hd, hall⟩ := hI
      obtain ⟨nodes, left', rfl, rfl, rfl⟩ := List.map_eq_append_iff.1 hrest.symm
      obtain ⟨cleans', hsettle, hall'⟩ := settleNodes_nodePuts { d with disk } nodes
      refine ⟨gone ++ nodes, left', cleans', rfl, by rw [hsub, List.append_assoc], ?_, ?_, ?_⟩
      · rw [hsettle, List.map_append]
        exact hwrote.batch hw
      · rw [hsettle, hd, List.map_append, Buffer.discards_append]
      · intro V hV hcleans
        refine hall' V (fun x hx => hV x (List.mem_append_right _ hx)) ?_
        rw [hd]
        exact hall V (fun x hx => hV x (List.mem_append_left _ hx)) hcleans)
    ((db.buffer.subtree root).map nodePut) { db with disk := disk₁ } Batch.empty
    ⟨[], db.buffer.subtree root, db.cleans, rfl, rfl, .nothing, rfl, fun _ _ hall => hall⟩
  split
  · next e after heq =>
    rw [heq] at hdb hdisk
    change after = _ at hdb
    exact ⟨written, rest, disk₁, gone, left, after.disk, cleans, hputs, hwrote, hsub, hdisk, hall,
      .inl ⟨e, by rw [← hdb]⟩⟩
  · next after heq =>
    obtain ⟨gone, left, cleans, hrest, hsub, hdisk, hdb, hall⟩ := hdone (by rw [heq])
    rw [heq] at hdb hdisk
    change after = _ at hdb
    refine ⟨written, rest, disk₁, gone, left, after.disk, cleans, hputs, hwrote, hsub, hdisk, hall,
      .inr ⟨hroot, hstored rfl, List.map_eq_nil_iff.1 hrest.symm, ?_⟩⟩
    rw [hdb]
    rfl

/-- **A commit fails with an error of the store**, but for the meta-root. -/
theorem commit_refused {db after : Database σ} {root : Hash} {e : Error} (hroot : root ≠ Hash.zero)
    (h : db.commit root = (.error e, after)) :
    Refuses after.disk (db.buffer.preimages.map preimagePut ++ (db.buffer.subtree root).map nodePut) e := by
  unfold commit at h
  split at h
  · next hz => exact absurd (beq_iff_eq.1 hz) hroot
  split at h
  · next hwrite =>
    cases h
    exact (writeAll_refused hwrite).mono (List.prefix_append _ _).isInfix
  next stored hwrite =>
  have hstored : stored.buffer = db.buffer := by
    obtain ⟨-, -, disk, -, -, hafter, -⟩ := writeAll_nothing_spec db (db.buffer.preimages.map preimagePut)
    rw [hwrite] at hafter
    obtain rfl : stored = { db with disk } := hafter
    rfl
  split at h
  · next hwrite' =>
    cases h
    rw [← hstored]
    exact (writeAll_refused hwrite').mono (List.suffix_append _ _).isInfix
  · cases h

/-- **What a commit does**, whatever its outcome. -/
theorem commit_spec (db : Database σ) (root : Hash) :
    ∃ (written : List Put) (disk₁ : σ) (gone left : List (Hash × Staged)) (disk : σ) (buffer : Buffer)
      (cleans : Option CleanCache),
      (∀ p ∈ written, ∃ x, p = preimagePut x) ∧ Wrote db.disk written disk₁ ∧
      db.buffer.subtree root = gone ++ left ∧ Wrote disk₁ (gone.map nodePut) disk ∧
      (db.commit root).2 = { db with disk, buffer, cleans } ∧
      buffer.stats.clampedDereferences = db.buffer.stats.clampedDereferences ∧
      Buffer.SameNodes (db.buffer.discards (gone.map (·.1))) buffer ∧
      (∀ V, (∀ x ∈ gone, V x.1 x.2.node.encode) → (∀ c ∈ db.cleans, c.All V) → ∀ c ∈ cleans, c.All V) ∧
      ((db.commit root).1 = .ok () → left = []) := by
  obtain ⟨written, rest, disk₁, gone, left, disk, cleans, hputs, hwrote, hsub, hwrote', hall, hcases⟩ :=
    db.commit_outcome root
  have hpreimages : ∀ p ∈ written, ∃ x, p = preimagePut x := by
    intro p hp
    have hmem : p ∈ db.buffer.preimages.map preimagePut := hputs ▸ List.mem_append_left _ hp
    obtain ⟨x, -, rfl⟩ := List.mem_map.1 hmem
    exact ⟨x, rfl⟩
  have hstats : (db.buffer.discards (gone.map (·.1))).stats.clampedDereferences =
      db.buffer.stats.clampedDereferences :=
    congrArg Stats.clampedDereferences (db.buffer.discards_frame (gone.map (·.1))).2.1
  rcases hcases with ⟨e, heq⟩ | ⟨-, -, rfl, heq⟩
  · exact ⟨written, disk₁, gone, left, disk, _, cleans, hpreimages, hwrote, hsub, hwrote', by rw [heq], hstats,
      .refl _, hall, fun h => by rw [heq] at h; cases h⟩
  · exact ⟨written, disk₁, gone, [], disk, (db.buffer.discards (gone.map Prod.fst)).committed, cleans, hpreimages,
      hwrote, hsub, hwrote', by rw [heq], hstats,
      ⟨rfl, rfl, rfl, rfl⟩, hall, fun _ => rfl⟩

end Database

end MerkleBuffer
