/-
A cap that follows the links of the buffer.

`cap` takes the oldest nodes off the list of all staged nodes, writes them and drops these
hashes. The loops here know no list: the first one follows the links from the oldest node on
and writes until what is left fits, and returns the hash at which it stopped, and the second
one drops whatever is oldest until this hash is. Where the links are in order both are the
same (`capWalking_eq`).
-/
import MerkleBuffer.Proofs.Buffer.WellFormed
import MerkleBuffer.Proofs.Database.Writes

namespace MerkleBuffer

theorem Staged.cost_pos (e : Staged) : 0 < e.cost.bytes := by
  have hoverhead : (ByteSize.ofNat overhead).bytes = 200 := rfl
  have hmax : 200 < UInt64.size := by decide
  rw [cost, ByteSize.bytes_add, ByteSize.bytes_add, hoverhead]
  omega

/-! ## Dropping the oldest nodes -/

namespace Buffer

variable {b : Buffer} {hs rest : List Hash}

/-- Drop the oldest node until `stop` is the oldest, or none is left. -/
def evictUntil (b : Buffer) (stop : Option Hash) : Buffer :=
  if b.oldest = stop then b
  else
    match b.oldest with
    | none => b
    | some h =>
      match _he : b.table[h]? with
      | none => b
      | some e => evictUntil (b.remove h e) stop
termination_by b.table.size
decreasing_by
  have hsize := b.size_remove _he
  omega

theorem evictUntil_eq (hl : b.Linked (hs ++ rest)) : b.evictUntil rest.head? = b.discards hs := by
  induction hs generalizing b with
  | nil =>
    have holdest : b.oldest = rest.head? := hl.oldest
    rw [evictUntil, if_pos holdest]
    rfl
  | cons h hs ih =>
    obtain ⟨e, he, -⟩ := hl.link [] h (hs ++ rest) rfl
    have holdest : b.oldest = some h := hl.oldest
    have hstays : some h ≠ rest.head? := by
      intro heq
      have hmem : h ∈ hs ++ rest := List.mem_append_right hs (List.mem_of_head? heq.symm)
      exact (List.nodup_cons.1 hl.nodup).1 hmem
    have hl' : (b.remove h e).Linked (hs ++ rest) := @Linked.remove b [] (hs ++ rest) h e hl he
    have hdiscards : b.discards (h :: hs) = (b.remove h e).discards hs := by
      rw [discards, List.foldl_cons, discard, he]
      rfl
    rw [evictUntil, holdest, if_neg hstays, hdiscards, ← ih hl']
    dsimp only
    split
    · next hnone => rw [he] at hnone; cases hnone
    · next e' he' =>
      obtain rfl : e = e' := Option.some.inj (he.symm.trans he')
      rfl

/-- Drop nodes that are stored now, all that are older than `stop`, and count them. -/
def flushUntil (b : Buffer) (stop : Option Hash) : Buffer :=
  let after := b.evictUntil stop
  { after with stats := { after.stats with
      flushNodes := after.stats.flushNodes + (b.length - after.length)
      flushSize := after.stats.flushSize + (b.payloadSize - after.payloadSize) } }

theorem flushUntil_eq {flushed left : List (Hash × Staged)} (hl : b.Linked ((flushed ++ left).map (·.1))) :
    b.flushUntil (left.map (·.1)).head? = b.discardFlushed flushed := by
  rw [List.map_append] at hl
  rw [flushUntil, discardFlushed, evictUntil_eq hl, discards, List.foldl_map]

end Buffer

/-! ## Following the links -/

namespace Database

variable {σ : Type} [KeyValueStore σ]

/-- Queue the nodes from `cursor` on until what is left fits, and return the last batch and
the node at which the walk stopped. -/
def capWalk (db : Database σ) (limit : ByteSize) (batch : Batch) (size : ByteSize) (cursor : Option Hash) :
    Outcome σ (Batch × Option Hash) :=
  if _hover : limit < size then
    match cursor with
    | none => (.ok (batch, none), db)
    | some h =>
      match db.buffer.table[h]? with
      | none => (.error (.corruption (.missingNode h)), db)
      | some e =>
        match KeyValueStore.accept db.disk with
        | .error fault => (.error fault, db)
        | .ok () =>
          let batch := batch.push (nodePut (h, e))
          if db.config.idealBatchSize.toNat ≤ batch.valueSize then
            match writeBatch Settle.nothing db batch with
            | (.error fault, after) => (.error fault, after)
            | (.ok (), after) => capWalk after limit Batch.empty (size - e.cost) e.next
          else capWalk db limit batch (size - e.cost) e.next
  else (.ok (batch, cursor), db)
termination_by size.bytes
decreasing_by
  all_goals
    have hlt : limit.bytes < size.bytes := _hover
    have hcost := e.cost_pos
    rw [ByteSize.bytes_sub]
    omega

/-- Store the oldest nodes on a walk along the links, and drop them when all are stored. -/
def capWalking (db : Database σ) (limit : ByteSize) : Outcome σ Unit :=
  if db.buffer.residentSize ≤ limit then (.ok (), db)
  else
    let preimages := if db.preimagesOverflow then db.buffer.preimages else []
    match queueAll Settle.nothing db Batch.empty (preimages.map preimagePut) with
    | (.error e, after) => (.error e, after)
    | (.ok batch, queued) =>
      match capWalk queued limit batch db.buffer.residentSize queued.buffer.oldest with
      | (.error e, after) => (.error e, after)
      | (.ok (last, stop), walked) =>
        match writeBatch Settle.nothing walked last with
        | (.error e, after) => (.error e, after)
        | (.ok (), after) =>
          let buffer := if db.preimagesOverflow then after.buffer.clearPreimages else after.buffer
          (.ok (), { after with buffer := buffer.flushUntil stop })

theorem queueAll_append (settle : Settle σ) (db : Database σ) (batch : Batch) (ps qs : List Put) :
    queueAll settle db batch (ps ++ qs) = match queueAll settle db batch ps with
      | (.error e, after) => (.error e, after)
      | (.ok last, after) => queueAll settle after last qs := by
  induction ps generalizing db batch with
  | nil => rfl
  | cons p rest ih =>
    rw [List.cons_append, queueAll, queueAll]
    split
    · rfl
    · dsimp only
      split
      · split
        · rfl
        · exact ih _ _
      · exact ih _ _

theorem queueAll_nothing (db : Database σ) (batch : Batch) (ps : List Put) :
    ∃ disk, (queueAll Settle.nothing db batch ps).2 = { db with disk } := by
  induction ps generalizing db batch with
  | nil => exact ⟨db.disk, rfl⟩
  | cons p rest ih =>
    rw [queueAll]
    split
    · exact ⟨db.disk, rfl⟩
    · dsimp only
      split
      · unfold writeBatch
        cases KeyValueStore.write db.disk (batch.push p).puts with
        | error e => exact ⟨db.disk, rfl⟩
        | ok disk =>
          obtain ⟨disk', heq⟩ := ih { db with disk } Batch.empty
          exact ⟨disk', heq⟩
      · exact ih db _

/-- **The walk queues what the list says**, and stops in front of what is left. -/
theorem capWalk_eq {db : Database σ} {limit size : ByteSize} {passed nodes : List (Hash × Staged)} (batch : Batch)
    (hl : db.buffer.Linked ((passed ++ nodes).map (·.1)))
    (hentry : ∀ x ∈ nodes, db.buffer.table[x.1]? = some x.2) :
    capWalk db limit batch size (nodes.map (·.1)).head? =
      match queueAll Settle.nothing db batch ((Buffer.overflow limit size nodes).map nodePut) with
      | (.error e, after) => (.error e, after)
      | (.ok last, after) =>
        (.ok (last, ((nodes.drop (Buffer.overflow limit size nodes).length).map (·.1)).head?), after) := by
  induction nodes generalizing db size passed batch with
  | nil =>
    unfold capWalk
    split <;> rfl
  | cons node rest ih =>
    obtain ⟨h, e⟩ := node
    obtain ⟨he, hrest⟩ := List.forall_mem_cons.1 hentry
    have he : db.buffer.table[h]? = some e := he
    have hnext : e.next = (rest.map (·.1)).head? := by
      obtain ⟨e', he', -, hnext⟩ := hl.link (passed.map (·.1)) h (rest.map (·.1)) (by simp)
      obtain rfl : e = e' := Option.some.inj (he.symm.trans he')
      exact hnext
    rw [List.append_cons] at hl
    unfold capWalk
    rw [Buffer.overflow]
    split
    · rw [List.map_cons, List.head?_cons]
      simp only [he]
      rw [List.map_cons, queueAll]
      cases KeyValueStore.accept db.disk with
      | error fault => rfl
      | ok _ =>
        dsimp only
        rw [hnext]
        split
        · unfold writeBatch
          cases KeyValueStore.write db.disk (batch.push (nodePut (h, e))).puts with
          | error fault => rfl
          | ok disk => exact ih Batch.empty (show Buffer.Linked { db with disk }.buffer _ from hl) hrest
        · exact ih (batch.push (nodePut (h, e))) hl hrest
    · rfl

/-- **A cap follows the links.** It does not matter that the nodes are listed before they are
written, nor that they are dropped one by one up to where the walk stopped. -/
theorem capWalking_eq (db : Database σ) (hw : db.buffer.WellFormed) (limit : ByteSize) :
    db.capWalking limit = db.cap limit := by
  have hl : db.buffer.Linked (([] ++ db.buffer.inOrder).map Prod.fst) := hw.linked
  have holdest : db.buffer.oldest = (db.buffer.inOrder.map (·.1)).head? := hw.linked.oldest
  unfold capWalking cap
  split
  · rfl
  dsimp only
  generalize (if db.preimagesOverflow then db.buffer.preimages else []) = preimages
  obtain ⟨disk, hqueued⟩ := db.queueAll_nothing Batch.empty (preimages.map preimagePut)
  rw [writeAll, queueAll_append]
  rcases hq : queueAll Settle.nothing db Batch.empty (preimages.map preimagePut) with ⟨_ | batch, queued⟩
  · rfl
  obtain rfl : queued = { db with disk } := by rw [hq] at hqueued; exact hqueued
  have hwalk := @capWalk_eq σ _ { db with disk } limit db.buffer.residentSize [] db.buffer.inOrder batch hl
    fun x hx => hw.linked.mem_inOrder hx
  have hinitial := overflow_initial limit db.buffer.residentSize db.buffer.inOrder
  generalize Buffer.overflow limit db.buffer.residentSize db.buffer.inOrder = oldest at hwalk hinitial ⊢
  obtain ⟨disk', hwalked⟩ := queueAll_nothing { db with disk } batch (oldest.map nodePut)
  dsimp only
  rw [holdest, hwalk]
  rcases hn : queueAll Settle.nothing { db with disk } batch (oldest.map nodePut) with ⟨_ | last, walked⟩
  · rfl
  obtain rfl : walked = { db with disk := disk' } := by rw [hn] at hwalked; exact hwalked
  dsimp only
  unfold writeBatch
  cases KeyValueStore.write disk' last.puts with
  | error e => rfl
  | ok disk'' =>
    -- the nodes that leave and those that stay make up the order
    have hparts := List.prefix_iff_eq_append.1 hinitial
    have hflush : ∀ b, Buffer.SameNodes db.buffer b →
        b.flushUntil ((db.buffer.inOrder.drop oldest.length).map (·.1)).head? = b.discardFlushed oldest := by
      refine fun b hsame => Buffer.flushUntil_eq ?_
      rw [hparts]
      exact hsame.linked hw.linked
    dsimp only [Settle.nothing]
    split
    · rw [hflush db.buffer.clearPreimages ⟨rfl, rfl, rfl, rfl⟩]
    · rw [hflush db.buffer (.refl _)]

end Database

end MerkleBuffer
