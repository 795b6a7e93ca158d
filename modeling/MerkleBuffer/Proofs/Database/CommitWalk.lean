/-
A commit that walks through the buffer while nodes leave it.

`commit` lists the subtree first and writes it then. The walk here has no list: it goes
down and up with a stack of hashes and a set of those it has visited, looks every hash
up in the buffer as it is at that moment, and writes and drops what it has queued as
soon as a batch is full. Both are the same (`commitWalking_eq`): a node that is dropped
half-way was visited before and is not waited for any more, and every node that still
counts, either not visited yet or to be returned to, is in the buffer as it was.
-/
import MerkleBuffer.Proofs.Buffer.Discards
import MerkleBuffer.Proofs.Database.Writes

namespace MerkleBuffer

namespace Database

variable {σ : Type}

/-- A visit that is still to be made: down to a hash, or up to it again when its
children are done. -/
inductive Visit where
  | down (h : Hash)
  | up (h : Hash)

/-- How many staged nodes a walk has not visited. -/
def unvisited (db : Database σ) (visited : List Hash) : Nat := (db.buffer.staged \ visited.toFinset).card

theorem unvisited_le {db after : Database σ} {visited visited' : List Hash}
    (hstaged : after.buffer.staged ⊆ db.buffer.staged) (hvisited : visited ⊆ visited') :
    after.unvisited visited' ≤ db.unvisited visited :=
  Finset.card_le_card (Finset.sdiff_subset_sdiff hstaged fun _ hx => List.mem_toFinset.2 (hvisited (List.mem_toFinset.1 hx)))

theorem unvisited_lt {db : Database σ} {visited : List Hash} {h : Hash} (hh : h ∈ db.buffer.table)
    (hnew : h ∉ visited) : db.unvisited (h :: visited) < db.unvisited visited := by
  refine Finset.card_lt_card ⟨?_, fun hsub => ?_⟩
  · exact Finset.sdiff_subset_sdiff (Finset.Subset.refl _) fun x hx =>
      List.mem_toFinset.2 (List.mem_cons_of_mem _ (List.mem_toFinset.1 hx))
  · have hmem : h ∈ db.buffer.staged \ visited.toFinset :=
      Finset.mem_sdiff.2 ⟨Buffer.mem_staged.2 hh, fun hv => hnew (List.mem_toFinset.1 hv)⟩
    exact (Finset.mem_sdiff.1 (hsub hmem)).2 (List.mem_toFinset.2 List.mem_cons_self)

theorem staged_settleNodes (puts : List Put) (db : Database σ) :
    (settleNodes puts db).buffer.staged ⊆ db.buffer.staged := by
  induction puts generalizing db with
  | nil => exact Finset.Subset.refl _
  | cons p rest ih =>
    refine Finset.Subset.trans (ih (settleNode db p)) fun h hh => ?_
    rw [Buffer.mem_staged] at hh ⊢
    unfold settleNode at hh
    split at hh
    · exact hh
    split at hh
    · obtain ⟨e, he⟩ := Buffer.mem_iff_nodeAt?.1 hh
      rw [Buffer.nodeAt?_discard] at he
      split at he
      · cases he
      · exact Buffer.mem_iff_nodeAt?.2 ⟨e, he⟩
    · exact hh

section Walk

variable [KeyValueStore σ]

theorem staged_writeBatch {db after : Database σ} {batch : Batch}
    (hw : writeBatch settleNodes db batch = (.ok (), after)) : after.buffer.staged ⊆ db.buffer.staged := by
  unfold writeBatch at hw
  split at hw
  · cases hw
  · obtain ⟨-, rfl⟩ := Prod.mk.inj hw
    exact staged_settleNodes _ _

/-- Make the visits on the stack, and queue each staged node when the walk returns to
it. A full batch is written, and its nodes leave the buffer. -/
def commitWalk (db : Database σ) (batch : Batch) (visited : List Hash) (stack : List Visit) : Outcome σ Batch :=
  match stack with
  | [] => (.ok batch, db)
  | .down h :: rest =>
    if h ∈ visited then commitWalk db batch visited rest
    else
      match _he : db.buffer.table[h]? with
      | none => commitWalk db batch (h :: visited) rest
      | some e =>
        commitWalk db batch (h :: visited) ((e.children.filter (· ∉ h :: visited)).map .down ++ .up h :: rest)
  | .up h :: rest =>
    match db.buffer.table[h]? with
    | none => commitWalk db batch visited rest
    | some e =>
      match KeyValueStore.accept db.disk with
      | .error fault => (.error fault, db)
      | .ok () =>
        let batch := batch.push (nodePut (h, e))
        if db.config.idealBatchSize.toNat ≤ batch.valueSize then
          match _hw : writeBatch settleNodes db batch with
          | (.error fault, after) => (.error fault, after)
          | (.ok (), after) => commitWalk after Batch.empty visited rest
        else commitWalk db batch visited rest
termination_by (db.unvisited visited, stack.length)
decreasing_by
  · exact Prod.Lex.right _ (by simp)
  · exact Prod.Lex.right' _ (unvisited_le (Finset.Subset.refl _) (List.subset_cons_self _ _)) (by simp)
  · exact Prod.Lex.left _ _ (unvisited_lt (Table.mem_iff_getElem?.2 ⟨_, _he⟩) ‹_›)
  · exact Prod.Lex.right _ (by simp)
  · exact Prod.Lex.right' _ (unvisited_le (staged_writeBatch _hw) (List.Subset.refl _)) (by simp)
  · exact Prod.Lex.right _ (by simp)

/-- Store all preimages and the staged nodes below `root`, on the walk. -/
def commitWalking (db : Database σ) (root : Hash) : Outcome σ Unit :=
  if root.isZero then (.error (.metaRoot .commit), db)
  else
    match writeAll Settle.nothing db Batch.empty (db.buffer.preimages.map preimagePut) with
    | (.error e, after) => (.error e, after)
    | (.ok (), stored) =>
      match commitWalk stored Batch.empty [] [.down root] with
      | (.error e, after) => (.error e, after)
      | (.ok last, walked) =>
        match writeBatch settleNodes walked last with
        | (.error e, after) => (.error e, after)
        | (.ok (), after) =>
          let buffer := after.buffer.clearPreimages
          (.ok (), { after with buffer := { buffer with stats := buffer.stats.sinceCommit } })

end Walk

/-! ## The walk and the list -/

/-- The visits that stand for the steps of a walk that lists: a child that was visited
already has been left out. -/
inductive Visits (visited : List Hash) : List Buffer.Step → List Visit → Prop
  | done : Visits visited [] []
  | enter {h : Hash} {steps : List Buffer.Step} {stack : List Visit} (rest : Visits visited steps stack) :
      Visits visited (.enter h :: steps) (.down h :: stack)
  | met {h : Hash} {steps : List Buffer.Step} {stack : List Visit} (hh : h ∈ visited)
      (rest : Visits visited steps stack) : Visits visited (.enter h :: steps) stack
  | leave {h : Hash} {e : Staged} {steps : List Buffer.Step} {stack : List Visit} (rest : Visits visited steps stack) :
      Visits visited (.leave h e :: steps) (.up h :: stack)

theorem Visits.mono {visited visited' : List Hash} {steps : List Buffer.Step} {stack : List Visit}
    (hv : Visits visited steps stack) (hsub : visited ⊆ visited') : Visits visited' steps stack := by
  induction hv with
  | done => exact .done
  | enter _ ih => exact .enter ih
  | met hh _ ih => exact .met (hsub hh) ih
  | leave _ ih => exact .leave ih

theorem Visits.children {visited : List Hash} {steps : List Buffer.Step} {stack : List Visit}
    (hv : Visits visited steps stack) (hashes : List Hash) :
    Visits visited (hashes.map .enter ++ steps) ((hashes.filter (· ∉ visited)).map .down ++ stack) := by
  induction hashes with
  | nil => exact hv
  | cons h rest ih =>
    by_cases hh : h ∈ visited
    · rw [List.filter_cons_of_neg (by simpa using hh)]
      exact .met hh ih
    · rw [List.filter_cons_of_pos (by simpa using hh)]
      exact .enter ih

/-- The nodes that a list of steps still returns to. -/
def leaving (steps : List Buffer.Step) : List (Hash × Staged) :=
  steps.filterMap fun
    | .enter _ => none
    | .leave h e => some (h, e)

/-- A walk that has queued `queued` in its batch, next to one that lists: what was not
visited is in the buffer as it was at first, what the walk still returns to is there,
and nothing of this is waiting to be dropped. -/
structure Tracks (db : Database σ) (unseen : Table) (steps : List Buffer.Step) (queued : List (Hash × Staged))
    (visited : List Hash) : Prop where
  unseen_staged : ∀ h, h ∉ visited → (unseen[h]?).map Staged.unlinked = db.buffer.nodeAt? h
  visited_seen : ∀ h ∈ visited, unseen[h]? = none
  leaving_visited : ∀ x ∈ leaving steps, x.1 ∈ visited
  leaving_staged : ∀ x ∈ leaving steps, db.buffer.nodeAt? x.1 = some x.2.unlinked
  leaving_nodup : ((leaving steps).map (·.1)).Nodup
  queued_visited : ∀ x ∈ queued, x.1 ∈ visited
  queued_passed : ∀ x ∈ queued, ∀ y ∈ leaving steps, x.1 ≠ y.1

namespace Tracks

variable {db : Database σ} {unseen : Table} {steps : List Buffer.Step} {queued : List (Hash × Staged)}
  {visited : List Hash} {h : Hash} {e : Staged}

theorem start (db : Database σ) (root : Hash) : Tracks db db.buffer.table [.enter root] [] [] where
  unseen_staged _ _ := rfl
  visited_seen := by simp
  leaving_visited := by simp [leaving]
  leaving_staged := by simp [leaving]
  leaving_nodup := .nil
  queued_visited := by simp
  queued_passed := by simp

theorem absent (ht : Tracks db unseen (.enter h :: steps) queued visited) (hnone : unseen[h]? = none) :
    Tracks db unseen steps queued (h :: visited) where
  unseen_staged k hk := ht.unseen_staged k fun hv => hk (List.mem_cons_of_mem _ hv)
  visited_seen := List.forall_mem_cons.2 ⟨hnone, ht.visited_seen⟩
  leaving_visited x hx := List.mem_cons_of_mem _ (ht.leaving_visited x hx)
  leaving_staged := ht.leaving_staged
  leaving_nodup := ht.leaving_nodup
  queued_visited x hx := List.mem_cons_of_mem _ (ht.queued_visited x hx)
  queued_passed := ht.queued_passed

theorem leaving_children (hashes : List Hash) (steps : List Buffer.Step) :
    leaving (hashes.map .enter ++ steps) = leaving steps := by
  induction hashes with
  | nil => rfl
  | cons h rest ih => exact ih

theorem enter (ht : Tracks db unseen (.enter h :: steps) queued visited) (hnew : h ∉ visited)
    (he : unseen[h]? = some e) :
    Tracks db (unseen.erase h) (e.children.map .enter ++ .leave h e :: steps) queued (h :: visited) := by
  have hleaving : leaving (e.children.map .enter ++ .leave h e :: steps) = (h, e) :: leaving steps :=
    leaving_children _ _
  have hstaged : db.buffer.nodeAt? h = some e.unlinked := by rw [← ht.unseen_staged h hnew, he]; rfl
  refine ⟨fun k hk => ?_, List.forall_mem_cons.2 ⟨?_, fun k hk => ?_⟩, ?_, ?_, ?_,
    fun x hx => List.mem_cons_of_mem _ (ht.queued_visited x hx), fun x hx => ?_⟩
  · obtain ⟨hne, hk⟩ := not_or.1 (mt List.mem_cons.2 hk)
    rw [Table.getElem?_erase, if_neg (Ne.symm hne)]
    exact ht.unseen_staged k hk
  · rw [Table.getElem?_erase, if_pos rfl]
  · rw [Table.getElem?_erase]
    split
    · rfl
    · exact ht.visited_seen k hk
  · rw [hleaving]
    exact List.forall_mem_cons.2 ⟨List.mem_cons_self, fun x hx => List.mem_cons_of_mem _ (ht.leaving_visited x hx)⟩
  · rw [hleaving]
    exact List.forall_mem_cons.2 ⟨hstaged, ht.leaving_staged⟩
  · rw [hleaving, List.map_cons]
    refine List.nodup_cons.2 ⟨fun hm => ?_, ht.leaving_nodup⟩
    obtain ⟨x, hx, rfl⟩ := List.mem_map.1 hm
    exact hnew (ht.leaving_visited x hx)
  · rw [hleaving]
    refine List.forall_mem_cons.2 ⟨fun heq => hnew ?_, ht.queued_passed x hx⟩
    obtain rfl : x.1 = h := heq
    exact ht.queued_visited x hx

theorem leave (ht : Tracks db unseen (.leave h e :: steps) queued visited) :
    Tracks db unseen steps (queued ++ [(h, e)]) visited := by
  have hleaving : leaving (.leave h e :: steps) = (h, e) :: leaving steps := rfl
  have hvisited := ht.leaving_visited
  have hstaged := ht.leaving_staged
  have hnodup := ht.leaving_nodup
  have hpassed := ht.queued_passed
  rw [hleaving] at hvisited hstaged hnodup hpassed
  rw [List.map_cons, List.nodup_cons] at hnodup
  refine ⟨ht.unseen_staged, ht.visited_seen, fun x hx => hvisited x (List.mem_cons_of_mem _ hx),
    fun x hx => hstaged x (List.mem_cons_of_mem _ hx), hnodup.2, fun x hx => ?_, fun x hx y hy heq => ?_⟩
  · rcases List.mem_append.1 hx with hx | hx
    · exact ht.queued_visited x hx
    · exact hvisited x (List.mem_singleton.1 hx ▸ List.mem_cons_self)
  · rcases List.mem_append.1 hx with hx | hx
    · exact hpassed x hx y (List.mem_cons_of_mem _ hy) heq
    · obtain rfl := List.mem_singleton.1 hx
      exact hnodup.1 (List.mem_map.2 ⟨y, hy, heq.symm⟩)

/-- The queued nodes may leave the buffer: the walk does not need them any more. -/
theorem written (ht : Tracks db unseen steps queued visited) (disk : σ) :
    Tracks (settleNodes (queued.map nodePut) { db with disk }) unseen steps [] visited := by
  obtain ⟨cleans, hsettle, -⟩ := settleNodes_nodePuts { db with disk } queued
  rw [hsettle]
  have hkept : ∀ k, k ∉ queued.map (·.1) → (db.buffer.discards (queued.map (·.1))).nodeAt? k = db.buffer.nodeAt? k :=
    fun k hk => by rw [Buffer.nodeAt?_discards, if_neg hk]
  refine ⟨fun k hk => ?_, ht.visited_seen, ht.leaving_visited, fun x hx => ?_, ht.leaving_nodup, by simp, by simp⟩
  · refine (ht.unseen_staged k hk).trans (hkept k fun hm => ?_).symm
    obtain ⟨x, hx, rfl⟩ := List.mem_map.1 hm
    exact hk (ht.queued_visited x hx)
  · refine (hkept x.1 fun hm => ?_).trans (ht.leaving_staged x hx)
    obtain ⟨y, hy, heq⟩ := List.mem_map.1 hm
    exact ht.queued_passed y hy x hx heq

end Tracks

variable [KeyValueStore σ]

/-- **The walk does what the list says**, also where full batches leave the buffer on
the way. -/
theorem commitWalk_eq {db : Database σ} {unseen : Table} {steps : List Buffer.Step} {queued : List (Hash × Staged)}
    {visited : List Hash} {batch : Batch} {stack : List Visit} (ht : Tracks db unseen steps queued visited)
    (hv : Visits visited steps stack) (hb : batch.puts = queued.map nodePut) :
    commitWalk db batch visited stack = queueAll settleNodes db batch ((Buffer.postorder unseen steps).map nodePut) := by
  fun_induction Buffer.postorder unseen steps generalizing db queued visited batch stack with
  | case1 =>
    cases hv
    rw [commitWalk]
    rfl
  | case2 unseen h e rest ih =>
    cases hv with
    | @leave _ _ _ stack hrest =>
    obtain ⟨e', he', hsame⟩ := Option.map_eq_some_iff.1 (ht.leaving_staged (h, e) List.mem_cons_self)
    have hput : nodePut (h, e') = nodePut (h, e) := by
      show (⟨h.bytes, e'.unlinked.node.encode⟩ : Put) = ⟨h.bytes, e.unlinked.node.encode⟩
      rw [hsame]
    have hpush : (batch.push (nodePut (h, e))).puts = (queued ++ [(h, e)]).map nodePut := by
      rw [List.map_append, ← hb]
      rfl
    rw [commitWalk, he', List.map_cons, queueAll]
    dsimp only
    rw [hput]
    cases KeyValueStore.accept db.disk with
    | error fault => rfl
    | ok _ =>
    dsimp only
    split
    · split
      · next hw => rw [hw]
      · next after hw =>
        rw [hw]
        unfold writeBatch at hw
        split at hw
        · cases hw
        · next disk _ =>
          obtain ⟨-, rfl⟩ := Prod.mk.inj hw
          rw [hpush]
          exact ih (ht.leave.written disk) hrest (show Batch.empty.puts = [].map nodePut from rfl)
    · exact ih ht.leave hrest hpush
  | case3 unseen h rest hnone ih =>
    cases hv with
    | enter hrest =>
      rw [commitWalk]
      split
      · next hh => exact ih ⟨ht.1, ht.2, ht.3, ht.4, ht.5, ht.6, ht.7⟩ hrest hb
      · next hh =>
        have habsent : db.buffer.table[h]? = none := by
          have hnode := ht.unseen_staged h hh
          rw [hnone] at hnode
          exact Option.map_eq_none_iff.1 hnode.symm
        split
        · exact ih (ht.absent hnone) (hrest.mono (List.subset_cons_self _ _)) hb
        · next he => rw [habsent] at he; cases he
    | met hh hrest => exact ih ⟨ht.1, ht.2, ht.3, ht.4, ht.5, ht.6, ht.7⟩ hrest hb
  | case4 unseen h rest e he ih =>
    have hnew : h ∉ visited := fun hh => by rw [ht.visited_seen h hh] at he; cases he
    cases hv with
    | met hh _ => exact absurd hh hnew
    | enter hrest =>
    have hnode := ht.unseen_staged h hnew
    rw [he] at hnode
    obtain ⟨e', he', hsame⟩ := Option.map_eq_some_iff.1 hnode.symm
    have hchildren : e'.children = e.children := by
      show e'.unlinked.children = e.unlinked.children
      rw [hsame]
    rw [commitWalk, if_neg hnew]
    split
    · next hnone => rw [he'] at hnone; cases hnone
    · next e'' he'' =>
      obtain rfl : e' = e'' := Option.some.inj (he'.symm.trans he'')
      rw [hchildren]
      exact ih (ht.enter hnew he) ((Visits.leave (hrest.mono (List.subset_cons_self _ _))).children _) hb

/-- **A commit walks.** It does not matter that the subtree is listed before it is
written. -/
theorem commitWalking_eq (db : Database σ) (root : Hash) : db.commitWalking root = db.commit root := by
  unfold commitWalking commit
  split
  · rfl
  rcases writeAll Settle.nothing db Batch.empty (db.buffer.preimages.map preimagePut) with ⟨_ | _, stored⟩
  · rfl
  have hwalk : commitWalk stored Batch.empty [] [.down root] =
      queueAll settleNodes stored Batch.empty ((stored.buffer.subtree root).map nodePut) :=
    commitWalk_eq (.start stored root) (.enter .done) rfl
  dsimp only
  rw [hwalk, writeAll]
  rcases queueAll settleNodes stored Batch.empty ((stored.buffer.subtree root).map nodePut) with ⟨_ | _, walked⟩
  · rfl
  · rfl

end Database

end MerkleBuffer
