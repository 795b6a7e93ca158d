/-
A store file that is cut anywhere holds no node without its children.

The records of a file are the first puts of their keys, in the order of the
puts, and nodes are put after their children. What is left of a file that was
cut are its first records, so the children of a node that is left are left too.
A command only adds to the end of the file, so what a crash in the middle of one
leaves is what a cut of the file after it leaves.

That children come first rests on the counts of parents, which keep a child until
its parents are written. Where a count has wrapped the file can have a node without
its child, cut or not (`child_missing_when_count_wraps`).
-/
import MerkleBuffer.Proofs.Durability
import MerkleBuffer.Proofs.Store.Lifetime

namespace MerkleBuffer

open Relation (ReflTransGen)

variable {content : Hash → Node} {ps qs : List Put}

/-! ## First puts in order -/

theorem nodeHashes_cons_of_eq {p : Put} {h : Hash} (hp : p.key = h.bytes) (rest : List Put) :
    nodeHashes (p :: rest) = h :: nodeHashes rest := by
  rw [nodeHashes, List.filterMap_cons, hp, Hash.ofBytes?_bytes]
  rfl

theorem nodeHashes_cons_of_ne {p : Put} (hp : ∀ h : Hash, p.key ≠ h.bytes) (rest : List Put) :
    nodeHashes (p :: rest) = nodeHashes rest := by
  have hnone : Hash.ofBytes? p.key = none := Option.eq_none_iff_forall_ne_some.2 fun h heq =>
    hp h (Hash.ofBytes?_eq_some.1 heq).symm
  rw [nodeHashes, List.filterMap_cons, hnone]
  rfl

/-- Leaving out later puts of a key leaves children first. -/
theorem childrenFirst_firstPuts {needs : Hash → Hash → Prop} {done done' : List Hash} {seen : List Bytes}
    (hc : ChildrenFirst needs done (nodeHashes ps)) (hdone : ∀ h ∈ done, h ∈ done')
    (hseen : ∀ h : Hash, h.bytes ∈ seen → h ∈ done') :
    ChildrenFirst needs done' (nodeHashes (firstPuts seen ps)) := by
  induction ps generalizing done done' seen with
  | nil => trivial
  | cons p rest ih =>
    rw [firstPuts]
    by_cases hnode : ∃ h : Hash, p.key = h.bytes
    · obtain ⟨h, hp⟩ := hnode
      rw [nodeHashes_cons_of_eq hp] at hc
      split
      · next hmem =>
        refine ih hc.2 (fun k hk => ?_) hseen
        rcases List.mem_cons.1 hk with rfl | hk
        · exact hseen k (hp ▸ hmem)
        · exact hdone k hk
      · rw [nodeHashes_cons_of_eq hp]
        refine ⟨fun c hn => hdone c (hc.1 c hn), ih hc.2 (fun k hk => ?_) fun k hk => ?_⟩
        · rcases List.mem_cons.1 hk with rfl | hk
          · exact List.mem_cons_self
          · exact List.mem_cons_of_mem _ (hdone k hk)
        · rcases List.mem_cons.1 hk with heq | hk
          · obtain rfl : k = h := Hash.ext (heq.trans hp)
            exact List.mem_cons_self
          · exact List.mem_cons_of_mem _ (hseen k hk)
    · have hne : ∀ h : Hash, p.key ≠ h.bytes := fun h heq => hnode ⟨h, heq⟩
      rw [nodeHashes_cons_of_ne hne] at hc
      split
      · exact ih hc hdone hseen
      · rw [nodeHashes_cons_of_ne hne]
        exact ih hc hdone fun k hk => hseen k ((List.mem_cons.1 hk).resolve_left fun heq => hne k heq.symm)

theorem Written.firstPuts (hw : Written content ps) : Written content (firstPuts [] ps) where
  value p hp := hw.value p ((firstPuts_sublist [] ps).subset hp)
  order := childrenFirst_firstPuts hw.order (fun _ hh => hh) fun _ hh => (nomatch hh)

theorem Written.initial (hw : Written content ps) (hqs : qs <+: ps) : Written content qs where
  value p hp := hw.value p (hqs.subset hp)
  order := by
    obtain ⟨rest, rfl⟩ := hqs
    have horder := hw.order
    rw [nodeHashes_append] at horder
    exact (ChildrenFirst.append.1 horder).1

/-! ## Files -/

/-- In a file of puts that are written in order, everything below a hash that is
stored is stored, as what its hash stands for. -/
theorem get_ofRecords_of_written [FrameCodec] (hw : Written content qs) (hnodup : (qs.map (·.key)).Nodup) {h d : Hash}
    (hh : (RecordLog.ofRecords (qs.map Record.ofPut)).contains h.bytes = true)
    (hd : ReflTransGen (Embeds content) h d) :
    (RecordLog.ofRecords (qs.map Record.ofPut)).contains d.bytes = true ∧
      (RecordLog.ofRecords (qs.map Record.ofPut)).get d.bytes = .ok (some (content d).encode) := by
  have hkeys : (qs.map Record.ofPut).map (·.key) = qs.map (·.key) := by
    rw [List.map_map]
    rfl
  rw [RecordLog.contains_ofRecords, hkeys] at hh ⊢
  have hmem : d ∈ nodeHashes qs := by
    induction hd with
    | refl =>
      obtain ⟨p, hp, heq⟩ := List.mem_map.1 hh
      exact mem_nodeHashes.2 ⟨p, hp, heq⟩
    | tail _ hpc ih => exact hw.order.closed ih hpc
  obtain ⟨p, hp, hkey⟩ := mem_nodeHashes.1 hmem
  have hget := RecordLog.get_ofRecords (hkeys ▸ hnodup) (List.mem_map.2 ⟨p, hp, rfl⟩) rfl
  rw [(hw.value p hp d hkey).2] at hget
  rw [← hkey]
  exact ⟨List.mem_map.2 ⟨p, hp, rfl⟩, hget⟩

theorem cut_file_closed_of_holds [FrameCodec] {log : RecordLog} (hlog : LawfulStore.Holds log ps)
    (hw : Written content ps) {n : Nat} (hn : RecordLog.headerSize ≤ n) :
    ∃ cut, RecordLog.ofFile (log.file.take n) = .ok cut ∧
      ∀ h : Hash, cut.contains h.bytes = true → ∀ d, ReflTransGen (Embeds content) h d →
        cut.contains d.bytes = true ∧ cut.get d.bytes = .ok (some (content d).encode) := by
  obtain ⟨rfl, hfits⟩ := hlog
  refine ⟨_, RecordLog.ofFile_take hfits hn, fun h hh d hd => ?_⟩
  -- the records that are left are those of some first puts
  obtain ⟨lost, hlost⟩ := Record.within_initial (n - RecordLog.headerSize) (RecordLog.recordsOf ps)
  obtain ⟨qs, rest, hqs, hwithin, -⟩ := List.map_eq_append_iff.1 hlost.symm
  have hfirst : qs <+: firstPuts [] ps := ⟨rest, hqs.symm⟩
  have hnodup : (qs.map (·.key)).Nodup := (hfirst.sublist.map _).nodup (nodup_firstPuts [] ps).1
  rw [← hwithin] at hh ⊢
  exact get_ofRecords_of_written (hw.firstPuts.initial hfirst) hnodup hh hd

theorem contains_whole_file [FrameCodec] {log : RecordLog} (hlog : LawfulStore.Holds log ps) :
    RecordLog.headerSize ≤ log.file.length ∧ ∃ cut, RecordLog.ofFile (log.file.take log.file.length) = .ok cut ∧
      ∀ h : Hash, cut.contains h.bytes = true ↔ h ∈ nodeHashes ps := by
  have hopen := RecordLog.Holds.ofFile hlog
  rw [List.take_length]
  refine ⟨RecordLog.le_length_of_ofFile hopen, log, hopen, fun h => ?_⟩
  rw [RecordLog.Holds.contains hlog, List.mem_map, mem_nodeHashes]

/-- **A cut file is closed under children**, while the counts have room. Cut the file in
any state of a run of careful commands, anywhere behind its head: it opens, and with the record of a
node all records below the node are left, each with what its hash stands for.
And a further command only adds to the end of the file. -/
theorem cut_file_closed [FrameCodec] (content : Hash → Node) (config : Config) (hv : config.Valid)
    {db : Database (Faulty RecordLog)}
    (hr : Reachable (Careful content) (.ofValid (.reliable RecordLog.create) config hv) db) :
    (∀ n, RecordLog.headerSize ≤ n → ∃ cut, RecordLog.ofFile (db.disk.store.file.take n) = .ok cut ∧
      ∀ h : Hash, cut.contains h.bytes = true → ∀ d, ReflTransGen (Embeds content) h d →
        cut.contains d.bytes = true ∧ cut.get d.bytes = .ok (some (content d).encode)) ∧
    ∀ writes c, Careful content (db.allowing writes) c →
      db.disk.store.file <+: (c.run (db.allowing writes)).disk.store.file := by
  obtain ⟨ps, hi⟩ := hr.intact (.start RecordLog.holds_create config hv)
  refine ⟨fun n hn => cut_file_closed_of_holds hi.holds.2 hi.backed.written hn, fun writes c hc => ?_⟩
  obtain ⟨qs, hi'⟩ := (hi.allowing writes).run hc
  rw [hi.holds.2.1, hi'.holds.2.1, RecordLog.recordsOf_append]
  exact RecordLog.file_ofRecords_initial _ _

/-- **A node is stored without its child when a count wraps.** Fewer than 2^32 edges and pins
hold any node in this run, and a commit of the pinned node at its end writes a file that opens
and has the node, and not the child. -/
theorem child_missing_when_count_wraps :
    let start := Database.ofValid (Faulty.reliable RecordLog.create) Config.withoutCleanCache (by decide)
    let file := (start.runAll (losingBlob ++ [(none, .commit (.filled 3))])).disk.store.file
    AllAllowed (EdgeBounded overNewestBlob) start (losingBlob ++ [(none, .commit (.filled 3))]) ∧
      RecordLog.headerSize ≤ file.length ∧ Embeds overNewestBlob (.filled 3) (.filled 2) ∧
      ∃ cut, RecordLog.ofFile (file.take file.length) = .ok cut ∧ cut.contains (Hash.filled 3).bytes = true ∧
        cut.contains (Hash.filled 2).bytes = false := by
  have hblob : ∀ h : Hash, (Record.ofPut ⟨h.bytes, [7]⟩).Fits := fun h =>
    Record.fits_ofPut (h.length_bytes.trans_le (by decide)) (by simp [Record.maxFrameLength])
  have hnode : (Record.ofPut ⟨(Hash.filled 3).bytes, (overNewestBlob (.filled 3)).encode⟩).Fits :=
    Record.fits_ofPut (by decide) (by decide +kernel)
  obtain ⟨hall, qs, hqs, hkeeper, hchild⟩ := losingBlob_committed RecordLog.holds_create hblob hnode
  obtain ⟨hlength, cut, hcut, hcontains⟩ := contains_whole_file hqs
  have hedge : Embeds overNewestBlob (.filled 3) (.filled 2) := by
    unfold Embeds
    decide
  refine ⟨hall, hlength, hedge, cut, hcut, (hcontains _).2 hkeeper, ?_⟩
  rw [← Bool.not_eq_true, hcontains]
  exact hchild

/-- A blob and two nodes over it, stored by one cap. -/
def storedNodes : List (Option Nat × Command) :=
  pinnedNode ++ [(none, .insert (.filled 3) [9] (.trie (.extension [] (.filled 1)))), (none, .cap ByteSize.zero)]

/-- One byte short, the file has lost the second node, and what the first one leads
to reads back. -/
theorem cut_file_closed_storedNodes :
    let db := (Database.new (.reliable RecordLog.create)).runAll storedNodes
    db.disk.store.file.length = 302 ∧ ∃ cut, RecordLog.ofFile (db.disk.store.file.take 301) = .ok cut ∧
      cut.contains (Hash.filled 3).bytes = false ∧ cut.get (Hash.filled 1).bytes = .ok (some [7]) := by
  intro db
  have hcareful : AllAllowed (Careful overBlob) (Database.new (.reliable RecordLog.create)) storedNodes := by
    refine ⟨⟨.of_staging rfl rfl (List.forall_mem_nil _), nofun, by decide +kernel⟩,
      ⟨.of_staging rfl rfl (forall_kids_extension (.inl ?_)), nofun, by decide +kernel⟩,
      ⟨.of_quiet rfl (by simp), nofun, by decide +kernel⟩, .cap _ _ _,
      ⟨.of_staging rfl rfl (forall_kids_extension (.inl ?_)), nofun, by decide +kernel⟩, .cap _ _ _, trivial⟩
    · decide +kernel
    · decide +kernel
  have hedge : ReflTransGen (Embeds overBlob) (.filled 2) (.filled 1) := by
    refine .single ?_
    unfold Embeds
    decide
  have hlength :
      ((Database.new (Faulty.reliable RecordLog.create)).runAll storedNodes).disk.store.file.length = 302 := by
    cbv
  have hleft : (RecordLog.ofFile
      (((Database.new (Faulty.reliable RecordLog.create)).runAll storedNodes).disk.store.file.take 301)).map
        (fun cut => (cut.contains (Hash.filled 2).bytes, cut.contains (Hash.filled 3).bytes)) =
        .ok (true, false) := by
    set_option maxRecDepth 20000 in cbv
  obtain ⟨cut, hcut, hclosed⟩ := (cut_file_closed overBlob Config.standard Config.valid_standard
    (Reachable.start.runAll hcareful)).1 301 (by decide)
  have hcut' : RecordLog.ofFile
      (((Database.new (Faulty.reliable RecordLog.create)).runAll storedNodes).disk.store.file.take 301) =
        .ok cut := hcut
  rw [hcut'] at hleft
  obtain ⟨hfirst, hsecond⟩ := Prod.mk.inj (Except.ok.inj hleft)
  exact ⟨hlength, cut, hcut, hsecond, (hclosed (.filled 2) hfirst (.filled 1) hedge).2⟩

end MerkleBuffer
