/-
No preimage is lost.

Preimages are buffered until a flush has written them, which may take several
batches, any of which can fail. A flush that fails keeps all of them; one that
forgets them has written each under its own key (`Flush.preimages_outcome`). So a
preimage that was given is buffered or stored from then on (`Known`), and if it is
always given for the same hash it is also what the database answers with. The keys of
preimages are no hashes, so whatever moves written nodes out of the buffer passes
them over.
-/
import Mathlib
import MerkleBuffer.Proofs.Buffer.Preimages
import MerkleBuffer.Proofs.Database.Recorded
import MerkleBuffer.Proofs.Store.Lifetime
import MerkleBuffer.Store.Frame

namespace MerkleBuffer

/-- A flush takes the preimages along: a commit does, and a cap with more in memory than
its limit if the preimages are charged more than the threshold. -/
def Flush.TakesPreimages {σ : Type} (f : Flush) (db : Database σ) : Prop :=
  match f with
  | cap limit => limit < db.size.1 ∧ db.config.preimageFlushThreshold.toNat < db.buffer.preimageBytes
  | commit _ => True

section Sessions

variable {σ : Type} [KeyValueStore σ]

/-- A command that gives a hash its one preimage, if any. -/
def Command.Gives (content : Hash → Bytes) (c : Command) : Prop :=
  ∀ h preimage, c = .insertPreimage h preimage → preimage = content h

/-- The states of a database in use from `start` on: commands before each of which the
store is told how many writes still succeed, and, while no preimage is buffered, the
store opened again with any settings. -/
inductive Session (reopens : σ → σ → Prop) (content : Hash → Bytes) (start : Database (Faulty σ)) :
    Database (Faulty σ) → Prop
  | start : Session reopens content start start
  | command {db : Database (Faulty σ)} (before : Session reopens content start db) (writes : Option Nat) (c : Command)
      (hc : c.Gives content) : Session reopens content start (c.run (db.allowing writes))
  | reopen {db : Database (Faulty σ)} {disk : σ} (before : Session reopens content start db)
      (hempty : db.buffer.preimages = []) (hdisk : reopens db.disk.store disk) (config : Config) (hv : config.Valid) :
      Session reopens content start (.ofValid (.reliable disk) config hv)

/-- A command keeps the buffered preimages in their order, or it is a flush that takes
them along and succeeds. Then all of them are in the store. -/
def PreimagesKeptOrStored (c : Command) (db : Database (Faulty σ)) : Prop :=
  db.buffer.preimages <+: (c.run db).buffer.preimages ∨
    ∃ f : Flush, c = f.command ∧ (f.run db).1 = .ok () ∧ f.TakesPreimages db ∧ (c.run db).buffer.preimages = [] ∧
      ∀ x ∈ db.buffer.preimages, KeyValueStore.get (c.run db).disk (secureKey x.1) = .ok (some x.2)

/-- Each node that leaves the buffer in a flush was written under its own hash by one of
the puts of this flush, and this put is not that of a preimage. -/
def NodesLeaveAsNodes (f : Flush) (db : Database (Faulty σ)) : Prop :=
  ∃ batches, (f.run db).2.disk.journal = db.disk.journal ++ batches ∧
    ∀ (h : Hash) (e : Staged), db.buffer.table[h]? = some e → h ∉ (f.run db).2.buffer.table →
      Database.nodePut (h, e) ∈ batches.flatten ∧ ∀ x, Database.nodePut (h, e) ≠ Database.preimagePut x

/-- What becomes of preimages in a database over a store, where each hash is always
given the same one. -/
structure KeepsPreimages (reopens : σ → σ → Prop) (content : Hash → Bytes) (start : Database (Faulty σ)) : Prop where
  /-- The store can be opened again at any time -/
  opens : ∀ db, Session reopens content start db → ∃ disk, reopens db.disk.store disk
  /-- A preimage that was given is found from then on -/
  found : ∀ db, Session reopens content start db → ∀ writes h after,
    Session reopens content ((Command.insertPreimage h (content h)).run (db.allowing writes)) after →
      after.preimage h = .ok (some (content h))
  emptied : ∀ db, Session reopens content start db → ∀ writes (c : Command), c.Gives content →
    PreimagesKeptOrStored c (db.allowing writes)
  nodes : ∀ db, Session reopens content start db → ∀ writes (f : Flush), NodesLeaveAsNodes f (db.allowing writes)
  /-- The written puts of a preimage change nothing when a batch is settled -/
  passed_over : ∀ (db : Database (Faulty σ)) (before after : List Put) x,
    Database.settleNodes (before ++ Database.preimagePut x :: after) db = Database.settleNodes (before ++ after) db

theorem Session.trans {reopens : σ → σ → Prop} {content : Hash → Bytes} {start mid db : Database (Faulty σ)}
    (hs : Session reopens content start mid) (hs' : Session reopens content mid db) :
    Session reopens content start db := by
  induction hs' with
  | start => exact hs
  | command _ writes c hc ih => exact ih.command writes c hc
  | reopen _ hempty hdisk config hv ih => exact ih.reopen hempty hdisk config hv

end Sessions

/-! ## Commands -/

namespace Database

variable {σ : Type} {db : Database σ} {limit : ByteSize}

/-- The counter that a cap goes by never shows more than there is. -/
theorem lt_preimageBytes (hc : db.buffer.PreimagesCounted) (ho : db.preimagesOverflow = true) :
    db.config.preimageFlushThreshold.toNat < db.buffer.preimageBytes := by
  have hthreshold := db.config.preimageFlushThreshold.toNat_lt
  rw [preimagesOverflow, decide_eq_true_iff, ByteSize.lt_def, hc, ByteSize.bytes_ofNat, ByteSize.bytes_ofNat] at ho
  omega

/-- A cap that succeeds keeps the preimages, or forgets them where they are too many. -/
theorem capped_preimages (db : Database σ) (limit : ByteSize) :
    Buffer.SamePreimages db.buffer (db.capped limit) ∨
      ¬ db.buffer.residentSize ≤ limit ∧ db.preimagesOverflow = true ∧ (db.capped limit).preimages = [] ∧
        (db.capped limit).preimagesSize = ByteSize.zero := by
  unfold capped
  split
  · exact .inl (.refl _)
  next hover =>
  split
  · next ho =>
    have hsame := Buffer.SamePreimages.discardFlushed db.buffer.clearPreimages (db.capNodes limit)
    exact .inr ⟨hover, ho, hsame.preimages, hsame.counter⟩
  · exact .inl (.discardFlushed _ _)

theorem settleNode_preimagePut (db : Database σ) (x : Hash × Bytes) : settleNode db (preimagePut x) = db := by
  have hkey : Hash.ofBytes? (preimagePut x).key = none := by
    cases hof : Hash.ofBytes? (preimagePut x).key with
    | none => rfl
    | some h => exact absurd (Hash.ofBytes?_eq_some.1 hof).symm (secureKey_ne_bytes x.1 h)
  rw [settleNode, hkey]

/-- **What settles a batch passes preimages over.** -/
theorem settleNodes_preimagePut (db : Database σ) (before after : List Put) (x : Hash × Bytes) :
    settleNodes (before ++ preimagePut x :: after) db = settleNodes (before ++ after) db := by
  rw [settleNodes, settleNodes, List.foldl_append, List.foldl_cons, settleNode_preimagePut, List.foldl_append]

end Database

section Commands

variable {σ : Type} [KeyValueStore σ]

/-- **A flush forgets the preimages only if it has written them.** -/
theorem Flush.preimages_outcome (f : Flush) {db : Database σ} (hc : db.buffer.PreimagesCounted) :
    Buffer.SamePreimages db.buffer (f.run db).2.buffer ∨
      (f.run db).1 = .ok () ∧ f.TakesPreimages db ∧ f.preimages db = db.buffer.preimages ∧
        (f.run db).2.buffer.preimages = [] ∧ (f.run db).2.buffer.preimagesSize = ByteSize.zero := by
  cases f with
  | cap limit =>
    obtain ⟨_, _, disk, -, -, ⟨e, heq⟩ | ⟨-, heq⟩⟩ := db.cap_outcome limit
    · rw [Flush.run, heq]
      exact .inl (.refl _)
    · rw [Flush.run, heq]
      rcases db.capped_preimages limit with hsame | ⟨hover, ho, hpreimages, hcounter⟩
      · exact .inl hsame
      have hlt : limit < db.size.1 := Nat.lt_of_not_le hover
      refine .inr ⟨rfl, ⟨hlt, Database.lt_preimageBytes hc ho⟩, ?_, hpreimages, hcounter⟩
      rw [Flush.preimages, Database.capPreimages, if_neg hover, if_pos ho]
  | commit root =>
    obtain ⟨_, _, _, gone, _, disk, cleans, -, -, -, -, -, ⟨e, heq⟩ | ⟨-, -, -, heq⟩⟩ := db.commit_outcome root
    · rw [Flush.run, heq]
      exact .inl (.discards _ _)
    · rw [Flush.run, heq]
      exact .inr ⟨rfl, trivial, rfl, rfl, rfl⟩

end Commands

/-! ## Sessions -/

section Sessions

variable {σ : Type} [KeyValueStore σ] [LawfulStore σ] {reopens : σ → σ → Prop} {content : Hash → Bytes} {ps : List Put}
  {db : Database (Faulty σ)} {c : Command}

/-- Every hash has its one preimage, in the buffer and in the store. -/
structure PreimagesFaithful (content : Hash → Bytes) (ps : List Put) (db : Database (Faulty σ)) : Prop
    extends Recorded ps db where
  stored : ∀ p ∈ ps, ∀ h : Hash, p.key = secureKey h → p.value = content h
  buffered : ∀ x ∈ db.buffer.preimages, x.2 = content x.1
  counted : db.buffer.PreimagesCounted

/-- The preimage of a hash is buffered, or was put into the store. -/
def Known (ps : List Put) (db : Database (Faulty σ)) (h : Hash) : Prop :=
  h ∈ db.buffer.preimages.map (·.1) ∨ secureKey h ∈ ps.map (·.key)

namespace PreimagesFaithful

theorem start {disk : σ} (hd : LawfulStore.Holds disk []) (config : Config) (hv : config.Valid) :
    PreimagesFaithful content [] (.ofValid (.reliable disk) config hv) where
  toRecorded := .start hd config hv
  stored := by simp
  buffered := by simp [Database.ofValid, Buffer.empty]
  counted := .empty

theorem allowing (hf : PreimagesFaithful content ps db) (writes : Option Nat) :
    PreimagesFaithful content ps (db.allowing writes) :=
  ⟨hf.toRecorded.allowing writes, hf.stored, hf.buffered, hf.counted⟩

theorem get (hf : PreimagesFaithful content ps db) {h : Hash} (hh : secureKey h ∈ ps.map (·.key)) :
    KeyValueStore.get db.disk (secureKey h) = .ok (some (content h)) := by
  obtain ⟨p, hp, hkey⟩ := List.mem_map.1 hh
  have hvalue := hf.stored p hp h hkey
  have hget := LawfulStore.get_some hf.holds hp fun q hq heq => (hf.stored q hq h (heq.trans hkey)).trans hvalue.symm
  rwa [hkey, hvalue] at hget

theorem preimage_eq (hf : PreimagesFaithful content ps db) {h : Hash} (hk : Known ps db h) :
    db.preimage h = .ok (some (content h)) := by
  rw [Database.preimage]
  cases hfound : db.buffer.preimage? h with
  | some preimage =>
    obtain rfl : preimage = content h := hf.buffered _ (Buffer.mem_of_preimage? hfound)
    rfl
  | none =>
    refine hf.get (hk.resolve_left fun hbuffered => ?_)
    have hsome := Buffer.isSome_preimage? hbuffered
    rw [hfound] at hsome
    cases hsome

/-- A flush writes what is buffered and staged, and what it forgets it has written. -/
theorem flush (hf : PreimagesFaithful content ps db) (f : Flush) :
    ∃ qs, PreimagesFaithful content (ps ++ qs) (f.run db).2 ∧ (∀ h, Known ps db h → Known (ps ++ qs) (f.run db).2 h) ∧
      ((f.run db).2.buffer.preimages = db.buffer.preimages ∨
        (f.run db).1 = .ok () ∧ f.TakesPreimages db ∧ (f.run db).2.buffer.preimages = [] ∧
          ∀ x ∈ db.buffer.preimages, secureKey x.1 ∈ qs.map (·.key)) := by
  obtain ⟨written, _, hwrote, hputs, -, -, hall⟩ := f.spec db
  have hrecorded : Recorded (ps ++ written) (f.run db).2 := by
    have hw := (run_effect f.command db).wellFormed hf.wellFormed
    have hnodup := nodup_preimages_run f.command hf.preimages
    rw [f.command_run] at hw hnodup
    exact hf.wrote hwrote hw hnodup
  have hstored : ∀ p ∈ ps ++ written, ∀ h : Hash, p.key = secureKey h → p.value = content h := by
    intro p hp h hkey
    rcases List.mem_append.1 hp with hp | hp
    · exact hf.stored p hp h hkey
    · rcases Flush.mem_puts.1 (hputs p hp) with ⟨x, hx, rfl⟩ | ⟨x, -, rfl⟩
      · obtain rfl : x.1 = h := Flush.secureKey_inj hkey
        exact hf.buffered x (f.preimages_subset db hx)
      · exact absurd hkey.symm (secureKey_ne_bytes h x.1)
  rcases f.preimages_outcome hf.counted with hsame | ⟨hok, htakes, htaken, hempty, hcounter⟩
  · refine ⟨written, ⟨hrecorded, hstored, ?_, hsame.counted hf.counted⟩, fun h hk => ?_, .inl hsame.preimages⟩
    · rw [hsame.preimages]
      exact hf.buffered
    · rw [Known, hsame.preimages, List.map_append]
      exact hk.imp_right (List.mem_append_left _)
  · have hkeys : ∀ x ∈ db.buffer.preimages, secureKey x.1 ∈ written.map (·.key) := fun x hx => by
      rw [(hall hok).1]
      exact List.mem_map.2 ⟨_, Flush.mem_puts.2 (.inl ⟨x, htaken ▸ hx, rfl⟩), rfl⟩
    refine ⟨written, ⟨hrecorded, hstored, by simp [hempty], .of_cleared hempty hcounter⟩, fun h hk => .inr ?_,
      .inr ⟨hok, htakes, hempty, hkeys⟩⟩
    rw [List.map_append, List.mem_append]
    refine hk.symm.imp_right fun hbuffered => ?_
    obtain ⟨x, hx, rfl⟩ := List.mem_map.1 hbuffered
    exact hkeys x hx

/-- **Every command keeps what is known of preimages.** -/
theorem run (hf : PreimagesFaithful content ps db) (hc : c.Gives content) :
    ∃ qs, PreimagesFaithful content (ps ++ qs) (c.run db) ∧ ∀ h, Known ps db h → Known (ps ++ qs) (c.run db) h := by
  have hw := (run_effect c db).wellFormed hf.wellFormed
  have hnodup := nodup_preimages_run c hf.preimages
  rcases c.flush_or_preimages db with ⟨f, rfl⟩ | ⟨h, preimage, rfl⟩ | ⟨hdisk, hsame⟩
  · rw [f.command_run]
    obtain ⟨qs, hqs, hknown, -⟩ := hf.flush f
    exact ⟨qs, hqs, hknown⟩
  · obtain rfl : preimage = content h := hc h preimage rfl
    have hpreimages := db.buffer.preimages_insertPreimage h (content h)
    refine ⟨[], ⟨hf.wrote .nothing hw hnodup, by simpa using hf.stored, fun x hx => ?_, hf.counted.insertPreimage ..⟩,
      fun k hk => ?_⟩
    · rw [Command.run, Database.insertPreimage, hpreimages] at hx
      split at hx
      · exact hf.buffered x hx
      · rcases List.mem_append.1 hx with hx | hx
        · exact hf.buffered x hx
        · rw [List.mem_singleton.1 hx]
    · rw [List.append_nil]
      refine hk.imp_left fun hbuffered => ?_
      rw [Command.run, Database.insertPreimage, hpreimages]
      split
      · exact hbuffered
      · rw [List.map_append]
        exact List.mem_append_left _ hbuffered
  · refine ⟨[], ⟨hf.wrote (hdisk ▸ .nothing) hw hnodup, by simpa using hf.stored, ?_, hsame.counted hf.counted⟩,
      fun h hk => ?_⟩
    · rw [hsame.preimages]
      exact hf.buffered
    · rwa [Known, hsame.preimages, List.append_nil]

end PreimagesFaithful

/-- **Sessions keep what is known of preimages**, whatever they do and however often
the store is opened again. -/
theorem Session.faithful
    (hreopens : ∀ {s t : σ} {ps : List Put}, LawfulStore.Holds s ps → (reopens s t ↔ t = s))
    {start : Database (Faulty σ)} (hs : Session reopens content start db) (hf : PreimagesFaithful content ps start) :
    ∃ qs, PreimagesFaithful content qs db ∧ ∀ h, Known ps start h → Known qs db h := by
  induction hs with
  | start => exact ⟨ps, hf, fun _ hk => hk⟩
  | command _ writes c hc ih =>
    obtain ⟨qs, hqs, hknown⟩ := ih
    obtain ⟨rs, hrs, hknown'⟩ := (hqs.allowing writes).run hc
    exact ⟨qs ++ rs, hrs, fun h hk => hknown' h (hknown h hk)⟩
  | reopen _ hempty hdisk config hv ih =>
    obtain ⟨qs, hqs, hknown⟩ := ih
    obtain rfl := (hreopens hqs.holds.2).1 hdisk
    refine ⟨qs, ⟨.start hqs.holds.2 config hv, hqs.stored, by simp [Database.ofValid, Buffer.empty],
      .empty⟩, fun h hk => .inr ?_⟩
    -- nothing was buffered, so what was known is stored
    refine (hknown h hk).resolve_left ?_
    simp [hempty]

theorem PreimagesFaithful.keptOrStored (hf : PreimagesFaithful content ps db) (hc : c.Gives content) :
    PreimagesKeptOrStored c db := by
  rcases c.flush_or_preimages db with ⟨f, rfl⟩ | ⟨h, preimage, rfl⟩ | ⟨-, hsame⟩
  · obtain ⟨qs, hqs, -, heq | ⟨hok, htakes, hempty, hkeys⟩⟩ := hf.flush f
    · exact .inl (by rw [f.command_run, heq])
    · refine .inr ⟨f, rfl, hok, htakes, by rw [f.command_run, hempty], fun x hx => ?_⟩
      rw [f.command_run, hf.buffered x hx]
      refine hqs.get ?_
      rw [List.map_append]
      exact List.mem_append_right _ (hkeys x hx)
  · left
    rw [Command.run, Database.insertPreimage, Buffer.preimages_insertPreimage]
    split
    · exact List.prefix_rfl
    · exact List.prefix_append ..
  · exact .inl (by rw [hsame.preimages])

theorem PreimagesFaithful.nodesLeaveAsNodes (hf : PreimagesFaithful content ps db) (f : Flush) :
    NodesLeaveAsNodes f db := by
  obtain ⟨written, gone, hwrote, -, hgone, hsame, -⟩ := f.spec db
  obtain ⟨-, -, batches, hjournal, hflatten⟩ := Faulty.wrote_store hwrote
  refine ⟨batches, hjournal, fun h e he hleft => ⟨?_, fun x heq => ?_⟩⟩
  · have hmem : h ∈ gone.map (·.1) := by
      by_contra hno
      rw [hsame.table] at hleft
      exact hleft ((Buffer.mem_discards _ _ _).2 ⟨hno, Table.mem_iff_getElem?.2 ⟨e, he⟩⟩)
    obtain ⟨x, hx, rfl⟩ := List.mem_map.1 hmem
    have hentry := (f.nodes_staged hf.wellFormed).1 x (hgone x hx).1
    obtain rfl : x.2 = e := Option.some.inj (hentry.symm.trans he)
    rw [hflatten]
    exact (hgone x hx).2
  · exact secureKey_ne_bytes x.1 h (congrArg Put.key heq).symm

theorem keepsPreimages_of_holds {disk : σ} (hdisk : LawfulStore.Holds disk [])
    (hreopens : ∀ {s t : σ} {ps : List Put}, LawfulStore.Holds s ps → (reopens s t ↔ t = s))
    (content : Hash → Bytes) (config : Config) (hv : config.Valid) :
    KeepsPreimages reopens content (.ofValid (.reliable disk) config hv) := by
  have hstart : PreimagesFaithful content [] (.ofValid (.reliable disk) config hv) := .start hdisk config hv
  refine ⟨fun db hs => ?_, fun db hs writes h after hafter => ?_, fun db hs writes c hc => ?_,
    fun db hs writes f => ?_, Database.settleNodes_preimagePut⟩ <;> obtain ⟨ps, hf, -⟩ := hs.faithful hreopens hstart
  · exact ⟨_, (hreopens hf.holds.2).2 rfl⟩
  · have hgives : (Command.insertPreimage h (content h)).Gives content := by
      intro k preimage heq
      cases heq
      rfl
    obtain ⟨qs, hqs, -⟩ := (hf.allowing writes).run hgives
    obtain ⟨rs, hrs, hknown⟩ := hafter.faithful hreopens hqs
    refine hrs.preimage_eq (hknown h (.inl ?_))
    rw [Command.run, Database.insertPreimage, Buffer.preimages_insertPreimage]
    split
    · assumption
    · simp
  · exact (hf.allowing writes).keptOrStored hc
  · exact (hf.allowing writes).nodesLeaveAsNodes f

end Sessions

/-- **No preimage is lost**, over a store in memory that is passed on and over a store
file that is opened again. -/
theorem preimages_kept [FrameCodec] (content : Hash → Bytes) (config : Config) (hv : config.Valid) :
    KeepsPreimages Eq content (.ofValid (.reliable MemoryStore.empty) config hv) ∧
      KeepsPreimages (fun log opened => RecordLog.ofFile log.file = .ok opened) content
        (.ofValid (.reliable RecordLog.create) config hv) := by
  refine ⟨keepsPreimages_of_holds MemoryStore.holds_empty (fun _ => eq_comm) content config hv,
    keepsPreimages_of_holds RecordLog.holds_create (fun hs => ?_) content config hv⟩
  rw [RecordLog.Holds.ofFile hs, Except.ok.injEq, eq_comm]

/-- Settings under which every put is a batch of its own, and a cap takes preimages along
that are charged more than 40 bytes. -/
def putByPut : Config := { Config.withoutCleanCache with idealBatchSize := 1, preimageFlushThreshold := 40 }

theorem putByPut_valid : putByPut.Valid := by decide

/-- Two preimages. -/
def twoPreimages (h : Hash) : Bytes := if h = .filled 1 then [7] else [8]

/-- A database over an empty store that writes put by put. -/
def putByPutStart : Database (Faulty MemoryStore) := .ofValid (.reliable MemoryStore.empty) putByPut putByPut_valid

/-- A preimage was given, then a blob and another preimage, and a cap could write the
first preimage alone. -/
def cutShort : Database (Faulty MemoryStore) :=
  putByPutStart.runAll [(none, .insertPreimage (.filled 1) (twoPreimages (.filled 1))),
    (none, .insertBlob (.filled 3) [9]), (none, .insertPreimage (.filled 2) (twoPreimages (.filled 2))),
    (some 1, .cap ByteSize.zero)]

/-- The next cap, which succeeds. -/
def cappedTwo : Database (Faulty MemoryStore) := (Command.cap ByteSize.zero).run (cutShort.allowing none)

/-- The first cap fails and keeps both preimages. The second forgets them, and both are
found, also when the store is opened again. -/
theorem preimages_kept_cappedTwo :
    cutShort.buffer.preimages = [(.filled 1, [7]), (.filled 2, [8])] ∧ cappedTwo.buffer.preimages = [] ∧
      KeyValueStore.get cappedTwo.disk (secureKey (.filled 2)) = .ok (some [8]) ∧
      (Database.new (Faulty.reliable cappedTwo.disk.store)).preimage (.filled 1) = .ok (some [7]) := by
  have hkept := (preimages_kept twoPreimages putByPut putByPut_valid).1
  have hboth : cutShort.buffer.preimages = [(.filled 1, [7]), (.filled 2, [8])] := by cbv
  have hempty : cappedTwo.buffer.preimages = [] := by cbv
  have hblob : (Command.insertBlob (.filled 3) [9]).Gives twoPreimages := by
    intro h preimage heq
    cases heq
  have hcap : (Command.cap ByteSize.zero).Gives twoPreimages := by
    intro h preimage heq
    cases heq
  have hgives : ∀ h, (Command.insertPreimage h (twoPreimages h)).Gives twoPreimages := by
    intro h k preimage heq
    cases heq
    rfl
  -- what follows the first preimage
  have hlater : Session Eq twoPreimages
      ((Command.insertPreimage (.filled 1) (twoPreimages (.filled 1))).run (putByPutStart.allowing none)) cutShort :=
    ((Session.start.command none _ hblob).command none _ (hgives (.filled 2))).command (some 1) _ hcap
  have hcapped := hlater.command none _ hcap
  have hreopened := hcapped.reopen hempty rfl Config.standard Config.valid_standard
  refine ⟨hboth, hempty, ?_, hkept.found _ .start none _ _ hreopened⟩
  have hsession := (Session.start.command none _ (hgives (.filled 1))).trans hlater
  rcases hkept.emptied _ hsession none _ hcap with hprefix | ⟨_, -, -, -, -, hstored⟩
  · have hnil : cutShort.buffer.preimages <+: cappedTwo.buffer.preimages := hprefix
    rw [hboth, hempty] at hnil
    simp at hnil
  · refine hstored (.filled 2, [8]) ?_
    have hmem : (Hash.filled 2, [8]) ∈ cutShort.buffer.preimages := by simp [hboth]
    exact hmem

end MerkleBuffer
