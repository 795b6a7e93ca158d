/-
What the store of a run holds.

`Recorded ps db`: the store holds the puts `ps` and takes more, and the buffer is
in order. Every command keeps this, with a few puts more, each that of a buffered
preimage or a staged node (`run_wrote`). When each hash is staged with the same
bytes, whatever the commands are otherwise, these are also the bytes that the
store answers with (`Faithful`).
-/
import MerkleBuffer.Proofs.Buffer.Preimages
import MerkleBuffer.Proofs.Database.Flushes

namespace MerkleBuffer

section Commands

variable {σ : Type} [KeyValueStore σ]

theorem Command.flush_or_preimages (c : Command) (db : Database σ) :
    (∃ f : Flush, c = f.command) ∨ (∃ h preimage, c = .insertPreimage h preimage) ∨
      (c.run db).disk = db.disk ∧ Buffer.SamePreimages db.buffer (c.run db).buffer := by
  have hstaging : ∀ h size node, c.staging? = some (h, size, node) →
      (c.run db).disk = db.disk ∧ Buffer.SamePreimages db.buffer (c.run db).buffer := by
    intro h size node hc
    rw [run_staging hc]
    split
    · exact ⟨rfl, .refl _⟩
    · exact ⟨rfl, .insert ..⟩
  have hlookup : ∀ h, c = .lookup h ∨ c = .lookupTrieNode h →
      (c.run db).disk = db.disk ∧ Buffer.SamePreimages db.buffer (c.run db).buffer := by
    intro h hc
    obtain ⟨cleans, heq, -⟩ := run_lookup c h hc db
    rw [heq]
    exact ⟨rfl, .refl _⟩
  cases c with
  | cap limit => exact .inl ⟨.cap limit, rfl⟩
  | commit root => exact .inl ⟨.commit root, rfl⟩
  | insertPreimage h preimage => exact .inr (.inl ⟨h, preimage, rfl⟩)
  | insert h blob node => exact .inr (.inr (hstaging _ _ _ rfl))
  | insertBlob h blob => exact .inr (.inr (hstaging _ _ _ rfl))
  | insertNode node => exact .inr (.inr (hstaging _ _ _ rfl))
  | lookup h => exact .inr (.inr (hlookup h (.inl rfl)))
  | lookupTrieNode h => exact .inr (.inr (hlookup h (.inr rfl)))
  | reference child parent =>
    refine .inr (.inr ?_)
    simp only [Command.run, Database.reference]
    split
    · exact ⟨rfl, .refl _⟩
    · exact ⟨rfl, .reference ..⟩
  | dereference root =>
    refine .inr (.inr ?_)
    simp only [Command.run, Database.dereference]
    split
    · exact ⟨rfl, .refl _⟩
    · exact ⟨rfl, .dereference ..⟩

/-- **What a command writes**: buffered preimages and staged nodes. -/
theorem run_wrote (c : Command) {db : Database σ} (hw : db.buffer.WellFormed) :
    ∃ qs, Wrote db.disk qs (c.run db).disk ∧ ∀ q ∈ qs, (∃ x, q = Database.preimagePut x) ∨
      ∃ x : Hash × Staged, db.buffer.table[x.1]? = some x.2 ∧ q = Database.nodePut x := by
  rcases c.flush_or_preimages db with ⟨f, rfl⟩ | ⟨h, preimage, rfl⟩ | ⟨hdisk, -⟩
  · obtain ⟨written, -, hwrote, hputs, -, -⟩ := f.spec db
    refine ⟨written, f.command_run db ▸ hwrote, fun q hq => ?_⟩
    cases Flush.mem_puts.1 (hputs q hq) with
    | inl h =>
      obtain ⟨x, -, rfl⟩ := h
      exact .inl ⟨x, rfl⟩
    | inr h =>
      obtain ⟨x, hx, rfl⟩ := h
      exact .inr ⟨x, (f.nodes_staged hw).1 x hx, rfl⟩
  · exact ⟨[], .nothing, by simp⟩
  · rw [hdisk]
    exact ⟨[], .nothing, by simp⟩

/-- A hash has one preimage. -/
theorem nodup_preimages_run (c : Command) {db : Database σ} (hnodup : (db.buffer.preimages.map (·.1)).Nodup) :
    ((c.run db).buffer.preimages.map (·.1)).Nodup := by
  rcases c.flush_or_preimages db with ⟨f, rfl⟩ | ⟨h, preimage, rfl⟩ | ⟨-, hsame⟩
  · rw [f.command_run]
    rcases f.preimages_run db with heq | heq
    · rwa [heq]
    · simp [heq]
  · rw [Command.run, Database.insertPreimage, Buffer.preimages_insertPreimage]
    split
    · exact hnodup
    · next hnew =>
      rw [List.map_append, List.nodup_append]
      refine ⟨hnodup, by simp, fun a ha k hk => ?_⟩
      intro hak
      simp at hk
      subst hak hk
      exact hnew ha
  · rwa [hsame.preimages]

/-- What is staged after a command was staged before, or the command has staged it. -/
theorem Buffer.Effect.entry {b b' : Buffer} {c : Command} (he : Effect b c b') (hw : b.WellFormed) {h : Hash}
    {e' : Staged} (he' : b'.table[h]? = some e') :
    (∃ e : Staged, b.table[h]? = some e ∧ e'.node = e.node) ∨
      ∃ size node, c.staging? = some (h, size, node) ∧ h ∉ b.table ∧ e'.node = node := by
  have hpart : ∀ {b'' : Buffer}, Remnant b b'' → SameNodes b'' b' →
      ∃ e : Staged, b.table[h]? = some e ∧ e'.node = e.node := by
    intro b'' hr hsame
    obtain ⟨e, hget, hnode, -, -⟩ := hr.entry h e' (hsame.table ▸ he')
    exact ⟨e, hget, hnode⟩
  cases he with
  | same _ hsame => exact .inl (hpart (.refl b) hsame)
  | @insert _ k size node hc _ hk =>
    have hentry := nodeAt?_insert hk size node h
    rw [nodeAt?_of_getElem? he'] at hentry
    split at hentry
    · next heq =>
      subst heq
      exact .inr ⟨size, node, hc, hk, congrArg Staged.node (Option.some.inj hentry)⟩
    · obtain ⟨x, hx, heq⟩ := Option.map_eq_some_iff.1 hentry.symm
      obtain ⟨e, hget, rfl⟩ := Option.map_eq_some_iff.1 hx
      exact .inl ⟨e, hget, (congrArg Staged.node heq).symm⟩
  | @reference child parent _ =>
    obtain ⟨hsome, hnone⟩ := getElem?_reference b child parent h
    cases hget : b.table[h]? with
    | none => rw [hnone hget] at he'; cases he'
    | some e =>
      obtain ⟨e'', he'', hnode, -⟩ := hsome e hget
      rw [he'] at he''
      cases he''
      exact .inl ⟨e, rfl, hnode⟩
  | @dereference root _ => exact .inl (hpart (remnant_dereference hw.linked root).1 (.refl _))
  | cap _ _ hsame => exact .inl (hpart (Remnant.discards hw.linked _).1 hsame)
  | commit _ _ hsame => exact .inl (hpart (Remnant.discards hw.linked _).1 hsame)

end Commands

/-! ## Runs -/

section Runs

variable {σ : Type} [KeyValueStore σ] [LawfulStore σ] {ps : List Put} {db : Database (Faulty σ)}

/-- A store that holds the puts `ps` and takes more, with a buffer that is in
order. -/
structure Recorded (ps : List Put) (db : Database (Faulty σ)) : Prop where
  holds : LawfulStore.Holds db.disk ps
  failPuts : db.disk.failPuts = false
  wellFormed : db.buffer.WellFormed
  preimages : (db.buffer.preimages.map (·.1)).Nodup

namespace Recorded

theorem start {disk : σ} (hd : LawfulStore.Holds disk ps) (config : Config) (hv : config.Valid) :
    Recorded ps (Database.ofValid (Faulty.reliable disk) config hv) :=
  ⟨⟨rfl, hd⟩, rfl, .empty, .nil⟩

theorem allowing (hr : Recorded ps db) (writes : Option Nat) : Recorded ps (db.allowing writes) :=
  ⟨hr.holds, hr.failPuts, hr.wellFormed, hr.preimages⟩

theorem wrote {qs : List Put} {after : Database (Faulty σ)} (hr : Recorded ps db) (hwrote : Wrote db.disk qs after.disk)
    (hw : after.buffer.WellFormed) (hpreimages : (after.buffer.preimages.map (·.1)).Nodup) :
    Recorded (ps ++ qs) after :=
  ⟨hwrote.holds hr.holds, (Faulty.wrote_store hwrote).2.1.trans hr.failPuts, hw, hpreimages⟩

/-- Every command writes preimages and staged nodes, and no store refuses more
puts than before. -/
theorem run (hr : Recorded ps db) (c : Command) : ∃ qs, Recorded (ps ++ qs) (c.run db) ∧
    ∀ q ∈ qs, (∃ x, q = Database.preimagePut x) ∨
      ∃ x : Hash × Staged, db.buffer.table[x.1]? = some x.2 ∧ q = Database.nodePut x := by
  obtain ⟨qs, hwrote, hqs⟩ := run_wrote c hr.wellFormed
  have hw := (run_effect c db).wellFormed hr.wellFormed
  exact ⟨qs, hr.wrote hwrote hw (nodup_preimages_run c hr.preimages), hqs⟩

end Recorded

/-- **The store of every run is recorded**, whatever the commands are. -/
theorem Reachable.recorded {allowed : Database (Faulty σ) → Command → Prop} {start : Database (Faulty σ)}
    (hreach : Reachable allowed start db) (hr : Recorded ps start) : ∃ qs, Recorded (ps ++ qs) db := by
  induction hreach with
  | start => exact ⟨[], by rwa [List.append_nil]⟩
  | step _ writes c _ ih =>
    obtain ⟨qs, hqs⟩ := ih
    obtain ⟨rs, hrs, -⟩ := (hqs.allowing writes).run c
    exact ⟨qs ++ rs, by rwa [← List.append_assoc]⟩

/-! ## One encoding for each hash -/

/-- A command that stages under a hash the bytes that the hash stands for. -/
def Truthful (content : Hash → Bytes) (db : Database (Faulty σ)) (c : Command) : Prop :=
  ∀ h size node, c.staging? = some (h, size, node) → h ∉ db.buffer.table → node.encode = content h

/-- Every hash is staged and stored with the bytes that it stands for. -/
structure Faithful (content : Hash → Bytes) (ps : List Put) (db : Database (Faulty σ)) : Prop
    extends Recorded ps db where
  value : ∀ p ∈ ps, ∀ h : Hash, p.key = h.bytes → p.value = content h
  node : ∀ (h : Hash) (e : Staged), db.buffer.table[h]? = some e → e.node.encode = content h

namespace Faithful

variable {content : Hash → Bytes} {c : Command}

theorem start {disk : σ} (hd : LawfulStore.Holds disk []) (config : Config) (hv : config.Valid) :
    Faithful content [] (Database.ofValid (Faulty.reliable disk) config hv) where
  toRecorded := .start hd config hv
  value := by simp
  node h e he := by simp [Database.ofValid, Buffer.empty] at he

theorem allowing (hf : Faithful content ps db) (writes : Option Nat) : Faithful content ps (db.allowing writes) :=
  ⟨hf.toRecorded.allowing writes, hf.value, hf.node⟩

theorem value_append {qs : List Put} (hf : Faithful content ps db)
    (hqs : ∀ q ∈ qs, (∃ x, q = Database.preimagePut x) ∨
      ∃ x : Hash × Staged, db.buffer.table[x.1]? = some x.2 ∧ q = Database.nodePut x) :
    ∀ p ∈ ps ++ qs, ∀ h : Hash, p.key = h.bytes → p.value = content h := by
  intro p hp h heq
  cases List.mem_append.1 hp with
  | inl hp => exact hf.value p hp h heq
  | inr hp =>
    rcases hqs p hp with ⟨x, rfl⟩ | ⟨x, hx, rfl⟩
    · exact absurd heq (secureKey_ne_bytes x.1 h)
    · have hh : x.1 = h := Hash.ext heq
      rw [← hh]
      exact hf.node x.1 x.2 hx

theorem node_run (hf : Faithful content ps db) (ht : Truthful content db c) (h : Hash) (e' : Staged)
    (he' : (c.run db).buffer.table[h]? = some e') : e'.node.encode = content h := by
  rcases (run_effect c db).entry hf.wellFormed he' with ⟨e, he, hnode⟩ | ⟨size, node, hc, hnew, rfl⟩
  · rw [hnode]
    exact hf.node h e he
  · exact ht h size _ hc hnew

theorem run (hf : Faithful content ps db) (ht : Truthful content db c) :
    ∃ qs, Faithful content (ps ++ qs) (c.run db) := by
  obtain ⟨qs, hr, hqs⟩ := hf.toRecorded.run c
  exact ⟨qs, hr, hf.value_append hqs, hf.node_run ht⟩

/-- **What a flush evicts is stored**, whatever its outcome. -/
theorem flush (hf : Faithful content ps db) (f : Flush) :
    ∃ (written : List Put) (gone : List (Hash × Staged)), Faithful content (ps ++ written) (f.run db).2 ∧
      Wrote db.disk written (f.run db).2.disk ∧
      (∀ x ∈ gone, db.buffer.table[x.1]? = some x.2 ∧ x.1 ∈ nodeHashes written) ∧
      Buffer.SameNodes (db.buffer.discards (gone.map (·.1))) (f.run db).2.buffer ∧
      (∀ h ∈ nodeHashes written, h ∈ (f.nodes db).map (·.1)) ∧
      ((f.run db).1 = .ok () → nodeHashes written = (f.nodes db).map (·.1)) := by
  obtain ⟨written, gone, hwrote, hputs, hgone, hsame, hall⟩ := f.spec db
  have hstaged := (f.nodes_staged hf.wellFormed).1
  have hpreimages := nodup_preimages_run f.command hf.preimages
  have hnode := hf.node_run (c := f.command) fun h size node hc => by cases f <;> cases hc
  rw [f.command_run] at hpreimages hnode
  refine ⟨written, gone, ⟨hf.wrote hwrote (hsame.wellFormed (hf.wellFormed.discards _)) hpreimages, ?_, hnode⟩,
    hwrote, fun x hx => ⟨hstaged x (hgone x hx).1, ?_⟩, hsame, fun h hh => ?_, fun hok => ?_⟩
  · refine hf.value_append fun q hq => ?_
    cases Flush.mem_puts.1 (hputs q hq) with
    | inl h =>
      obtain ⟨x, -, rfl⟩ := h
      exact .inl ⟨x, rfl⟩
    | inr h =>
      obtain ⟨x, hx, rfl⟩ := h
      exact .inr ⟨x, hstaged x hx, rfl⟩
  · exact mem_nodeHashes.2 ⟨_, (hgone x hx).2, rfl⟩
  · obtain ⟨p, hp, hkey⟩ := mem_nodeHashes.1 hh
    rw [← f.nodeHashes_puts]
    exact mem_nodeHashes.2 ⟨p, hputs p hp, hkey⟩
  · rw [(hall hok).1, f.nodeHashes_puts]

theorem get (hf : Faithful content ps db) {h : Hash} (hh : h ∈ nodeHashes ps) :
    KeyValueStore.get db.disk h.bytes = .ok (some (content h)) :=
  LawfulStore.get_node hf.holds hf.value hh

theorem get_none (hf : Faithful content ps db) {h : Hash} (hh : h ∉ nodeHashes ps) :
    KeyValueStore.get db.disk h.bytes = .ok none := LawfulStore.get_node_none hf.holds hh

theorem stored_iff (hf : Faithful content ps db) {h : Hash} : db.Stored h ↔ h ∈ nodeHashes ps := by
  constructor
  · intro hs
    obtain ⟨value, hget⟩ := hs
    by_contra hno
    rw [hf.get_none hno] at hget
    cases hget
  · exact fun hh => ⟨_, hf.get hh⟩

end Faithful

/-- **Where each hash has one encoding, runs store no other.** -/
theorem Reachable.faithful {content : Hash → Bytes} {start : Database (Faulty σ)}
    (hreach : Reachable (Truthful content) start db) (hf : Faithful content ps start) :
    ∃ qs, Faithful content (ps ++ qs) db := by
  induction hreach with
  | start => exact ⟨[], by rwa [List.append_nil]⟩
  | step _ writes c hc ih =>
    obtain ⟨qs, hqs⟩ := ih
    obtain ⟨rs, hrs⟩ := (hqs.allowing writes).run hc
    exact ⟨qs ++ rs, by rwa [← List.append_assoc]⟩

end Runs

end MerkleBuffer
