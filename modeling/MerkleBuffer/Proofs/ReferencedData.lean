/-
What a commit stores of the data that its root references.

An explicit reference stands in the entry of the parent alone. As long as the
parent is staged while the child is, a commit of the parent finds the child and
stores it, whatever caps and commits came before. When the parent has been evicted
and the child has not, the reference is gone with the parent, and a commit of the
parent passes the child over.
-/
import Mathlib
import MerkleBuffer.Proofs.Collection
import MerkleBuffer.Proofs.Database.Recorded
import MerkleBuffer.Store.Frame

namespace MerkleBuffer

namespace Buffer

variable {b b' : Buffer} {child parent : Hash} {k p : Hash}

/-! ## The references of a parent -/

/-- The child is staged, and so is the parent, which points to it if it is another
node. -/
def Attached (b : Buffer) (child parent : Hash) : Prop :=
  child ∈ b.table ∧ parent ∈ b.table ∧ (child = parent ∨ child ∈ b.refs parent)

theorem mem_refs_reference_of_mem {q r : Hash} (hk : k ∈ b.refs p) : k ∈ (b.reference q r).refs p := by
  rcases reference_cases b q r with heq | ⟨-, -, -, hpin, heq⟩ | ⟨-, -, -, e, he, hcount, heq⟩
  · rwa [heq]
  · rw [heq, refs_of_map (f := fun k e => if q = k then e.gainParent else e) (getElem?_pin hpin)
      fun e => by split <;> simp]
    exact hk
  · rw [heq]
    by_cases hp : p = r
    · subst hp
      have hpos := List.count_pos_iff.2 hk
      have hmore := count_refs_addEdge he hcount k
      exact List.count_pos_iff.1 (by omega)
    · rwa [refs_addEdge_of_ne he hcount hp]

/-- After a reference between two staged nodes the parent points to the child, also if
it could not be counted once more. -/
theorem attached_reference (hw : b.WellFormed) (hc : child ∈ b.table) (hp : parent ∈ b.table) :
    (b.reference child parent).Attached child parent := by
  refine ⟨(mem_reference b child parent child).2 hc, (mem_reference b child parent parent).2 hp, ?_⟩
  by_cases hne : child = parent
  · exact .inl hne
  right
  have hz : parent ≠ Hash.zero := fun heq => hw.zero_not_mem (heq ▸ hp)
  have heq : b.reference child parent = b.addEdge child parent := by
    simp [Buffer.reference, hne, hc, Hash.isZero, hz]
  obtain ⟨e, he⟩ := Table.mem_iff_getElem?.1 hp
  rw [heq]
  by_cases hfull : (e.edges.getD []).count child = Edges.maxCount
  · -- as often as it can be counted, and so at least once
    have hsame : b.addEdge child parent = b := by simp only [addEdge, he, hfull, if_true]
    have hcount := Edges.count_expand (hw.edges parent e he).nodup child
    rw [hsame, refs_of_getElem? he]
    refine List.mem_append_left _ (List.count_pos_iff.1 ?_)
    rw [hcount, hfull]
    decide
  · have hmore := count_refs_addEdge he hfull child
    rw [if_pos rfl] at hmore
    exact List.count_pos_iff.1 (by omega)

theorem Attached.insert {h : Hash} {size : Nat} {node : Node} (ha : b.Attached child parent) (hh : h ∉ b.table) :
    (b.insert h size node).Attached child parent := by
  obtain ⟨hc, hp, hrefs⟩ := ha
  have hne : h ≠ parent := fun heq => hh (heq ▸ hp)
  refine ⟨(mem_insert hh size node child).2 (.inr hc), (mem_insert hh size node parent).2 (.inr hp), ?_⟩
  rwa [refs_insert hh, if_neg hne]

theorem Attached.reference (ha : b.Attached child parent) (q r : Hash) : (b.reference q r).Attached child parent := by
  obtain ⟨hc, hp, hrefs⟩ := ha
  exact ⟨(mem_reference b q r child).2 hc, (mem_reference b q r parent).2 hp, hrefs.imp_right mem_refs_reference_of_mem⟩

theorem SameNodes.attached (hs : SameNodes b b') (ha : b.Attached child parent) : b'.Attached child parent := by
  rw [Attached, hs.table, hs.refs]
  exact ha

theorem Attached.discards {hs : List Hash} (ha : b.Attached child parent) (hw : b.WellFormed)
    (hc : child ∈ (b.discards hs).table) (hp : parent ∈ (b.discards hs).table) :
    (b.discards hs).Attached child parent := by
  refine ⟨hc, hp, ?_⟩
  rw [(Remnant.discards hw.linked hs).1.refs hp]
  exact ha.2.2

theorem Attached.mem_below (ha : b.Attached child parent) (hw : b.WellFormed) : child ∈ b.below parent := by
  obtain ⟨hc, hp, hrefs⟩ := ha
  rw [Buffer.mem_below hw]
  rcases hrefs with rfl | hrefs
  · exact ⟨hp, .refl⟩
  · exact ⟨hp, .single ⟨hrefs, hc⟩⟩

end Buffer

/-! ## Runs -/

section Runs

variable {σ : Type} [KeyValueStore σ]

/-- A command that dereferences nothing and does not evict the parent before the
child, and stages each hash with the bytes it stands for. -/
structure Keeping (content : Hash → Bytes) (child parent : Hash) (db : Database (Faulty σ)) (c : Command) : Prop where
  truthful : Truthful content db c
  kept : ∀ root, c ≠ .dereference root
  together : parent ∈ db.buffer.table → parent ∉ (c.run db).buffer.table → child ∉ (c.run db).buffer.table

/-- Commits store what is referenced: after a reference between two staged nodes, and
any commands that keep the parent as long as the child, a commit of the parent that
succeeds leaves the child in the store. And where the parent is not staged and the
child is not stored, it does not. -/
def ReferencedStored (content : Hash → Bytes) (start : Database (Faulty σ)) : Prop :=
  ∀ db, Reachable (Truthful content) start db → ∀ child parent,
    (child ∈ db.buffer.table → parent ∈ db.buffer.table →
      ∀ mid, Reachable (Keeping content child parent) ((Command.reference child parent).run db) mid →
        ∀ writes after, (mid.allowing writes).commit parent = (.ok (), after) →
          KeyValueStore.get after.disk child.bytes = .ok (some (content child))) ∧
    (parent ∉ db.buffer.table → ¬ db.Stored child → ∀ writes after,
      (db.allowing writes).commit parent = (.ok (), after) → KeyValueStore.get after.disk child.bytes = .ok none)

variable [LawfulStore σ] {content : Hash → Bytes} {ps : List Put} {child parent : Hash} {c : Command}
  {db mid after : Database (Faulty σ)}

/-- The child is attached to its parent, or it is stored. -/
def Attained (content : Hash → Bytes) (child parent : Hash) (db : Database (Faulty σ)) : Prop :=
  ∃ ps, Faithful content ps db ∧ (db.buffer.Attached child parent ∨ child ∈ nodeHashes ps)

/-- **One command.** -/
theorem Attained.run (ha : Attained content child parent db) (hk : Keeping content child parent db c) :
    Attained content child parent (c.run db) := by
  obtain ⟨ps, hf, hor⟩ := ha
  rcases hor with hatt | hh
  · by_cases hflush : ∃ f : Flush, c = f.command
    · obtain ⟨f, rfl⟩ := hflush
      obtain ⟨written, gone, hf', -, hgone, hsame, -⟩ := hf.flush f
      have htogether := hk.together hatt.2.1
      rw [f.command_run] at htogether ⊢
      have hleft := Buffer.mem_discards db.buffer (gone.map (·.1))
      by_cases hc : child ∈ gone.map (·.1)
      · obtain ⟨x, hx, rfl⟩ := List.mem_map.1 hc
        refine ⟨ps ++ written, hf', .inr ?_⟩
        rw [nodeHashes_append]
        exact List.mem_append_right _ (hgone x hx).2
      · have hc' : child ∈ (db.buffer.discards (gone.map (·.1))).table := (hleft child).2 ⟨hc, hatt.1⟩
        have hp' : parent ∈ (db.buffer.discards (gone.map (·.1))).table := by
          by_contra hno
          rw [← hsame.table] at hno hc'
          exact htogether hno hc'
        exact ⟨ps ++ written, hf', .inl (hsame.attached (hatt.discards hf.wellFormed hc' hp'))⟩
    · obtain ⟨qs, hf'⟩ := hf.run hk.truthful
      refine ⟨ps ++ qs, hf', .inl ?_⟩
      have he := run_effect c db
      have hkept := hk.kept
      generalize (c.run db).buffer = b' at he ⊢
      cases he with
      | same _ hsame => exact hsame.attached hatt
      | insert _ _ hh => exact hatt.insert hh
      | reference _ => exact hatt.reference _ _
      | @dereference root _ => exact absurd rfl (hkept root)
      | @cap limit _ _ _ _ _ => exact absurd ⟨.cap limit, rfl⟩ hflush
      | @commit root _ _ _ _ _ => exact absurd ⟨.commit root, rfl⟩ hflush
  · obtain ⟨qs, hf'⟩ := hf.run hk.truthful
    refine ⟨ps ++ qs, hf', .inr ?_⟩
    rw [nodeHashes_append]
    exact List.mem_append_left _ hh

/-- **All commands of a run.** -/
theorem Reachable.attained (hr : Reachable (Keeping content child parent) db mid)
    (ha : Attained content child parent db) : Attained content child parent mid := by
  induction hr with
  | start => exact ha
  | step _ writes c hk ih =>
    obtain ⟨ps, hf, hor⟩ := ih
    exact Attained.run ⟨ps, hf.allowing writes, hor⟩ hk

/-- A commit of the parent that succeeds has stored the child. -/
theorem Attained.commit (ha : Attained content child parent db) (hok : db.commit parent = (.ok (), after)) :
    KeyValueStore.get after.disk child.bytes = .ok (some (content child)) := by
  obtain ⟨ps, hf, hor⟩ := ha
  obtain ⟨written, gone, hf', -, -, -, -, hall⟩ := hf.flush (.commit parent)
  have hrun : (Flush.commit parent).run db = (.ok (), after) := hok
  rw [hrun] at hf' hall
  refine hf'.get ?_
  rw [nodeHashes_append, List.mem_append]
  rcases hor with hatt | hh
  · right
    rw [hall rfl]
    exact hatt.mem_below hf.wellFormed
  · exact .inl hh

/-- A commit of what is not staged stores no node. -/
theorem Faithful.commit_of_not_mem (hf : Faithful content ps db) (hp : parent ∉ db.buffer.table)
    (hc : ¬ db.Stored child) (hok : db.commit parent = (.ok (), after)) :
    KeyValueStore.get after.disk child.bytes = .ok none := by
  obtain ⟨written, gone, hf', -, -, -, hnodes, -⟩ := hf.flush (.commit parent)
  have hrun : (Flush.commit parent).run db = (.ok (), after) := hok
  rw [hrun] at hf'
  refine hf'.get_none fun hh => ?_
  rw [nodeHashes_append, List.mem_append] at hh
  rcases hh with hold | hnew
  · exact hc (hf.stored_iff.2 hold)
  · have hbelow : child ∈ db.buffer.below parent := hnodes child hnew
    exact hp ((Buffer.mem_below hf.wellFormed).1 hbelow).1

theorem referencedStored_of_holds {disk : σ} (hdisk : LawfulStore.Holds disk []) (content : Hash → Bytes)
    (config : Config) (hv : config.Valid) : ReferencedStored content (.ofValid (.reliable disk) config hv) := by
  intro db hr child parent
  obtain ⟨ps, hf⟩ := hr.faithful (.start hdisk config hv)
  refine ⟨fun hc hp mid hmid writes after hok => ?_, fun hp hc writes after hok => ?_⟩
  · have hz : child ≠ Hash.zero := fun heq => hf.wellFormed.zero_not_mem (heq ▸ hc)
    obtain ⟨qs, hf'⟩ := hf.run (c := .reference child parent) fun h size node hs => by cases hs
    have hbuffer : ((Command.reference child parent).run db).buffer = db.buffer.reference child parent := by
      simp [Command.run, Database.reference, Hash.isZero, hz]
    have hatt : ((Command.reference child parent).run db).buffer.Attached child parent := by
      rw [hbuffer]
      exact Buffer.attached_reference hf.wellFormed hc hp
    obtain ⟨rs, hmid', hor⟩ := hmid.attained ⟨_, hf', .inl hatt⟩
    exact Attained.commit ⟨rs, hmid'.allowing writes, hor⟩ hok
  · exact (hf.allowing writes).commit_of_not_mem hp hc hok

end Runs

/-- **Commits store what is referenced exactly as long as no command evicts the parent
before the child**, over a store in memory and over a store file that start empty. -/
theorem commit_stores_referenced [FrameCodec] (content : Hash → Bytes) (config : Config) (hv : config.Valid) :
    ReferencedStored content (.ofValid (.reliable MemoryStore.empty) config hv) ∧
      ReferencedStored content (.ofValid (.reliable RecordLog.create) config hv) :=
  ⟨referencedStored_of_holds MemoryStore.holds_empty content config hv,
    referencedStored_of_holds RecordLog.holds_create content config hv⟩

/-- The bytes of the two blobs. -/
def twoBlobBytes (h : Hash) : Bytes := if h = .filled 1 then [7] else [8]

theorem truthful_evictedParent :
    AllAllowed (Truthful twoBlobBytes) (Database.new (.reliable MemoryStore.empty)) evictedParent := by
  refine ⟨?_, ?_, ?_, ?_, trivial⟩ <;> intro h size node hs _ <;> cases hs
  · decide
  · decide

theorem not_stored_evictedParent :
    ¬ ((Database.new (.reliable MemoryStore.empty)).runAll evictedParent).Stored (.filled 2) := by
  have hnone : KeyValueStore.get ((Database.new (.reliable MemoryStore.empty)).runAll evictedParent).disk
      (Hash.filled 2).bytes = .ok none := by cbv
  intro hs
  obtain ⟨value, hget⟩ := hs
  rw [hnone] at hget
  cases hget

/-- A cap that evicts both blobs does no harm. One that evicts the parent alone leaves
the child to be passed over. -/
theorem commit_stores_referenced_twoBlobs :
    let start := Database.new (.reliable MemoryStore.empty)
    let both := (Command.cap ByteSize.zero).run
      (((Command.reference (.filled 2) (.filled 1)).run (start.runAll twoBlobs)).allowing none)
    KeyValueStore.get ((both.allowing none).commit (.filled 1)).2.disk (Hash.filled 2).bytes = .ok (some [8]) ∧
      KeyValueStore.get (((start.runAll evictedParent).allowing none).commit (.filled 1)).2.disk (Hash.filled 2).bytes =
        .ok none := by
  intro start both
  have hstored := (commit_stores_referenced twoBlobBytes Config.standard Config.valid_standard).1
  obtain ⟨hfirst, hsecond, -⟩ := truthful_evictedParent
  have htwo : AllAllowed (Truthful twoBlobBytes) start twoBlobs := ⟨hfirst, hsecond, trivial⟩
  have htogether : Keeping twoBlobBytes (.filled 2) (.filled 1)
      (((Command.reference (.filled 2) (.filled 1)).run (start.runAll twoBlobs)).allowing none)
      (.cap ByteSize.zero) := by
    refine ⟨fun h size node hs => (by cases hs), fun root hc => (by cases hc), fun _ _ => ?_⟩
    decide +kernel
  have hreach : Reachable (Keeping twoBlobBytes (.filled 2) (.filled 1))
      ((Command.reference (.filled 2) (.filled 1)).run (start.runAll twoBlobs)) both :=
    Reachable.start.step none _ htogether
  have hok : ((((Command.cap ByteSize.zero).run (((Command.reference (.filled 2) (.filled 1)).run
      ((Database.new (.reliable MemoryStore.empty)).runAll twoBlobs)).allowing none)).allowing none).commit
        (.filled 1)).1 = .ok () := by cbv
  have hok' : ((((Database.new (.reliable MemoryStore.empty)).runAll evictedParent).allowing none).commit
      (.filled 1)).1 = .ok () := by cbv
  refine ⟨(hstored _ (Reachable.start.runAll htwo) _ _).1 (by decide +kernel) (by decide +kernel) both hreach none _
    (Outcome.eq_mk hok), ?_⟩
  exact (hstored _ (Reachable.start.runAll truthful_evictedParent) _ _).2 (by decide +kernel)
    not_stored_evictedParent none _ (Outcome.eq_mk hok')

/-- Both blobs are staged when the reference is made, and nothing is dereferenced. The
commit of the parent succeeds, and the child is not in the store. -/
theorem commit_passes_over_referenced :
    let staged := (Database.new (.reliable MemoryStore.empty)).runAll twoBlobs
    let db := (Database.new (.reliable MemoryStore.empty)).runAll evictedParent
    staged.contains (.filled 1) = true ∧ staged.contains (.filled 2) = true ∧
      (db.commit (.filled 1)).1 = .ok () ∧
      KeyValueStore.get (db.commit (.filled 1)).2.disk (Hash.filled 2).bytes = .ok none := by
  refine ⟨?_, ?_, ?_, ?_⟩
  · decide +kernel
  · decide +kernel
  · cbv
  · cbv

end MerkleBuffer
