/-
Which dereferences keep what other pins hold.

A dereference keeps all nodes below the other pins as long as no hash is staged
while something holds it (`Heedful`). A hash that left the buffer and is staged
again starts with a count of zero, and an edge or pin from before is not counted
again: then a dereference of any parent that is staged on top of it collects it
(`collects_restaged`).
-/
import Mathlib
import MerkleBuffer.Proofs.Database.Runs
import MerkleBuffer.Store.Memory

namespace MerkleBuffer

namespace Buffer

variable {b b' : Buffer} {h p q root : Hash}

/-- A dereference of `root` keeps every staged node that is pinned after it, and
what staged nodes lead to from there. -/
def KeepsPinned (b : Buffer) (root : Hash) : Prop :=
  ∀ q ∈ b.table, q ∈ (b.dereference root).pins → ∀ h, Relation.ReflTransGen b.Points q h →
    h ∈ (b.dereference root).table

/-- No staged node has counted less than what holds it. -/
structure Covered (b : Buffer) : Prop where
  wellFormed : b.WellFormed
  covers : Covers (· ∈ b.table) b []

theorem Covered.empty : Covered empty where
  wellFormed := .empty
  covers h hh := by simp [Buffer.empty] at hh

/-- **Where counts cover what holds a node, pins are safe.** -/
theorem Covered.keepsPinned (hc : b.Covered) (hpin : root ∈ b.pins) : b.KeepsPinned root := by
  have hcovers := hc.covers.dereference hc.wellFormed.pins_nodup hpin
  have hr := (remnant_dereference hc.wellFormed.linked root).1
  intro q hq hqpin h hqh
  induction hqh with
  | refl => exact hcovers.mem_of_mem_pins hq hqpin
  | @tail p h _ hph ih =>
    -- a node that is left still holds its children
    have hrefs : h ∈ (b.dereference root).refs p := hr.refs ih ▸ hph.1
    exact hcovers.mem_of_mem_refs hph.2 hrefs

theorem Covered.discards (hc : b.Covered) (hs : List Hash) (hsame : SameNodes (b.discards hs) b') : b'.Covered where
  wellFormed := hsame.wellFormed (hc.wellFormed.discards hs)
  covers := by
    have hsub : ∀ h, h ∈ b'.table → h ∉ hs ∧ h ∈ b.table := fun h hh => (mem_discards b hs h).1 (hsame.table ▸ hh)
    have hleft : Covers (fun h => h ∉ hs ∧ h ∈ b.table) (b.discards hs) [] :=
      (hc.covers.mono fun _ hh => hh.2).discards fun h hh hleft => hleft.1 hh
    exact (hsame.covers hleft).mono hsub

end Buffer

section Runs

variable {σ : Type} [KeyValueStore σ]

/-- A command that stages a hash only while nothing holds it, dereferences only
what is pinned, and lets no count wrap. -/
structure Heedful (db : Database (Faulty σ)) (c : Command) : Prop where
  staged : ∀ h size node, c.staging? = some (h, size, node) → h ∉ db.buffer.table →
    db.buffer.held h = 0 ∧ h ∉ node.kids
  dereferenced : ∀ root, c = .dereference root → root ∈ db.buffer.pins
  room : db.buffer.HasRoom (c.run db).buffer

theorem covered_run {db : Database (Faulty σ)} {c : Command} (ho : Heedful db c) (hc : db.buffer.Covered)
    (he : Buffer.Effect db.buffer c (c.run db).buffer) : (c.run db).buffer.Covered := by
  have hw := he.wellFormed hc.wellFormed
  have hroom := ho.room
  generalize (c.run db).buffer = b' at he hw hroom ⊢
  cases he with
  | same _ hsame => exact ⟨hw, (hsame.covers hc.covers).mono fun h hh => hsame.table ▸ hh⟩
  | @insert _ h size node hstaging _ hh =>
    obtain ⟨hnone, hself⟩ := ho.staged h size node hstaging hh
    have hcovers : Buffer.Covers (· ∈ (db.buffer.insert h size node).table) db.buffer [] := by
      intro k hk
      rcases (Buffer.mem_insert hh size node k).1 hk with rfl | hmem
      · rw [hnone]
        exact Nat.zero_le _
      · exact hc.covers k hmem
    refine ⟨hw, hcovers.insert hh hroom fun k hk hmem => ?_⟩
    rcases (Buffer.mem_insert hh size node k).1 hmem with rfl | hmem
    · exact absurd hk hself
    · exact hmem
  | @reference child parent _ =>
    exact ⟨hw, (hc.covers.reference hroom).mono fun k hk => (Buffer.mem_reference _ child parent k).1 hk⟩
  | @dereference root _ =>
    have hr := (Buffer.remnant_dereference hc.wellFormed.linked root).1
    have hcovers := hc.covers.dereference hc.wellFormed.pins_nodup (ho.dereferenced root rfl)
    exact ⟨hw, hcovers.mono fun k hk => hr.mem hk⟩
  | cap _ _ hsame => exact hc.discards _ hsame
  | commit _ _ hsame => exact hc.discards _ hsame

/-- Commands after which a pinned node may be gone: a dereference of it, and
those that store nodes. -/
def Command.MayRemove (h : Hash) : Command → Prop
  | .dereference root => root = h
  | .cap _ => True
  | .commit _ => True
  | _ => False

theorem pinned_run {db : Database (Faulty σ)} {c : Command} {h : Hash} (ho : Heedful db c) (hc : db.buffer.Covered)
    (hh : h ∈ db.buffer.table) (hpin : h ∈ db.buffer.pins) (hkeep : ¬ c.MayRemove h) :
    h ∈ (c.run db).buffer.table ∧ h ∈ (c.run db).buffer.pins := by
  have he := run_effect c db
  generalize (c.run db).buffer = b' at he ⊢
  cases he with
  | same _ hsame => exact ⟨hsame.table ▸ hh, hsame.pins ▸ hpin⟩
  | insert _ _ hnew =>
    rw [Buffer.mem_insert hnew, (Buffer.insert_frame ..).1]
    exact ⟨.inr hh, hpin⟩
  | reference _ =>
    rw [Buffer.mem_reference]
    exact ⟨hh, Buffer.pins_subset_reference _ _ _ hpin⟩
  | @dereference root _ =>
    have hpins := (Buffer.remnant_dereference hc.wellFormed.linked root).2.2.1
    have hpin' : h ∈ (db.buffer.dereference root).pins := by
      rw [hpins]
      exact (List.mem_erase_of_ne fun heq => hkeep heq.symm).2 hpin
    exact ⟨hc.keepsPinned (ho.dereferenced root rfl) h hh hpin' h .refl, hpin'⟩
  | cap => exact absurd trivial hkeep
  | commit => exact absurd trivial hkeep

end Runs

/-! ## Hashes that are staged again -/

namespace Buffer

variable {b : Buffer} {h p q : Hash} {size size' : Nat} {node : Node}

/-- A node that counts one parent goes with this parent, and lets go of its own children. -/
theorem release_pair (hp : b.parentsOf p = 1) (hrefs : b.refs p = [h]) (hh : b.parentsOf h = 1) (hne : p ≠ h) :
    ∃ e e', b.table[p]? = some e ∧ (b.remove p e).table[h]? = some e' ∧
      b.release [p] = ((b.remove p e).remove h e').release (b.refs h) := by
  obtain ⟨e, he, hone⟩ := exists_of_parentsOf_eq_one hp
  have hh' : (b.remove p e).parentsOf h = 1 := by rw [parentsOf_remove, if_neg hne, hh]
  have hrefs' : (b.remove p e).refs h = b.refs h := by rw [refs_remove, if_neg hne]
  obtain ⟨e', he', hone'⟩ := exists_of_parentsOf_eq_one hh'
  refine ⟨e, e', he, he', ?_⟩
  rw [refs_of_getElem? he] at hrefs
  rw [refs_of_getElem? he'] at hrefs'
  rw [release_cons he hone, hrefs, List.singleton_append, release_cons he' hone', List.append_nil, hrefs']

theorem not_mem_release (hl : b.Linked b.flushOrder) (hp : b.parentsOf p = 1) (hrefs : b.refs p = [h])
    (hh : b.parentsOf h = 1) (hne : p ≠ h) : h ∉ (b.release [p]).table := by
  obtain ⟨e, e', he, he', heq⟩ := release_pair hp hrefs hh hne
  have hl' := (flushOrder_remove (flushOrder_remove hl he).self he').self
  rw [heq]
  intro hmem
  exact ((mem_remove _ h e' h).1 ((remnant_release hl' _).1.mem hmem)).1 rfl

/-- A staged node that has counted nothing, although it is the pinned node `q` or
a child of it. -/
structure Uncounted (b : Buffer) (h q : Hash) : Prop where
  wellFormed : b.WellFormed
  mem : h ∈ b.table
  zero : b.parentsOf h = 0
  pinned : q ∈ b.pins
  pinned_mem : q ∈ b.table
  path : q = h ∨ h ∈ b.refs q

/-- What holds a hash: its pin, or a node that points to it. -/
theorem exists_holder (hheld : 0 < b.held h) : ∃ q, q = h ∧ h ∈ b.pins ∨ h ∈ b.refs q := by
  by_cases hpin : h ∈ b.pins
  · exact ⟨h, .inl ⟨rfl, hpin⟩⟩
  · by_contra hno
    have hzero : b.edgesTo h = 0 := edgesTo_eq_zero.2 fun q hq => hno ⟨q, .inr hq⟩
    simp [held, hzero, hpin] at hheld

/-- A hash that is staged while something holds it has counted nothing, also after
what holds it was pinned once more. -/
theorem uncounted_insert (hw : b.WellFormed) (hz : h ≠ Hash.zero) (hh : h ∉ b.table)
    (hq : q = h ∧ h ∈ b.pins ∨ h ∈ b.refs q) (size : Nat) (node : Node) :
    ((b.insert h size node).reference q Hash.zero).Uncounted h q := by
  have hw' := hw.insert hz size node
  have hmem := mem_insert hh size node
  have hpins : (b.insert h size node).pins = b.pins := (insert_frame b h size node).1
  have hqmem : q ∈ (b.insert h size node).table := (hmem q).2 (hq.imp (·.1) mem_of_mem_refs)
  refine ⟨hw'.reference q Hash.zero, (mem_reference ..).2 ((hmem h).2 (.inl rfl)), ?_, ?_,
    (mem_reference ..).2 hqmem, ?_⟩
  · -- the pin counts nothing at `h`: either it is there already, or `q` is another node
    rw [← parentsOf_insert_self hh size node]
    rcases hq with ⟨rfl, hpin⟩ | hrefs
    · rcases reference_cases (b.insert q size node) q Hash.zero with heq | ⟨-, -, -, hnot, -⟩ | ⟨hne, -⟩
      · rw [heq]
      · exact absurd (hpins ▸ hpin) hnot
      · exact absurd rfl hne
    · exact parentsOf_reference_of_ne fun heq => hh (heq ▸ mem_of_mem_refs hrefs)
  · exact mem_pins_reference_zero (fun heq => hw'.zero_not_mem (heq ▸ hqmem)) hqmem
  · rw [refs_reference_zero]
    rcases hq with ⟨heq, -⟩ | hrefs
    · exact .inl heq
    · have hne : h ≠ q := fun heq => hh (heq ▸ mem_of_mem_refs hrefs)
      rw [refs_insert hh, if_neg hne]
      exact .inr hrefs

/-- A node that leads to `h` alone, as it is staged and pinned. -/
def top (b : Buffer) (p h : Hash) (size : Nat) : Buffer :=
  (b.insert p size (.trie (.extension [] h))).reference p Hash.zero

theorem top_eq (hpz : p ≠ Hash.zero) (hp : p ∉ b.table) (h : Hash) (size : Nat) :
    b.top p h size = (b.insert p size (.trie (.extension [] h))).pin p := by
  have hmem : p ∈ (b.insert p size (.trie (.extension [] h))).table := (mem_insert hp ..).2 (.inl rfl)
  simp [top, reference, hpz, hmem, Hash.isZero]

theorem kids_extension (hz : h ≠ Hash.zero) : (Node.trie (.extension [] h)).kids = [h] := by
  simp [Node.kids, Node.childHashes, TrieNode.childHashes, TrieNode.extension, Slot.target?, Hash.isZero, hz]

theorem parentsOf_top (hu : b.Uncounted h q) (hpz : p ≠ Hash.zero) (hp : p ∉ b.table) (hpp : p ∉ b.pins)
    (size : Nat) :
    (b.top p h size).parentsOf p = 1 ∧ (b.top p h size).parentsOf h = 1 := by
  have hz : h ≠ Hash.zero := fun heq => hu.wellFormed.zero_not_mem (heq ▸ hu.mem)
  have hph : p ≠ h := fun heq => hp (heq ▸ hu.mem)
  have hpmem : p ∈ (b.insert p size (.trie (.extension [] h))).table := (mem_insert hp ..).2 (.inl rfl)
  have hpp' : p ∉ (b.insert p size (.trie (.extension [] h))).pins := by rwa [(insert_frame ..).1]
  have hzero : (b.insert p size (.trie (.extension [] h))).parentsOf p = 0 := parentsOf_insert_self hp ..
  have hone : (b.insert p size (.trie (.extension [] h))).parentsOf h = 1 := by
    rw [parentsOf_insert hp hu.mem (by rw [hu.zero, kids_extension hz]; simp), hu.zero, kids_extension hz]
    simp
  have hparents := parentsOf_pin hpp' hpmem (by omega)
  rw [top_eq hpz hp, hparents, hparents, if_pos rfl, if_neg hph, hzero, hone]
  exact ⟨rfl, rfl⟩

theorem refs_top (hp : p ∉ b.table) (h : Hash) (size : Nat) (k : Hash) :
    (b.top p h size).refs k = if p = k then (Node.trie (.extension [] h)).kids else b.refs k := by
  rw [top, refs_reference_zero, refs_insert hp]

theorem mem_top (hp : p ∉ b.table) (h : Hash) (size : Nat) (k : Hash) :
    k ∈ (b.top p h size).table ↔ k = p ∨ k ∈ b.table := by
  rw [top, mem_reference, mem_insert hp]

theorem pins_top (hpz : p ≠ Hash.zero) (hp : p ∉ b.table) (hpp : p ∉ b.pins) (h : Hash) (size : Nat) :
    (b.top p h size).pins = b.pins ++ [p] := by
  rw [top_eq hpz hp, pins_pin (by rwa [(insert_frame ..).1]), (insert_frame ..).1]

/-- **A node that has counted nothing is collected too early**: it goes with the
first new parent, although the other pin still holds it. -/
theorem Uncounted.not_keepsPinned (hu : b.Uncounted h q) (hpz : p ≠ Hash.zero) (hp : p ∉ b.table) (hpp : p ∉ b.pins)
    (size : Nat) : ¬ (b.top p h size).KeepsPinned p := by
  have hz : h ≠ Hash.zero := fun heq => hu.wellFormed.zero_not_mem (heq ▸ hu.mem)
  have hph : p ≠ h := fun heq => hp (heq ▸ hu.mem)
  have hqp : q ≠ p := fun heq => hp (heq ▸ hu.pinned_mem)
  have hw : (b.top p h size).WellFormed := (hu.wellFormed.insert hpz size _).reference p Hash.zero
  have hpins := pins_top hpz hp hpp h size
  obtain ⟨hone, hone'⟩ := parentsOf_top hu hpz hp hpp size
  intro hkeeps
  have hpinned : q ∈ ((b.top p h size).dereference p).pins := by
    rw [(remnant_dereference hw.linked p).2.2.1, List.mem_erase_of_ne hqp, hpins]
    exact List.mem_append_left _ hu.pinned
  have hpath : Relation.ReflTransGen (b.top p h size).Points q h := by
    rcases hu.path with rfl | hrefs
    · exact .refl
    · refine .single ⟨?_, (mem_top hp h size h).2 (.inr hu.mem)⟩
      rwa [refs_top hp, if_neg hqp.symm]
  have hgone : h ∉ ((b.top p h size).unpin p).table := by
    rw [unpin, if_pos (by rw [hpins]; simp)]
    have hl : ({ b.top p h size with
        pins := (b.top p h size).pins.erase p
        edgesSize := (b.top p h size).edgesSize - ByteSize.ofNat Staged.edgeSize } : Buffer).Linked
          (b.top p h size).flushOrder :=
      hw.linked.congr (fun _ => Iff.rfl) (fun _ e he => ⟨e, he, rfl, rfl⟩) rfl rfl
    have hrefs : (b.top p h size).refs p = [h] := by rw [refs_top hp, if_pos rfl, kids_extension hz]
    exact not_mem_release hl.self hone hrefs hone' hph
  exact hgone (hkeeps q ((mem_top hp h size q).2 (.inr hu.pinned_mem)) hpinned h hpath)

end Buffer

/-! ## The pins of a run -/

section Runs

variable {σ : Type} [KeyValueStore σ]

/-- A run that stages `h`, pins `q`, and then stages and pins a new parent `p` of `h`. -/
def restaging (h p q : Hash) (blob blob' : Bytes) (node : Node) : List (Option Nat × Command) :=
  [(none, .insert h blob node), (none, .reference q Hash.zero), (none, .insert p blob' (.trie (.extension [] h))),
    (none, .reference p Hash.zero)]

theorem buffer_restaging {db : Database (Faulty σ)} {h p q : Hash} (hz : h ≠ Hash.zero) (hpz : p ≠ Hash.zero)
    (hqz : q ≠ Hash.zero) (blob blob' : Bytes) (node : Node) :
    (db.runAll (restaging h p q blob blob' node)).buffer =
      ((db.buffer.insert h blob.length node).reference q Hash.zero).top p h blob'.length := by
  simp [restaging, Database.runAll, Command.run, Database.insert, Database.reference, Database.allowing,
    Hash.isZero, hz, hpz, hqz, Buffer.top]

/-- **Pins are safe exactly when no hash is staged while something holds it.** In a
run of heedful commands, a dereference keeps every staged node that is still
pinned or can be reached from one, and a pinned node stays until it is
dereferenced or stored. But from any state in which something holds a hash that
is not staged, staging it leads to a dereference that collects it under a pin. -/
theorem dereference_keeps_pinned (disk : σ) (config : Config) (hv : config.Valid) :
    (∀ db, Reachable Heedful (.ofValid (.reliable disk) config hv) db →
      (∀ root ∈ db.buffer.pins, db.buffer.KeepsPinned root) ∧
      ∀ c h, Heedful db c → h ∈ db.buffer.table → h ∈ db.buffer.pins → ¬ c.MayRemove h →
        h ∈ (c.run db).buffer.table ∧ h ∈ (c.run db).buffer.pins) ∧
    ∀ (db : Database (Faulty σ)) h, db.buffer.WellFormed → h ≠ Hash.zero → h ∉ db.buffer.table →
      0 < db.buffer.held h →
      ∃ q, ∀ p, p ≠ Hash.zero → p ≠ h → p ∉ db.buffer.table → p ∉ db.buffer.pins → ∀ blob blob' node,
        p ∈ (db.runAll (restaging h p q blob blob' node)).buffer.pins ∧
          ¬ (db.runAll (restaging h p q blob blob' node)).buffer.KeepsPinned p := by
  refine ⟨fun db hr => ?_, fun db h hw hz hh hheld => ?_⟩
  · have hc : db.buffer.Covered := hr.buffer .empty fun db c ho hc he => covered_run ho hc he
    exact ⟨fun root hpin => hc.keepsPinned hpin, fun c h ho hh hpin hkeep => pinned_run ho hc hh hpin hkeep⟩
  · obtain ⟨q, hq⟩ := Buffer.exists_holder hheld
    refine ⟨q, fun p hpz hph hp hpp blob blob' node => ?_⟩
    have hqmem : q = h ∨ q ∈ db.buffer.table := hq.imp (·.1) Buffer.mem_of_mem_refs
    have hqz : q ≠ Hash.zero := by
      rintro rfl
      exact hqmem.elim (fun heq => hz heq.symm) hw.zero_not_mem
    have hqp : q ≠ p := by
      rintro rfl
      exact hqmem.elim hph hp
    have hu := Buffer.uncounted_insert hw hz hh hq blob.length node
    have hp' : p ∉ ((db.buffer.insert h blob.length node).reference q Hash.zero).table := by
      rw [Buffer.mem_reference, Buffer.mem_insert hh]
      exact fun hor => hor.elim hph hp
    have hpp' : p ∉ ((db.buffer.insert h blob.length node).reference q Hash.zero).pins := by
      rcases Buffer.pins_reference (db.buffer.insert h blob.length node) q Hash.zero with heq | ⟨-, -, -, heq⟩
      · rwa [heq, (Buffer.insert_frame ..).1]
      · rw [heq, (Buffer.insert_frame ..).1]
        simp [hpp, hqp.symm]
    rw [buffer_restaging hz hpz hqz, Buffer.pins_top hpz hp' hpp']
    exact ⟨List.mem_append_right _ (List.mem_singleton_self p), hu.not_keepsPinned hpz hp' hpp' _⟩

end Runs

/-- Two roots over one leaf, both pinned. -/
def sharedLeaf : List (Option Nat × Command) :=
  [(none, .insertBlob (.filled 1) [7]), (none, .insert (.filled 2) [8] (.trie (.extension [] (.filled 1)))),
    (none, .insert (.filled 3) [9] (.trie (.extension [] (.filled 1)))), (none, .reference (.filled 2) Hash.zero),
    (none, .reference (.filled 3) Hash.zero)]

/-- A blob that is pinned and stored. -/
def storedRoot : List (Option Nat × Command) :=
  [(none, .insertBlob (.filled 1) [7]), (none, .reference (.filled 1) Hash.zero), (none, .cap ByteSize.zero)]

/-- Both halves at work: over a shared leaf the dereference of one root keeps the
other, and a stored root whose pin is left is lost when it is staged again. -/
theorem dereference_keeps_pinned_sample :
    ((Database.new (.reliable MemoryStore.empty)).runAll sharedLeaf).buffer.KeepsPinned (.filled 2) ∧
      ∃ q, ¬ (((Database.new (.reliable MemoryStore.empty)).runAll storedRoot).runAll
        (restaging (.filled 1) (.filled 2) q [7] [8] (.raw [7]))).buffer.KeepsPinned (.filled 2) := by
  have hpins := dereference_keeps_pinned MemoryStore.empty Config.standard Config.valid_standard
  have hheedful : AllAllowed Heedful (Database.new (.reliable MemoryStore.empty)) sharedLeaf := by
    refine ⟨⟨?_, nofun, by decide +kernel⟩, ⟨?_, nofun, by decide +kernel⟩, ⟨?_, nofun, by decide +kernel⟩,
      ⟨nofun, nofun, by decide +kernel⟩, ⟨nofun, nofun, by decide +kernel⟩, trivial⟩
    all_goals
      rintro _ _ _ ⟨⟩ _
      decide +kernel
  have hreach := Reachable.start.runAll hheedful
  have hany : AllAllowed (fun _ _ => True) (Database.new (.reliable MemoryStore.empty)) storedRoot :=
    ⟨trivial, trivial, trivial, trivial⟩
  have hw := (Reachable.start.runAll hany).wellFormed .empty
  obtain ⟨q, hq⟩ := hpins.2 _ (.filled 1) hw (by decide) (by decide +kernel) (by decide +kernel)
  exact ⟨(hpins.1 _ hreach).1 _ (by decide +kernel), q,
    (hq (.filled 2) (by decide) (by decide) (by decide +kernel) (by decide +kernel) [7] [8] (.raw [7])).2⟩

/-- The stored root is staged and pinned again, and a parent of it is staged and
pinned: dereferencing the parent collects the root, which is still pinned. -/
theorem dereference_collects_pinned :
    let db := (Database.new (.reliable MemoryStore.empty)).runAll
      (storedRoot ++ restaging (.filled 1) (.filled 2) (.filled 1) [7] [8] (.raw [7]))
    let after := (Command.dereference (.filled 2)).run db
    db.contains (.filled 1) = true ∧ .filled 2 ∈ db.buffer.pins ∧ .filled 1 ∈ after.buffer.pins ∧
      after.contains (.filled 1) = false := by
  refine ⟨?_, ?_, ?_, ?_⟩
  · decide +kernel
  · decide +kernel
  · exact List.contains_iff_mem.1 (by cbv)
  · cbv

end MerkleBuffer
