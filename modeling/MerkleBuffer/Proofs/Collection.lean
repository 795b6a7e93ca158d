/-
What can still be collected when all pins are gone.

As long as no cap evicts a node before a node that it points to, no count exceeds
what holds its node, and everything hangs below nodes that count no parent. A cap
that does so leaves an edge in the count of the child, which no pin and no
dereference takes away: let go of everything, and the child is still there.
-/
import Mathlib
import MerkleBuffer.Proofs.Buffer.Excess
import MerkleBuffer.Proofs.Buffer.Walk
import MerkleBuffer.Proofs.Database.Runs
import MerkleBuffer.Store.Memory

namespace MerkleBuffer

section Runs

variable {σ : Type} [KeyValueStore σ]

/-- A command that evicts no node before a node that it points to: a cap evicts the
two together or the child first, and a commit has no cycles to walk. -/
structure Tidy (db : Database (Faulty σ)) (c : Command) : Prop where
  capped : ∀ limit, c = .cap limit → ∀ p h, db.buffer.Points p h → p ∉ (c.run db).buffer.table →
    h ∉ (c.run db).buffer.table
  committed : ∀ root, c = .commit root → db.buffer.Acyclic

/-- **A tidy command leaves no excess.** -/
theorem noExcess_run {db : Database (Faulty σ)} {c : Command} (ht : Tidy db c) (hw : db.buffer.WellFormed)
    (hx : Buffer.NoExcess db.buffer []) (he : Buffer.Effect db.buffer c (c.run db).buffer) :
    Buffer.NoExcess (c.run db).buffer [] := by
  have hcapped := ht.capped
  generalize (c.run db).buffer = b' at he hcapped ⊢
  cases he with
  | same _ hsame => exact hsame.noExcess hx
  | insert _ _ hh => exact hx.insert hh
  | reference _ => exact hx.reference _ _
  | dereference _ => exact hx.dereference hw.pins_nodup _
  | @cap limit hs _ _ _ hsame =>
    have hleft : ∀ k, k ∈ b'.table ↔ k ∉ hs ∧ k ∈ db.buffer.table := by
      intro k
      rw [hsame.table]
      exact Buffer.mem_discards _ _ _
    refine hsame.noExcess (hx.discards fun p hp h hph => ?_)
    have hgone := hcapped limit rfl p h hph fun hmem => ((hleft p).1 hmem).1 hp
    by_contra hno
    exact hgone ((hleft h).2 ⟨hno, hph.2⟩)
  | @commit root hs _ hfirst _ hsame =>
    have hall := (Buffer.subtree_spec hw (ht.committed root rfl) root).2.1
    obtain ⟨rest, hrest⟩ := hfirst
    rw [← hrest] at hall
    exact hsame.noExcess (hx.discards fun p hp h hph => (ChildrenFirst.append.1 hall).1.closed hp hph)

/-! ## Letting go of everything -/

theorem Reachable.trans {allowed : Database (Faulty σ) → Command → Prop} {start mid db : Database (Faulty σ)}
    (h₁ : Reachable allowed start mid) (h₂ : Reachable allowed mid db) : Reachable allowed start db := by
  induction h₂ with
  | start => exact h₁
  | step _ writes c hc ih => exact ih.step writes c hc

/-- A pin, or a dereference of what is pinned. -/
def Releasing (db : Database (Faulty σ)) (c : Command) : Prop :=
  (∃ h, c = .reference h Hash.zero) ∨ ∃ h ∈ db.buffer.pins, c = .dereference h

variable {db : Database (Faulty σ)} {h c : Hash}

theorem Reachable.dereferenced (hw : db.buffer.WellFormed) (hh : h ∈ db.buffer.pins) :
    ∃ after, Reachable Releasing db after ∧ after.buffer = db.buffer.dereference h := by
  have hz : h ≠ Hash.zero := fun heq => hw.zero_not_pinned (heq ▸ hh)
  refine ⟨_, Reachable.start.step none (.dereference h) (.inr ⟨h, hh, rfl⟩), ?_⟩
  simp [Command.run, Database.dereference, Database.allowing, Hash.isZero, hz]

theorem Reachable.pinned (hw : db.buffer.WellFormed) (hh : h ∈ db.buffer.table) :
    ∃ after, Reachable Releasing db after ∧ after.buffer = db.buffer.reference h Hash.zero := by
  have hz : h ≠ Hash.zero := fun heq => hw.zero_not_mem (heq ▸ hh)
  refine ⟨_, Reachable.start.step none (.reference h Hash.zero) (.inl ⟨h, rfl⟩), ?_⟩
  simp [Command.run, Database.reference, Database.allowing, Hash.isZero, hz]

/-- What is left to be let go of: the staged nodes and the pins. -/
def Buffer.load (b : Buffer) : Nat := b.staged.card + b.pins.length

/-- A state on the way to one without pins, with no edge that was not there and with
the excess of `c`. -/
structure Drained (c : Hash) (db after : Database (Faulty σ)) : Prop where
  reached : Reachable Releasing db after
  excess : after.buffer.Excess c
  wellFormed : after.buffer.WellFormed
  points : ∀ p k, after.buffer.Points p k → db.buffer.Points p k

theorem Drained.trans {mid after : Database (Faulty σ)} (h₁ : Drained c db mid) (h₂ : Drained c mid after) :
    Drained c db after :=
  ⟨h₁.reached.trans h₂.reached, h₂.excess, h₂.wellFormed, fun p k hpk => h₁.points p k (h₂.points p k hpk)⟩

/-- A dereference takes away a pin and adds no node. -/
theorem Buffer.Excess.unpin (hx : db.buffer.Excess c) (hw : db.buffer.WellFormed) (hh : h ∈ db.buffer.pins) :
    ∃ after, Drained c db after ∧ after.buffer.load < db.buffer.load := by
  obtain ⟨after, hreach, hafter⟩ := Reachable.dereferenced hw hh
  obtain ⟨hr, -, hpins, -⟩ := Buffer.remnant_dereference hw.linked h
  have hcard : (db.buffer.dereference h).staged.card ≤ db.buffer.staged.card :=
    Finset.card_le_card fun k hk => Buffer.mem_staged.2 (hr.mem (Buffer.mem_staged.1 hk))
  have hlength := List.length_erase_of_mem hh
  have hpos := List.length_pos_of_mem hh
  refine ⟨after, ⟨hreach, ?_, ?_, ?_⟩, ?_⟩ <;> rw [hafter]
  · exact hx.dereference hw.pins_nodup hh
  · exact hw.dereference h
  · exact fun p k => hr.points
  · rw [Buffer.load, Buffer.load, hpins]
    omega

theorem Buffer.Excess.collect (hx : db.buffer.Excess c) (hw : db.buffer.WellFormed) (hpins : db.buffer.pins = [])
    (hh : h ∈ db.buffer.table) (hzero : db.buffer.parentsOf h = 0) :
    ∃ after, Drained c db after ∧ after.buffer.load < db.buffer.load := by
  have hne : c ≠ h := by
    intro heq
    exact hx.mem.2 (heq ▸ hzero)
  have hz : h ≠ Hash.zero := fun heq => hw.zero_not_mem (heq ▸ hh)
  obtain ⟨mid, hreach, hmid⟩ := Reachable.pinned hw hh
  have hw' : mid.buffer.WellFormed := hmid ▸ hw.reference h Hash.zero
  have hpinned : h ∈ mid.buffer.pins := hmid ▸ Buffer.mem_pins_reference_zero hz hh
  obtain ⟨after, hreach', hafter⟩ := Reachable.dereferenced hw' hpinned
  obtain ⟨hr, -, herase, -⟩ := Buffer.remnant_dereference hw'.linked h
  have hmem : ∀ k, k ∈ mid.buffer.table ↔ k ∈ db.buffer.table := by
    intro k
    rw [hmid]
    exact Buffer.mem_reference _ _ _ _
  have hgone : h ∉ (mid.buffer.dereference h).table := by
    rw [hmid]
    exact Buffer.not_mem_dereference hw hh hpins hzero
  have hnopins : (mid.buffer.dereference h).pins = [] := by
    rw [herase, hmid]
    rcases Buffer.pins_reference db.buffer h Hash.zero with heq | ⟨-, -, -, heq⟩ <;> rw [heq, hpins] <;> simp
  have hcard : (mid.buffer.dereference h).staged.card < db.buffer.staged.card := by
    refine Finset.card_lt_card (Finset.ssubset_iff_subset_ne.2 ⟨fun k hk => ?_, fun heq => ?_⟩)
    · exact Buffer.mem_staged.2 ((hmem k).1 (hr.mem (Buffer.mem_staged.1 hk)))
    · exact hgone (Buffer.mem_staged.1 (heq ▸ Buffer.mem_staged.2 hh))
  refine ⟨after, ⟨hreach.trans hreach', ?_, ?_, ?_⟩, ?_⟩ <;> rw [hafter]
  · refine Buffer.Excess.dereference ?_ hw'.pins_nodup hpinned
    rw [hmid]
    exact hx.reference hne Hash.zero
  · exact hw'.dereference h
  · intro p k hpk
    obtain ⟨hrefs, hstaged⟩ := hr.points hpk
    rw [hmid, Buffer.refs_reference_zero] at hrefs
    exact ⟨hrefs, (hmem k).1 hstaged⟩
  · rw [Buffer.load, Buffer.load, hnopins, hpins]
    simpa using hcard

/-- **Excess outlives all pins.** Dereference every pin, and collect every node that
counts no parent: a node with excess is left, and no node counts zero. -/
theorem Buffer.Excess.outlives (hx : db.buffer.Excess c) (hw : db.buffer.WellFormed) :
    ∃ after, Drained c db after ∧ after.buffer.pins = [] ∧ ¬ after.buffer.Collectable := by
  induction hn : db.buffer.load using Nat.strong_induction_on generalizing db with
  | _ n ih =>
    have hround : (∃ mid, Drained c db mid ∧ mid.buffer.load < db.buffer.load) →
        ∃ after, Drained c db after ∧ after.buffer.pins = [] ∧ ¬ after.buffer.Collectable := by
      intro hmid
      obtain ⟨mid, hd, hlt⟩ := hmid
      obtain ⟨after, hd', hend⟩ := ih _ (hn ▸ hlt) hd.excess hd.wellFormed rfl
      exact ⟨after, hd.trans hd', hend⟩
    by_cases hpin : ∃ root, root ∈ db.buffer.pins
    · obtain ⟨root, hroot⟩ := hpin
      exact hround (hx.unpin hw hroot)
    have hpins : db.buffer.pins = [] := List.eq_nil_iff_forall_not_mem.2 fun root hroot => hpin ⟨root, hroot⟩
    by_cases hzero : ∃ z ∈ db.buffer.table, db.buffer.parentsOf z = 0
    · obtain ⟨z, hz, hcount⟩ := hzero
      exact hround (hx.collect hw hpins hz hcount)
    · have hpos : ∀ k ∈ db.buffer.table, db.buffer.parentsOf k ≠ 0 := fun k hk hcount => hzero ⟨k, hk, hcount⟩
      exact ⟨db, ⟨.start, hx, hw, fun _ _ hpk => hpk⟩, hpins, Buffer.not_collectable hx.mem.1 hpos⟩

/-- **Everything can be collected exactly as long as no cap evicts a node before a
node that it points to.** In a run of tidy commands, in every state without pins
and cycles, each node counts no parent or can be reached from one that does. But
after a cap that evicts a node and keeps a child of it, which has counted all that
holds it, pins and dereferences alone lead to a state without pins where this is
not so. -/
theorem collectable_without_pins (disk : σ) (config : Config) (hv : config.Valid) :
    (∀ db, Reachable Tidy (.ofValid (.reliable disk) config hv) db → db.buffer.pins = [] → db.buffer.Acyclic →
      db.buffer.Collectable) ∧
    ∀ (db : Database (Faulty σ)) limit p c, db.buffer.WellFormed → db.buffer.Points p c →
      db.buffer.held c ≤ db.buffer.parentsOf c → p ∉ ((Command.cap limit).run db).buffer.table →
      c ∈ ((Command.cap limit).run db).buffer.table →
      ∃ after, Reachable Releasing ((Command.cap limit).run db) after ∧ after.buffer.pins = [] ∧
        ¬ after.buffer.Collectable ∧ ∀ p k, after.buffer.Points p k → db.buffer.Points p k := by
  refine ⟨fun db hr hpins hacyc => ?_, fun db limit p c hw hpc hcovers hp hc => ?_⟩
  · have hempty : Buffer.NoExcess Buffer.empty [] := fun h => by simp [Buffer.parentsOf, Buffer.nodeAt?, Buffer.empty]
    have hx : db.buffer.WellFormed ∧ Buffer.NoExcess db.buffer [] :=
      hr.buffer (I := fun b => b.WellFormed ∧ Buffer.NoExcess b []) ⟨.empty, hempty⟩
        fun db c ht hx he => ⟨he.wellFormed hx.1, noExcess_run ht hx.1 hx.2 he⟩
    exact hx.2.collectable hpins hacyc
  · have he := run_effect (.cap limit) db
    generalize (Command.cap limit).run db = after at he hp hc ⊢
    generalize hb : after.buffer = b' at he hp hc
    cases he with
    | same _ hsame => exact absurd (hsame.table ▸ hpc.mem) hp
    | insert hc' _ _ => cases hc'
    | @cap _ hs _ _ _ hsame =>
      have hleft : ∀ k, k ∈ b'.table ↔ k ∉ hs ∧ k ∈ db.buffer.table := by
        intro k
        rw [hsame.table]
        exact Buffer.mem_discards _ _ _
      have hpgone : p ∈ hs := by
        by_contra hno
        exact hp ((hleft p).2 ⟨hno, hpc.mem⟩)
      have hx : after.buffer.Excess c := by
        have hex := Buffer.Excess.discards hpgone hpc ((hleft c).1 hc).1 hcovers
        rw [hb, Buffer.Excess, hsame.held, hsame.parentsOf]
        exact hex
      have hw' : after.buffer.WellFormed := hb ▸ hsame.wellFormed (hw.discards hs)
      obtain ⟨last, hdrained, hpins, hcoll⟩ := hx.outlives hw'
      refine ⟨last, hdrained.reached, hpins, hcoll, fun q k hqk => ?_⟩
      have hpoints := hdrained.points q k hqk
      rw [hb, Buffer.Points, hsame.refs, hsame.table] at hpoints
      exact (Buffer.Remnant.discards hw.linked hs).1.points hpoints

end Runs

/-- Two blobs. -/
def twoBlobs : List (Option Nat × Command) := [(none, .insertBlob (.filled 1) [7]), (none, .insertBlob (.filled 2) [8])]

/-- Two blobs, the older one with a reference to the newer one. -/
def olderParent : List (Option Nat × Command) := twoBlobs ++ [(none, .reference (.filled 2) (.filled 1))]

/-- Then a cap evicts the older one alone. -/
def evictedParent : List (Option Nat × Command) := olderParent ++ [(none, .cap (ByteSize.ofNat 300))]

/-- Before the cap both blobs can be collected. The cap evicts the parent, and then
pins and dereferences cannot get rid of the child. -/
theorem collectable_without_pins_olderParent :
    let db := (Database.new (.reliable MemoryStore.empty)).runAll olderParent
    db.buffer.Collectable ∧
      ∃ after, Reachable Releasing ((Command.cap (ByteSize.ofNat 300)).run db) after ∧ after.buffer.pins = [] ∧
        ¬ after.buffer.Collectable := by
  intro db
  obtain ⟨htidy, huntidy⟩ := collectable_without_pins MemoryStore.empty Config.standard Config.valid_standard
  have hall : AllAllowed Tidy (Database.new (.reliable MemoryStore.empty)) olderParent := by
    refine ⟨⟨?_, ?_⟩, ⟨?_, ?_⟩, ⟨?_, ?_⟩, trivial⟩ <;> intro _ hc <;> cases hc
  have hreach := Reachable.start.runAll hall
  have hedges : ∀ p c, db.buffer.Points p c → p = .filled 1 ∧ c = .filled 2 := fun p c hpc =>
    (by decide +kernel : ∀ p ∈ db.buffer.staged, ∀ c ∈ db.buffer.refs p, p = .filled 1 ∧ c = .filled 2)
      p (Buffer.mem_staged.2 hpc.mem) c hpc.1
  have hacyc : db.buffer.Acyclic := by
    intro h hpath
    obtain ⟨c, hhc, -⟩ := Relation.TransGen.head'_iff.1 hpath
    obtain ⟨p, -, hph⟩ := Relation.TransGen.tail'_iff.1 hpath
    have heq := (hedges h c hhc).1.symm.trans (hedges p h hph).2
    exact absurd heq (by decide)
  have hpoints : db.buffer.Points (.filled 1) (.filled 2) := ⟨by decide +kernel, by decide +kernel⟩
  obtain ⟨after, hafter, hpins, hcoll, -⟩ := huntidy db (ByteSize.ofNat 300) _ _ (hreach.wellFormed .empty) hpoints
    (by decide +kernel) (by decide +kernel) (by decide +kernel)
  exact ⟨htidy db hreach (by decide +kernel) hacyc, after, hafter, hpins, hcoll⟩

/-- The cap evicts the parent alone. The child still counts it: nothing is pinned,
and the child can neither be collected nor reached from anything that can. -/
theorem cap_leaves_uncollectable :
    let db := (Database.new (.reliable MemoryStore.empty)).runAll evictedParent
    db.buffer.pins = [] ∧ db.flushOrder = [.filled 2] ∧ db.parentCount (.filled 2) = some 1 ∧
      ¬ db.buffer.Collectable := by
  intro db
  have hpos : ∀ h ∈ db.buffer.staged, db.buffer.parentsOf h ≠ 0 := by decide +kernel
  exact ⟨by decide +kernel, by decide +kernel, by decide +kernel,
    Buffer.not_collectable (c := .filled 2) (by decide +kernel) fun h hh => hpos h (Buffer.mem_staged.2 hh)⟩

end MerkleBuffer
