/-
Counts that are too high, and what they keep from being collected.

A dereference takes away what the counts allow. Where no count exceeds what holds
its node (`NoExcess`), and there are neither pins nor cycles, the way up from any
node ends at one that counts no parent: everything can be collected
(`NoExcess.collectable`). A node that has counted more than holds it keeps the
excess through all pins and dereferences (`Excess`), so nothing collects it.
-/
import MerkleBuffer.Proofs.Buffer.Discards
import Mathlib.Data.Fintype.EquivFin
import Mathlib.Order.WellFounded

namespace MerkleBuffer.Buffer

open Relation (ReflTransGen TransGen)

variable {b b' : Buffer} {h k c p : Hash} {e : Staged} {rest hs : List Hash}

/-- Every staged node has a count of zero, or can be reached from one that has: it
goes when these go. -/
def Collectable (b : Buffer) : Prop :=
  ∀ h ∈ b.table, ∃ z ∈ b.table, b.parentsOf z = 0 ∧ ReflTransGen b.Points z h

/-- No node has counted more than what holds it and is pending. -/
def NoExcess (b : Buffer) (pending : List Hash) : Prop :=
  ∀ h, b.parentsOf h ≤ b.held h + pending.count h

/-- A node has counted more than what holds it. -/
def Excess (b : Buffer) (c : Hash) : Prop := b.held c < b.parentsOf c

/-! ## Ways up -/

/-- In a finite graph without cycles, every way up ends. -/
theorem Acyclic.wellFounded (hacyc : b.Acyclic) :
    WellFounded fun p c : { x // x ∈ b.staged } => TransGen b.Points p.1 c.1 := by
  have htrans : IsTrans { x // x ∈ b.staged } fun p c => TransGen b.Points p.1 c.1 :=
    ⟨fun _ _ _ hpq hqc => hpq.trans hqc⟩
  have hirrefl : Std.Irrefl fun p c : { x // x ∈ b.staged } => TransGen b.Points p.1 c.1 := ⟨fun p => hacyc p.1⟩
  exact Finite.wellFounded_of_trans_of_irrefl _

/-- A node that counts a parent which is no pin has one. -/
theorem NoExcess.exists_parent (hx : NoExcess b []) (hpins : b.pins = []) (hh : h ∈ b.table)
    (hpos : b.parentsOf h ≠ 0) : ∃ p, b.Points p h := by
  have hle := hx h
  simp only [held, hpins, List.not_mem_nil, if_false, List.count_nil, Nat.add_zero] at hle
  by_contra hno
  have hzero : b.edgesTo h = 0 := edgesTo_eq_zero.2 fun p hp => hno ⟨p, hp, hh⟩
  omega

/-- **Without excess, pins and cycles, everything can be collected.** -/
theorem NoExcess.collectable (hx : NoExcess b []) (hpins : b.pins = []) (hacyc : b.Acyclic) : b.Collectable := by
  have hall : ∀ x : { x // x ∈ b.staged }, ∃ z ∈ b.table, b.parentsOf z = 0 ∧ ReflTransGen b.Points z x.1 := by
    intro x
    induction x using hacyc.wellFounded.induction with
    | _ x ih =>
      have hmem : x.1 ∈ b.table := mem_staged.1 x.2
      by_cases hzero : b.parentsOf x.1 = 0
      · exact ⟨x.1, hmem, hzero, .refl⟩
      · obtain ⟨p, hp⟩ := hx.exists_parent hpins hmem hzero
        obtain ⟨z, hz, hcount, hpath⟩ := ih ⟨p, mem_staged.2 hp.mem⟩ (.single hp)
        exact ⟨z, hz, hcount, hpath.tail hp⟩
  exact fun h hh => hall ⟨h, mem_staged.2 hh⟩

/-! ## Releases -/

theorem SameNodes.noExcess (hs : SameNodes b b') (hx : NoExcess b rest) : NoExcess b' rest := by
  intro h
  rw [hs.held, hs.parentsOf]
  exact hx h

theorem NoExcess.leave (hx : NoExcess b (h :: rest)) (he : b.table[h]? = some e) :
    NoExcess (b.remove h e) (e.references ++ rest) := by
  intro k
  have hle := hx k
  have hheld := held_remove b h e k
  rw [refs_of_getElem? he] at hheld
  rw [parentsOf_remove, List.count_append]
  by_cases hk : h = k
  · simp [hk]
  · rw [List.count_cons_of_ne hk] at hle
    rw [if_neg hk]
    omega

theorem NoExcess.lower (hx : NoExcess b (h :: rest)) (he : b.table[h]? = some e) (hpos : e.parents ≠ 0) :
    NoExcess { b with table := b.table.modify h Staged.loseParent } rest := by
  intro k
  have hle := hx k
  have hparents := parentsOf_lower he hpos k
  rw [List.count_cons] at hle
  rw [held_lower]
  simp only [beq_iff_eq] at hle
  omega

theorem NoExcess.release {pending : List Hash} (hx : NoExcess b pending) : NoExcess (b.release pending) [] := by
  refine release_induct (I := NoExcess) (fun b h rest hh hI k => ?_) (fun b h e rest he _ hI => ?_)
    (fun b h e rest he _ hI => hI.leave he) (fun b h e rest he hzero _ hI => hI.lower he hzero) b pending hx
  · by_cases hk : h = k
    · subst hk
      rw [parentsOf_of_not_mem hh]
      exact Nat.zero_le _
    · have hle := hI k
      rwa [List.count_cons_of_ne hk] at hle
  · exact NoExcess.leave (b := b.countClamped) hI he

theorem NoExcess.dereference (hx : NoExcess b []) (hnodup : b.pins.Nodup) (root : Hash) :
    NoExcess (b.dereference root) [] := by
  have hunpin : NoExcess (b.unpin root) [] := by
    unfold unpin
    split
    · next hpin =>
      refine NoExcess.release fun k => ?_
      rw [held_erase_pin hnodup hpin]
      exact hx k
    · refine NoExcess.release fun k => ?_
      have hle := hx k
      rw [List.count_nil] at hle
      omega
  exact hunpin

/-! ## Discards -/

theorem held_discards_of_not_points (hk : ∀ p ∈ hs, k ∉ b.refs p) : (b.discards hs).held k = b.held k := by
  induction hs generalizing b with
  | nil => rfl
  | cons h rest ih =>
    have hcons : b.discards (h :: rest) = (b.discard h).discards rest := rfl
    have hnone : (b.refs h).count k = 0 := List.count_eq_zero.2 (hk h List.mem_cons_self)
    have hheld := held_discard b h k
    have hrest : ∀ p ∈ rest, k ∉ (b.discard h).refs p := by
      intro p hp
      rw [refs_discard]
      split
      · simp
      · exact hk p (List.mem_cons_of_mem _ hp)
    rw [hcons, ih hrest]
    omega

theorem held_discards_lt (hp : p ∈ hs) (hc : c ∈ b.refs p) : (b.discards hs).held c < b.held c := by
  induction hs generalizing b with
  | nil => cases hp
  | cons h rest ih =>
    have hcons : b.discards (h :: rest) = (b.discard h).discards rest := rfl
    have hheld := held_discard b h c
    rw [hcons]
    by_cases hph : p = h
    · subst hph
      have hpos := List.count_pos_iff.2 hc
      have hle := held_discards_le (b.discard p) rest c
      omega
    · have hc' : c ∈ (b.discard h).refs p := by
        rw [refs_discard, if_neg (Ne.symm hph)]
        exact hc
      have hlt := ih ((List.mem_cons.1 hp).resolve_left hph) hc'
      omega

theorem parentsOf_discards (b : Buffer) (hs : List Hash) (k : Hash) :
    (b.discards hs).parentsOf k = if k ∈ hs then 0 else b.parentsOf k := by
  rw [parentsOf, nodeAt?_discards]
  split <;> rfl

/-- **Nodes that go with all they point to leave no excess behind.** -/
theorem NoExcess.discards (hx : NoExcess b []) (hclosed : ∀ p ∈ hs, ∀ c, b.Points p c → c ∈ hs) :
    NoExcess (b.discards hs) [] := by
  intro k
  rw [parentsOf_discards]
  by_cases hk : k ∈ hs
  · simp [hk]
  · rw [if_neg hk]
    by_cases hmem : k ∈ b.table
    · rw [held_discards_of_not_points fun p hp hkp => hk (hclosed p hp k ⟨hkp, hmem⟩)]
      exact hx k
    · rw [parentsOf_of_not_mem hmem]
      exact Nat.zero_le _

/-- **A node that goes before its child leaves its edge in the child's count.** -/
theorem Excess.discards (hp : p ∈ hs) (hpc : b.Points p c) (hc : c ∉ hs) (hle : b.held c ≤ b.parentsOf c) :
    Excess (b.discards hs) c := by
  have hlt := held_discards_lt hp hpc.1
  rw [Excess, parentsOf_discards, if_neg hc]
  omega

/-! ## Nodes and references that are added -/

theorem NoExcess.insert {size : Nat} {node : Node} (hx : NoExcess b []) (hh : h ∉ b.table) :
    NoExcess (b.insert h size node) [] := by
  intro k
  rw [held_insert hh]
  by_cases hk : h = k
  · subst hk
    rw [parentsOf_insert_self hh]
    exact Nat.zero_le _
  · have hle := hx k
    have hgain : (b.insert h size node).parentsOf k ≤ b.parentsOf k + node.kids.count k := by
      rw [parentsOf, parentsOf, nodeAt?_insert hh, if_neg hk]
      cases b.nodeAt? k with
      | none => exact Nat.zero_le _
      | some e => exact e.toNat_gainParents_le _
    simp only [List.count_nil, Nat.add_zero] at hle ⊢
    omega

theorem parentsOf_reference_le (b : Buffer) (child parent k : Hash) :
    (b.reference child parent).parentsOf k ≤ b.parentsOf k + if child = k then 1 else 0 := by
  by_cases hk : child = k
  · subst hk
    rw [if_pos rfl]
    have hgain : ∀ b' : Buffer, (∀ e, b.table[child]? = some e →
        ∃ e', b'.table[child]? = some e' ∧ e'.parents = e.parents + 1) → child ∈ b.table →
          b'.parentsOf child ≤ b.parentsOf child + 1 := by
      intro b' hget hmem
      obtain ⟨e, he⟩ := Table.mem_iff_getElem?.1 hmem
      obtain ⟨e', he', hparents⟩ := hget e he
      rw [parentsOf_of_getElem? he, parentsOf_of_getElem? he', hparents]
      exact e.toNat_gainParents_le 1
    rcases reference_cases b child parent with heq | ⟨-, -, hmem, hpin, heq⟩ | ⟨-, -, hmem, e, he, hcount, heq⟩
    · rw [heq]
      exact Nat.le_succ _
    · rw [heq]
      exact hgain _ (fun e he => ⟨_, by rw [getElem?_pin hpin, he]; rfl, by simp [Staged.gainParent]⟩) hmem
    · rw [heq]
      refine hgain _ (fun x hx => ⟨_, by rw [getElem?_addEdge he hcount, hx]; rfl, ?_⟩) hmem
      by_cases hp : parent = child <;> simp [hp, Staged.gainParent, Staged.addChild]
  · rw [if_neg hk, parentsOf_reference_of_ne (Ne.symm hk)]
    exact Nat.le_refl _

theorem NoExcess.reference (hx : NoExcess b []) (child parent : Hash) : NoExcess (b.reference child parent) [] := by
  rcases reference_gain b child parent with heq | ⟨-, hheld, -⟩
  · rwa [heq]
  · intro k
    have hle := hx k
    have hparents := parentsOf_reference_le b child parent k
    rw [hheld]
    omega

/-! ## Excess stays -/

namespace Excess

theorem covers (hx : Excess b c) : Covers (· = c) b [c] := by
  intro h hh
  subst hh
  rw [List.count_singleton_self]
  exact hx

theorem of_covers (hc : Covers (· = c) b [c]) : Excess b c := by
  have hle := hc c rfl
  rw [List.count_singleton_self] at hle
  exact hle

theorem mem (hx : Excess b c) : c ∈ b.table ∧ b.parentsOf c ≠ 0 := by
  rw [Excess] at hx
  exact ⟨mem_of_parentsOf_pos (by omega), by omega⟩

theorem dereference (hx : Excess b c) (hnodup : b.pins.Nodup) (hh : h ∈ b.pins) : Excess (b.dereference h) c :=
  of_covers (hx.covers.dereference_append hnodup hh)

theorem reference (hx : Excess b c) {child : Hash} (hne : c ≠ child) (parent : Hash) :
    Excess (b.reference child parent) c := by
  rcases reference_gain b child parent with heq | ⟨-, hheld, -⟩
  · rwa [heq]
  · rw [Excess, parentsOf_reference_of_ne hne, hheld, if_neg (Ne.symm hne)]
    exact hx

end Excess

/-- Where no node counts zero, nothing can be collected. -/
theorem not_collectable (hc : c ∈ b.table) (hpos : ∀ h ∈ b.table, b.parentsOf h ≠ 0) : ¬ b.Collectable := by
  intro hcoll
  obtain ⟨z, hz, hzero, -⟩ := hcoll c hc
  exact hpos z hz hzero

/-- A node that counts one parent goes when it is let go of. -/
theorem not_mem_release_self (hl : b.Linked b.flushOrder) (hone : b.parentsOf h = 1) : h ∉ (b.release [h]).table := by
  obtain ⟨e, he, hone⟩ := exists_of_parentsOf_eq_one hone
  rw [release_cons he hone]
  intro hmem
  have hrest := (remnant_release (flushOrder_remove hl he).self _).1.mem hmem
  exact ((mem_remove b h e h).1 hrest).1 rfl

theorem not_mem_dereference (hw : b.WellFormed) (hh : h ∈ b.table) (hpins : b.pins = []) (hzero : b.parentsOf h = 0) :
    h ∉ ((b.reference h Hash.zero).dereference h).table := by
  have hz : h ≠ Hash.zero := fun heq => hw.zero_not_mem (heq ▸ hh)
  have hpin : h ∉ b.pins := by simp [hpins]
  have hone : (b.reference h Hash.zero).parentsOf h = 1 := by
    have heq : b.reference h Hash.zero = b.pin h := by simp [Buffer.reference, hz, hh, Hash.isZero]
    rw [heq, parentsOf_pin hpin hh (by omega), hzero, if_pos rfl]
  have hmem := mem_pins_reference_zero hz hh
  have hl : ({ b.reference h Hash.zero with
      pins := (b.reference h Hash.zero).pins.erase h
      edgesSize := (b.reference h Hash.zero).edgesSize - ByteSize.ofNat Staged.edgeSize } : Buffer).Linked
        (b.reference h Hash.zero).flushOrder :=
    (hw.reference h Hash.zero).linked.congr (fun _ => Iff.rfl) (fun _ e he => ⟨e, he, rfl, rfl⟩) rfl rfl
  have hleft : h ∉ ((b.reference h Hash.zero).unpin h).table := by
    rw [unpin, if_pos hmem]
    exact not_mem_release_self hl.self hone
  exact hleft

end MerkleBuffer.Buffer
