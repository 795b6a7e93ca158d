/-
Parent counts against what holds a node.

`Covers P b pending`: no hash in `P` has counted less than what holds it and is
pending. `Exact b pending`: every staged node has counted exactly that. Both are
kept by every step of a release, so they hold with nothing pending after it.
Discarding a node keeps the first, if the node is not in `P`, and the second, if
no child of the node is left.
-/
import MerkleBuffer.Proofs.Buffer.WellFormed

namespace MerkleBuffer.Buffer

variable {b b' : Buffer} {h k : Hash} {e : Staged} {rest : List Hash} {P Q : Hash → Prop}

/-- The hashes in `P` have counted all that holds them and all that is pending. -/
def Covers (P : Hash → Prop) (b : Buffer) (pending : List Hash) : Prop :=
  ∀ h, P h → b.held h + pending.count h ≤ b.parentsOf h

/-- The staged nodes have counted what holds them and what is pending, and
nothing else. -/
def Exact (b : Buffer) (pending : List Hash) : Prop :=
  ∀ h ∈ b.table, b.parentsOf h = b.held h + pending.count h

/-- No count wraps on the way from `b` to `b'`: each staged node can count the
edges that it gains. -/
def HasRoom (b b' : Buffer) : Prop :=
  ∀ h ∈ b.table, b.parentsOf h + (b'.held h - b.held h) < 2 ^ 32

instance (b b' : Buffer) : Decidable (HasRoom b b') :=
  decidable_of_iff (∀ h ∈ b.staged, b.parentsOf h + (b'.held h - b.held h) < 2 ^ 32)
    (forall_congr' fun _ => imp_congr_left mem_staged)

theorem Covers.mono (hc : Covers P b rest) (hQ : ∀ h, Q h → P h) : Covers Q b rest := fun h hh => hc h (hQ h hh)

theorem parentsOf_lt (b : Buffer) (k : Hash) : b.parentsOf k < 2 ^ 32 := by
  rw [parentsOf]
  cases b.nodeAt? k with
  | none => decide
  | some e => exact e.parents.toNat_lt

/-- Where counts are exact, the edges that there are can be counted. -/
theorem Exact.hasRoom (hx : Exact b []) (hlt : ∀ h ∈ b.table, b'.held h < 2 ^ 32) : HasRoom b b' := by
  intro h hh
  have heq := hx h hh
  have hpar := b.parentsOf_lt h
  have hheld := hlt h hh
  rw [List.count_nil] at heq
  omega

theorem SameNodes.covers (hs : SameNodes b b') (hc : Covers P b rest) : Covers P b' rest := fun h hh => by
  rw [hs.held, hs.parentsOf]
  exact hc h hh

theorem SameNodes.exact (hs : SameNodes b b') (hx : Exact b rest) : Exact b' rest := fun h hh => by
  rw [hs.held, hs.parentsOf]
  exact hx h (hs.table ▸ hh)

/-- What something holds is staged. -/
theorem Covers.mem (hc : Covers P b []) (hP : P h) (hpos : 0 < b.held h) : h ∈ b.table := by
  have hle := hc h hP
  exact mem_of_parentsOf_pos (by omega)

theorem Covers.mem_of_mem_refs (hc : Covers P b []) (hP : P h) (hh : h ∈ b.refs k) : h ∈ b.table :=
  hc.mem hP (held_pos_of_mem_refs hh)

theorem Covers.mem_of_mem_pins (hc : Covers P b []) (hP : P h) (hh : h ∈ b.pins) : h ∈ b.table :=
  hc.mem hP (held_pos_of_mem_pins hh)

/-! ## Releases -/

theorem held_lower (b : Buffer) (h k : Hash) :
    ({ b with table := b.table.modify h Staged.loseParent } : Buffer).held k = b.held k :=
  held_congr (fun p => refs_of_map (getElem?_lower b h) fun e => by split <;> simp) rfl k

theorem parentsOf_lower (he : b.table[h]? = some e) (hpos : e.parents ≠ 0) (k : Hash) :
    ({ b with table := b.table.modify h Staged.loseParent } : Buffer).parentsOf k + (if h = k then 1 else 0)
      = b.parentsOf k := by
  have hget := getElem?_lower b h k
  by_cases hk : h = k
  · subst hk
    rw [he, Option.map_some, if_pos rfl] at hget
    rw [parentsOf_of_getElem? hget, parentsOf_of_getElem? he, if_pos rfl]
    exact Staged.toNat_loseParent hpos
  · simp only [hk, if_false, Option.map_id'] at hget
    rw [if_neg hk, Nat.add_zero, parentsOf, parentsOf, nodeAt?, nodeAt?, hget]

/-- A node that leaves hands its references over to what is pending. -/
theorem Covers.leave (hc : Covers P b (h :: rest)) (he : b.table[h]? = some e) (hone : e.parents.toNat ≤ 1) :
    Covers P (b.remove h e) (e.references ++ rest) := by
  intro k hk
  have hle := hc k hk
  have hheld := held_remove b h e k
  rw [refs_of_getElem? he] at hheld
  rw [parentsOf_remove, List.count_append]
  rw [List.count_cons] at hle
  by_cases heq : h = k
  · subst heq
    rw [parentsOf_of_getElem? he] at hle
    simp only [beq_self_eq_true, if_true] at hle ⊢
    omega
  · simp only [heq, if_false, beq_iff_eq] at hle ⊢
    omega

theorem Covers.lower (hc : Covers P b (h :: rest)) (he : b.table[h]? = some e) (hpos : e.parents ≠ 0) :
    Covers P { b with table := b.table.modify h Staged.loseParent } rest := by
  intro k hk
  have hle := hc k hk
  have hparents := parentsOf_lower he hpos k
  rw [List.count_cons] at hle
  rw [held_lower]
  simp only [beq_iff_eq] at hle
  omega

/-- A release lets go of what is pending, and of nothing more: what is covered besides
stays covered. -/
theorem Covers.release_append {pending extra : List Hash} (hc : Covers P b (pending ++ extra)) :
    Covers P (b.release pending) extra := by
  refine release_induct (I := fun b pending => Covers P b (pending ++ extra)) (fun b h rest hh hI k hk => ?_)
    (fun b h e rest he hzero hI => ?_) (fun b h e rest he hone hI => ?_)
    (fun b h e rest he hzero _ hI => hI.lower he hzero) b pending hc
  · have hle := hI k hk
    rw [List.cons_append, List.count_cons] at hle
    omega
  · rw [List.append_assoc]
    exact Covers.leave (b := b.countClamped) hI he (by simp [hzero])
  · rw [List.append_assoc]
    exact hI.leave he (by simp [hone])

theorem Exact.leave (hx : Exact b (h :: rest)) (he : b.table[h]? = some e) :
    Exact (b.remove h e) (e.references ++ rest) := by
  intro k hk
  have hmem := (mem_remove b h e k).1 hk
  have heq := hx k hmem.2
  have hheld := held_remove b h e k
  rw [refs_of_getElem? he] at hheld
  rw [parentsOf_remove, if_neg hmem.1.symm, List.count_append]
  rw [List.count_cons_of_ne hmem.1.symm] at heq
  omega

theorem Exact.lower (hx : Exact b (h :: rest)) (he : b.table[h]? = some e) (hpos : e.parents ≠ 0) :
    Exact { b with table := b.table.modify h Staged.loseParent } rest := by
  intro k hk
  have hk' : k ∈ b.table := by
    rw [Table.mem_iff_getElem?, getElem?_lower] at hk
    obtain ⟨x, hx⟩ := hk
    obtain ⟨y, hy, -⟩ := Option.map_eq_some_iff.1 hx
    exact Table.mem_iff_getElem?.2 ⟨y, hy⟩
  have heq := hx k hk'
  have hparents := parentsOf_lower he hpos k
  rw [List.count_cons] at heq
  rw [held_lower]
  simp only [beq_iff_eq] at heq
  omega

/-- Where all counts are exact, a release keeps them so and finds none at zero. -/
theorem Exact.release {pending : List Hash} (hx : Exact b pending) :
    Exact (b.release pending) [] ∧ (b.release pending).stats.clampedDereferences = b.stats.clampedDereferences := by
  refine release_induct
    (I := fun c pending => Exact c pending ∧ c.stats.clampedDereferences = b.stats.clampedDereferences)
    (fun c h rest hh hI => ⟨fun k hk => ?_, hI.2⟩) (fun c h e rest he hzero hI => ?_)
    (fun c h e rest he hone hI => ⟨hI.1.leave he, by rw [stats_remove, hI.2]⟩)
    (fun c h e rest he hzero _ hI => ⟨hI.1.lower he hzero, hI.2⟩) b pending ⟨hx, rfl⟩
  · have hne : h ≠ k := fun heq => hh (heq ▸ hk)
    have heq := hI.1 k hk
    rwa [List.count_cons_of_ne hne] at heq
  · have heq := hI.1 h (Table.mem_iff_getElem?.2 ⟨e, he⟩)
    rw [parentsOf_of_getElem? he, hzero, List.count_cons_self] at heq
    simp at heq

/-- Taking a pin off lets go of its root once. -/
theorem held_erase_pin (hnodup : b.pins.Nodup) (hh : h ∈ b.pins) {size : ByteSize} (k : Hash) :
    ({ b with pins := b.pins.erase h, edgesSize := size } : Buffer).held k + [h].count k = b.held k := by
  show (b.edgesTo k + if k ∈ b.pins.erase h then 1 else 0) + [h].count k = b.edgesTo k + if k ∈ b.pins then 1 else 0
  have hmem := hnodup.mem_erase_iff (a := k) (b := h)
  by_cases hk : h = k
  · subst hk
    simp [hmem, hh]
  · simp [hmem, hk, Ne.symm hk]

theorem Covers.dereference_append {extra : List Hash} (hc : Covers P b extra) (hnodup : b.pins.Nodup)
    (hh : h ∈ b.pins) : Covers P (b.dereference h) extra := by
  have hcut : Covers P { b with
      pins := b.pins.erase h
      edgesSize := b.edgesSize - ByteSize.ofNat Staged.edgeSize } ([h] ++ extra) := by
    intro k hk
    have hle := hc k hk
    rw [List.count_append, ← Nat.add_assoc, held_erase_pin hnodup hh]
    exact hle
  have hunpin : Covers P (b.unpin h) extra := by
    rw [unpin, if_pos hh]
    exact hcut.release_append
  exact hunpin

theorem Covers.dereference (hc : Covers P b []) (hnodup : b.pins.Nodup) (hh : h ∈ b.pins) :
    Covers P (b.dereference h) [] := hc.dereference_append hnodup hh

theorem Exact.dereference (hx : Exact b []) (hnodup : b.pins.Nodup) (hh : h ∈ b.pins) :
    Exact (b.dereference h) [] ∧ (b.dereference h).stats.clampedDereferences = b.stats.clampedDereferences := by
  have hcut : Exact { b with
      pins := b.pins.erase h
      edgesSize := b.edgesSize - ByteSize.ofNat Staged.edgeSize } [h] := by
    intro k hk
    rw [held_erase_pin hnodup hh]
    exact hx k hk
  have hunpin : Exact (b.unpin h) [] ∧ (b.unpin h).stats.clampedDereferences = b.stats.clampedDereferences := by
    rw [unpin, if_pos hh]
    exact hcut.release
  exact hunpin

/-! ## Discards -/

theorem Covers.discard (hc : Covers P b []) (hh : ¬ P h) : Covers P (b.discard h) [] := by
  intro k hk
  have hne : h ≠ k := fun heq => hh (heq ▸ hk)
  have hle := hc k hk
  have hheld := held_discard b h k
  rw [parentsOf_discard, if_neg hne]
  omega

/-- A node whose children are gone can be dropped without a trace in the counts
of the others. -/
theorem Exact.discard (hx : Exact b []) (hh : ∀ c ∈ b.refs h, c ∈ b.table → c = h) : Exact (b.discard h) [] := by
  intro k hk
  have hmem : h ≠ k ∧ k ∈ b.table := by
    rw [mem_iff_nodeAt?, nodeAt?_discard] at hk
    split at hk
    · obtain ⟨e, he⟩ := hk; cases he
    · next hne => exact ⟨hne, mem_iff_nodeAt?.2 hk⟩
  have hnone : (b.refs h).count k = 0 := List.count_eq_zero.2 fun hm => hmem.1 (hh k hm hmem.2).symm
  have heq := hx k hmem.2
  have hheld := held_discard b h k
  rw [parentsOf_discard, if_neg hmem.1]
  omega

/-! ## Nodes and references that are added -/

theorem HasRoom.insert {size : Nat} {node : Node} (hroom : HasRoom b (b.insert h size node)) (hh : h ∉ b.table)
    (hk : k ∈ b.table) : (b.insert h size node).parentsOf k = b.parentsOf k + node.kids.count k := by
  have hlt := hroom k hk
  rw [held_insert hh, Nat.add_sub_cancel_left] at hlt
  exact parentsOf_insert hh hk hlt

theorem Covers.insert {size : Nat} {node : Node} (hc : Covers P b []) (hh : h ∉ b.table)
    (hroom : HasRoom b (b.insert h size node))
    (hkids : ∀ c ∈ node.kids, P c → c ∈ b.table) : Covers P (b.insert h size node) [] := by
  intro k hk
  have hle := hc k hk
  rw [held_insert hh]
  by_cases hmem : k ∈ b.table
  · rw [hroom.insert hh hmem]
    omega
  · have hzero : node.kids.count k = 0 := List.count_eq_zero.2 fun hm => hmem (hkids k hm hk)
    rw [parentsOf_of_not_mem hmem] at hle
    omega

theorem Exact.insert {size : Nat} {node : Node} (hx : Exact b []) (hh : h ∉ b.table)
    (hroom : HasRoom b (b.insert h size node)) (hnone : b.held h = 0) (hself : h ∉ node.kids) :
    Exact (b.insert h size node) [] := by
  intro k hk
  rw [held_insert hh]
  rcases (mem_insert hh size node k).1 hk with rfl | hmem
  · rw [parentsOf_insert_self hh, hnone, List.count_eq_zero.2 hself]
    rfl
  · have heq := hx k hmem
    rw [hroom.insert hh hmem]
    omega

theorem Covers.reference {child parent : Hash} (hc : Covers P b []) (hroom : HasRoom b (b.reference child parent)) :
    Covers P (b.reference child parent) [] := by
  rcases reference_gain b child parent with heq | ⟨hmem, hheld, hparents⟩
  · rwa [heq]
  intro k hk
  have hle := hc k hk
  have hlt := hroom child hmem
  rw [hheld, if_pos rfl, Nat.add_sub_cancel_left] at hlt
  rw [hheld, hparents hlt]
  omega

theorem Exact.reference {child parent : Hash} (hx : Exact b []) (hroom : HasRoom b (b.reference child parent)) :
    Exact (b.reference child parent) [] := by
  rcases reference_gain b child parent with heq | ⟨hmem, hheld, hparents⟩
  · rwa [heq]
  intro k hk
  have hlt := hroom child hmem
  rw [hheld, if_pos rfl, Nat.add_sub_cancel_left] at hlt
  have heq := hx k ((mem_reference b child parent k).1 hk)
  rw [hheld, hparents hlt]
  omega

end MerkleBuffer.Buffer
