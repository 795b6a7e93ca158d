/-
What holds a staged node: the edges of the staged nodes that point to it, and
its pin.

`held` counts them anew, `parentsOf` is the count that the node itself keeps.
An operation that changes what one node points to changes one summand of
`edgesTo` (`edgesTo_change`); every other fact about `held` follows from it.
-/
import MerkleBuffer.Proofs.Buffer.Entries
import Mathlib.Algebra.BigOperators.Group.Finset.Basic
import Mathlib.Algebra.Order.BigOperators.Group.Finset

namespace MerkleBuffer

namespace Edges

theorem count_expand_add (child k : Hash) (edges : Edges) :
    (edges.add child).expand.count k = edges.expand.count k + if child = k then 1 else 0 := by
  induction edges with
  | nil => simp [add, expand, List.count_cons]
  | cons edge rest ih =>
    obtain ⟨h, n⟩ := edge
    unfold add
    split
    · next heq =>
      subst heq
      simp only [expand, List.flatMap_cons, List.count_append, List.count_replicate, beq_iff_eq]
      split <;> omega
    · simp only [expand, List.flatMap_cons, List.count_append] at ih ⊢
      omega

theorem nodup_add (child : Hash) {edges : Edges} (h : (edges.map (·.1)).Nodup) :
    ((edges.add child).map (·.1)).Nodup ∧
      ∀ k, k ∈ (edges.add child).map (·.1) ↔ k = child ∨ k ∈ edges.map (·.1) := by
  induction edges with
  | nil => simp [add]
  | cons edge rest ih =>
    obtain ⟨c, n⟩ := edge
    obtain ⟨hc, hrest⟩ := List.nodup_cons.1 h
    obtain ⟨hnodup, hmem⟩ := ih hrest
    unfold add
    split
    · next heq =>
      subst heq
      exact ⟨h, fun k => by simp⟩
    · next hne =>
      refine ⟨List.nodup_cons.2 ⟨fun hm => ?_, hnodup⟩, fun k => ?_⟩
      · rcases (hmem c).1 hm with heq | hm
        · exact hne heq
        · exact hc hm
      · rw [List.map_cons, List.map_cons, List.mem_cons, List.mem_cons, hmem]
        tauto

theorem pos_add {child : Hash} {edges : Edges} (h : ∀ x ∈ edges, 0 < x.2) : ∀ x ∈ edges.add child, 0 < x.2 := by
  induction edges with
  | nil => simp [add]
  | cons edge rest ih =>
    obtain ⟨hedge, hrest⟩ := List.forall_mem_cons.1 h
    unfold add
    split
    · exact List.forall_mem_cons.2 ⟨Nat.succ_pos _, hrest⟩
    · exact List.forall_mem_cons.2 ⟨hedge, ih hrest⟩

theorem mem_expand {edges : Edges} (h : ∀ x ∈ edges, 0 < x.2) (k : Hash) :
    k ∈ edges.expand ↔ k ∈ edges.map (·.1) := by
  rw [expand, List.mem_flatMap, List.mem_map]
  constructor
  · rintro ⟨x, hx, hk⟩
    exact ⟨x, hx, (List.eq_of_mem_replicate hk).symm⟩
  · rintro ⟨x, hx, rfl⟩
    exact ⟨x, hx, List.mem_replicate.2 ⟨Nat.pos_iff_ne_zero.1 (h x hx), rfl⟩⟩

/-- Where the children are apart, the first entry of a child tells how often it
is referenced. -/
theorem count_expand {edges : Edges} (h : (edges.map (·.1)).Nodup) (k : Hash) :
    edges.expand.count k = edges.count k := by
  induction edges with
  | nil => rfl
  | cons edge rest ih =>
    obtain ⟨c, n⟩ := edge
    obtain ⟨hc, hrest⟩ := List.nodup_cons.1 h
    have hexpand : Edges.expand ((c, n) :: rest) = List.replicate n c ++ Edges.expand rest := rfl
    rw [hexpand, List.count_append, List.count_replicate, ih hrest]
    by_cases heq : c = k
    · subst heq
      have hnone : Edges.count c rest = 0 := by
        rw [← ih hrest, List.count_eq_zero]
        intro hm
        obtain ⟨p, hp, hcp⟩ := List.mem_flatMap.1 hm
        exact hc (List.mem_map.2 ⟨p, hp, (List.eq_of_mem_replicate hcp).symm⟩)
      simp [hnone, Edges.count]
    · simp [heq, Edges.count]

end Edges

/-- The children embedded in a node, as often as a slot holds them; the zero
hash is no child. -/
def Node.kids (node : Node) : List Hash := node.childHashes.filter (!·.isZero)

theorem Node.mem_kids {node : Node} {c : Hash} : c ∈ node.kids ↔ c ∈ node.childHashes ∧ c ≠ Hash.zero := by
  simp [Node.kids, Hash.isZero]

namespace Staged

theorem count_references_addChild (e : Staged) (child k : Hash) :
    (e.addChild child).references.count k = e.references.count k + if child = k then 1 else 0 := by
  have h : (e.addChild child).references = ((e.edges.getD []).add child).expand ++ e.embedded := rfl
  rw [h, List.count_append, Edges.count_expand_add, references, List.count_append]
  omega

@[simp] theorem references_gainParent (e : Staged) : e.gainParent.references = e.references := rfl

@[simp] theorem references_loseParent (e : Staged) : e.loseParent.references = e.references := rfl

theorem toNat_gainParents {e : Staged} {n : Nat} (h : e.parents.toNat + n < 2 ^ 32) :
    (e.gainParents n).parents.toNat = e.parents.toNat + n := by
  have hn : (UInt32.ofNat n).toNat = n := UInt32.toNat_ofNat_of_lt' (show n < 2 ^ 32 by omega)
  rw [gainParents, UInt32.toNat_add, hn, Nat.mod_eq_of_lt h]

/-- Also where the count wraps, it is no more than this. -/
theorem toNat_gainParents_le (e : Staged) (n : Nat) : (e.gainParents n).parents.toNat ≤ e.parents.toNat + n := by
  have hn : (UInt32.ofNat n).toNat ≤ n := by
    rw [UInt32.toNat_ofNat']
    exact Nat.mod_le _ _
  rw [gainParents, UInt32.toNat_add]
  exact Nat.le_trans (Nat.mod_le _ _) (Nat.add_le_add_left hn _)

theorem toNat_gainParent {e : Staged} (h : e.parents.toNat + 1 < 2 ^ 32) :
    e.gainParent.parents.toNat = e.parents.toNat + 1 :=
  toNat_gainParents h

theorem toNat_loseParent {e : Staged} (h : e.parents ≠ 0) : e.loseParent.parents.toNat + 1 = e.parents.toNat := by
  have hpos : 1 ≤ e.parents.toNat := Nat.pos_of_ne_zero fun hz => h (UInt32.toNat_inj.1 hz)
  have hsub : (e.parents - 1).toNat = e.parents.toNat - 1 := UInt32.toNat_sub_of_le _ _ hpos
  rw [loseParent, hsub, Nat.sub_add_cancel hpos]

end Staged

namespace Buffer

variable {b b' : Buffer} {h k p : Hash} {e : Staged}

/-- What a hash points to, as often as it does: nothing, if it is not staged. -/
def refs (b : Buffer) (p : Hash) : List Hash := ((b.nodeAt? p).map Staged.references).getD []

/-- The staged hashes. -/
def staged (b : Buffer) : Finset Hash := b.table.keys.toFinset

/-- How many references of staged nodes lead to `k`. -/
def edgesTo (b : Buffer) (k : Hash) : Nat := ∑ p ∈ b.staged, (b.refs p).count k

/-- How many edges of staged nodes hold `k`, and one more if it is pinned. -/
def held (b : Buffer) (k : Hash) : Nat := b.edgesTo k + if k ∈ b.pins then 1 else 0

/-- The parents that a staged node has counted; none, if it is not staged. -/
def parentsOf (b : Buffer) (k : Hash) : Nat := ((b.nodeAt? k).map (·.parents.toNat)).getD 0

theorem mem_staged : h ∈ b.staged ↔ h ∈ b.table := by
  rw [staged, List.mem_toFinset, Std.ExtTreeMap.mem_keys]

theorem refs_of_getElem? (he : b.table[p]? = some e) : b.refs p = e.references := by
  simp [refs, nodeAt?_of_getElem? he]

theorem refs_of_not_mem (hp : p ∉ b.table) : b.refs p = [] := by
  simp [refs, nodeAt?_eq_none.2 hp]

theorem mem_of_mem_refs (hk : k ∈ b.refs p) : p ∈ b.table := by
  by_contra hp
  simp [refs_of_not_mem hp] at hk

theorem parentsOf_of_getElem? (he : b.table[k]? = some e) : b.parentsOf k = e.parents.toNat := by
  simp [parentsOf, nodeAt?_of_getElem? he]

theorem parentsOf_of_not_mem (hk : k ∉ b.table) : b.parentsOf k = 0 := by
  simp [parentsOf, nodeAt?_eq_none.2 hk]

theorem mem_of_parentsOf_pos (hk : 0 < b.parentsOf k) : k ∈ b.table := by
  by_contra hno
  simp [parentsOf_of_not_mem hno] at hk

theorem exists_of_parentsOf_eq_one (hp : b.parentsOf p = 1) : ∃ e, b.table[p]? = some e ∧ e.parents = 1 := by
  obtain ⟨e, he⟩ := Table.mem_iff_getElem?.1 (mem_of_parentsOf_pos (b := b) (k := p) (by omega))
  rw [parentsOf_of_getElem? he] at hp
  exact ⟨e, he, UInt32.toNat_inj.1 hp⟩

/-! ## Sums over the staged nodes -/

/-- Hashes that are not staged may be added up as well, where they add nothing. -/
theorem sum_staged {f : Hash → Nat} (hf : ∀ p, p ∉ b.table → f p = 0) {s : Finset Hash} (hs : b.staged ⊆ s) :
    ∑ p ∈ b.staged, f p = ∑ p ∈ s, f p :=
  Finset.sum_subset hs fun p _ hp => hf p fun hm => hp (mem_staged.2 hm)

theorem sum_staged_change {f g : Hash → Nat} (hf : ∀ p, p ∉ b.table → f p = 0) (hg : ∀ p, p ∉ b'.table → g p = 0)
    (hsame : ∀ p, p ≠ h → g p = f p) : ∑ p ∈ b'.staged, g p + f h = ∑ p ∈ b.staged, f p + g h := by
  have hs : b.staged ⊆ {h} ∪ (b.staged ∪ b'.staged) :=
    Finset.Subset.trans Finset.subset_union_left Finset.subset_union_right
  have hs' : b'.staged ⊆ {h} ∪ (b.staged ∪ b'.staged) :=
    Finset.Subset.trans Finset.subset_union_right Finset.subset_union_right
  have hh : h ∈ {h} ∪ (b.staged ∪ b'.staged) := Finset.mem_union_left _ (Finset.mem_singleton_self h)
  have hrest : ∑ p ∈ ({h} ∪ (b.staged ∪ b'.staged)).erase h, g p = ∑ p ∈ ({h} ∪ (b.staged ∪ b'.staged)).erase h, f p :=
    Finset.sum_congr rfl fun p hp => hsame p (Finset.ne_of_mem_erase hp)
  rw [sum_staged hf hs, sum_staged hg hs', ← Finset.add_sum_erase _ _ hh, ← Finset.add_sum_erase _ f hh, hrest]
  omega

theorem count_refs_of_not_mem (hp : p ∉ b.table) (k : Hash) : (b.refs p).count k = 0 := by
  rw [refs_of_not_mem hp, List.count_nil]

theorem edgesTo_change (hsame : ∀ p, p ≠ h → b'.refs p = b.refs p) (k : Hash) :
    b'.edgesTo k + (b.refs h).count k = b.edgesTo k + (b'.refs h).count k :=
  sum_staged_change (f := fun p => (b.refs p).count k) (g := fun p => (b'.refs p).count k)
    (fun _ hp => count_refs_of_not_mem hp k) (fun _ hp => count_refs_of_not_mem hp k)
    fun p hp => by rw [hsame p hp]

theorem edgesTo_congr (hsame : ∀ p, b'.refs p = b.refs p) (k : Hash) : b'.edgesTo k = b.edgesTo k := by
  have hchange : b'.edgesTo k + (b.refs k).count k = b.edgesTo k + (b'.refs k).count k :=
    edgesTo_change (fun p _ => hsame p) k
  rw [hsame] at hchange
  omega

theorem count_refs_le_edgesTo (p k : Hash) : (b.refs p).count k ≤ b.edgesTo k := by
  by_cases hp : p ∈ b.table
  · exact Finset.single_le_sum (f := fun p => (b.refs p).count k) (fun _ _ => Nat.zero_le _) (mem_staged.2 hp)
  · simp [refs_of_not_mem hp]

theorem edgesTo_pos (hk : k ∈ b.refs p) : 0 < b.edgesTo k :=
  Nat.lt_of_lt_of_le (List.count_pos_iff.2 hk) (count_refs_le_edgesTo p k)

theorem edgesTo_eq_zero : b.edgesTo k = 0 ↔ ∀ p, k ∉ b.refs p := by
  constructor
  · intro hz p hk
    exact absurd (edgesTo_pos hk) (by omega)
  · intro hno
    exact Finset.sum_eq_zero fun p _ => List.count_eq_zero.2 (hno p)

theorem held_pos_of_mem_refs (hk : k ∈ b.refs p) : 0 < b.held k :=
  Nat.lt_of_lt_of_le (edgesTo_pos hk) (Nat.le_add_right _ _)

theorem held_pos_of_mem_pins (hk : k ∈ b.pins) : 0 < b.held k := by
  simp [held, hk]

theorem held_congr (hsame : ∀ p, b'.refs p = b.refs p) (hpins : b'.pins = b.pins) (k : Hash) :
    b'.held k = b.held k := by
  rw [held, held, edgesTo_congr hsame, hpins]

/-! ## Nodes that leave -/

theorem refs_remove (b : Buffer) (h : Hash) (e : Staged) (p : Hash) :
    (b.remove h e).refs p = if h = p then [] else b.refs p := by
  rw [refs, nodeAt?_remove]
  split <;> rfl

theorem parentsOf_remove (b : Buffer) (h : Hash) (e : Staged) (k : Hash) :
    (b.remove h e).parentsOf k = if h = k then 0 else b.parentsOf k := by
  rw [parentsOf, nodeAt?_remove]
  split <;> rfl

theorem held_remove (b : Buffer) (h : Hash) (e : Staged) (k : Hash) :
    (b.remove h e).held k + (b.refs h).count k = b.held k := by
  have hchange : (b.remove h e).edgesTo k + (b.refs h).count k = b.edgesTo k + ((b.remove h e).refs h).count k :=
    edgesTo_change (fun p hp => by rw [refs_remove, if_neg (Ne.symm hp)]) k
  rw [refs_remove, if_pos rfl, List.count_nil] at hchange
  rw [held, held, pins_remove]
  omega

theorem refs_discard (b : Buffer) (h p : Hash) : (b.discard h).refs p = if h = p then [] else b.refs p := by
  rw [refs, nodeAt?_discard]
  split <;> rfl

theorem parentsOf_discard (b : Buffer) (h k : Hash) :
    (b.discard h).parentsOf k = if h = k then 0 else b.parentsOf k := by
  rw [parentsOf, nodeAt?_discard]
  split <;> rfl

theorem held_discard (b : Buffer) (h k : Hash) : (b.discard h).held k + (b.refs h).count k = b.held k := by
  have hchange : (b.discard h).edgesTo k + (b.refs h).count k = b.edgesTo k + ((b.discard h).refs h).count k :=
    edgesTo_change (fun p hp => by rw [refs_discard, if_neg (Ne.symm hp)]) k
  rw [refs_discard, if_pos rfl, List.count_nil] at hchange
  rw [held, held, pins_discard]
  omega

/-! ## Nodes that are staged -/

theorem refs_insert (hh : h ∉ b.table) (size : Nat) (node : Node) (p : Hash) :
    (b.insert h size node).refs p = if h = p then node.kids else b.refs p := by
  rw [refs, nodeAt?_insert hh]
  split
  · rfl
  · rw [refs, Option.map_map]
    rfl

theorem held_insert (hh : h ∉ b.table) (size : Nat) (node : Node) (k : Hash) :
    (b.insert h size node).held k = b.held k + node.kids.count k := by
  have hchange : (b.insert h size node).edgesTo k + (b.refs h).count k =
      b.edgesTo k + ((b.insert h size node).refs h).count k :=
    edgesTo_change (fun p hp => by rw [refs_insert hh, if_neg (Ne.symm hp)]) k
  rw [refs_insert hh, if_pos rfl, refs_of_not_mem hh, List.count_nil] at hchange
  rw [held, held, (insert_frame b h size node).1]
  omega

/-- Staging a node counts its edges at its staged children. -/
theorem parentsOf_insert (hh : h ∉ b.table) {size : Nat} {node : Node} (hk : k ∈ b.table)
    (hroom : b.parentsOf k + node.kids.count k < 2 ^ 32) :
    (b.insert h size node).parentsOf k = b.parentsOf k + node.kids.count k := by
  obtain ⟨e, he⟩ := mem_iff_nodeAt?.1 hk
  have hne : h ≠ k := fun heq => hh (heq ▸ hk)
  have hparents : b.parentsOf k = e.parents.toNat := by simp [parentsOf, he]
  rw [hparents] at hroom ⊢
  rw [parentsOf, nodeAt?_insert hh, if_neg hne, he]
  exact Staged.toNat_gainParents hroom

theorem parentsOf_insert_self (hh : h ∉ b.table) (size : Nat) (node : Node) :
    (b.insert h size node).parentsOf h = 0 := by
  rw [parentsOf, nodeAt?_insert hh, if_pos rfl]
  rfl

/-! ## Nodes that are referenced -/

theorem parentsOf_gain {f : Hash → Staged → Staged} (hf : ∀ k, b'.table[k]? = (b.table[k]?).map (f k))
    (hgain : ∀ k e, (f k e).parents = if h = k then e.parents + 1 else e.parents)
    (hroom : b.parentsOf h + 1 < 2 ^ 32)
    (hh : h ∈ b.table) (k : Hash) : b'.parentsOf k = b.parentsOf k + if h = k then 1 else 0 := by
  by_cases hk : k ∈ b.table
  · obtain ⟨e, he⟩ := Table.mem_iff_getElem?.1 hk
    have he' : b'.table[k]? = some (f k e) := by rw [hf, he]; rfl
    rw [parentsOf_of_getElem? he', parentsOf_of_getElem? he, hgain]
    split
    · next heq =>
      subst heq
      rw [parentsOf_of_getElem? he] at hroom
      exact Staged.toNat_gainParent hroom
    · rfl
  · have hk' : k ∉ b'.table := by
      rw [Table.not_mem_iff_getElem?, hf, Table.not_mem_iff_getElem?.1 hk]
      rfl
    have hne : h ≠ k := fun heq => hk (heq ▸ hh)
    rw [parentsOf_of_not_mem hk', parentsOf_of_not_mem hk, if_neg hne]

theorem refs_of_map {f : Hash → Staged → Staged} (hf : ∀ k, b'.table[k]? = (b.table[k]?).map (f k))
    (hkeep : ∀ e, (f p e).references = e.references) : b'.refs p = b.refs p := by
  by_cases hp : p ∈ b.table
  · obtain ⟨e, he⟩ := Table.mem_iff_getElem?.1 hp
    have he' : b'.table[p]? = some (f p e) := by rw [hf, he]; rfl
    rw [refs_of_getElem? he', refs_of_getElem? he, hkeep]
  · have hp' : p ∉ b'.table := by
      rw [Table.not_mem_iff_getElem?, hf, Table.not_mem_iff_getElem?.1 hp]
      rfl
    rw [refs_of_not_mem hp', refs_of_not_mem hp]

theorem held_pin (hh : h ∉ b.pins) (k : Hash) : (b.pin h).held k = b.held k + if h = k then 1 else 0 := by
  have hrefs : ∀ p, (b.pin h).refs p = b.refs p := fun p =>
    refs_of_map (f := fun k e => if h = k then e.gainParent else e) (getElem?_pin hh) fun e => by
      split <;> simp
  rw [held, held, edgesTo_congr hrefs, pins_pin hh]
  by_cases hk : h = k
  · subst hk; simp [hh]
  · simp [hk, Ne.symm hk]

theorem parentsOf_pin (hh : h ∉ b.pins) (hmem : h ∈ b.table) (hroom : b.parentsOf h + 1 < 2 ^ 32) (k : Hash) :
    (b.pin h).parentsOf k = b.parentsOf k + if h = k then 1 else 0 :=
  parentsOf_gain (getElem?_pin hh) (fun k e => by split <;> rfl) hroom hmem k

variable {child parent : Hash}

theorem refs_addEdge_of_ne (hp : b.table[parent]? = some e) (hc : (e.edges.getD []).count child ≠ Edges.maxCount)
    (hne : p ≠ parent) : (b.addEdge child parent).refs p = b.refs p :=
  refs_of_map (f := fun k e =>
    let e := if parent = k then e.addChild child else e
    if child = k then e.gainParent else e) (getElem?_addEdge hp hc) fun e => by
      simp only [hne.symm, if_false]
      split <;> rfl

theorem count_refs_addEdge (hp : b.table[parent]? = some e) (hc : (e.edges.getD []).count child ≠ Edges.maxCount)
    (k : Hash) :
    ((b.addEdge child parent).refs parent).count k = (b.refs parent).count k + if child = k then 1 else 0 := by
  have hget := getElem?_addEdge hp hc parent
  rw [hp, Option.map_some] at hget
  rw [refs_of_getElem? hp, refs_of_getElem? hget, ← Staged.count_references_addChild]
  simp only [if_true]
  split <;> rfl

theorem held_addEdge (hp : b.table[parent]? = some e) (hc : (e.edges.getD []).count child ≠ Edges.maxCount)
    (k : Hash) :
    (b.addEdge child parent).held k = b.held k + if child = k then 1 else 0 := by
  have hchange := edgesTo_change (fun p hne => refs_addEdge_of_ne hp hc hne) k
  rw [count_refs_addEdge hp hc] at hchange
  rw [held, held, (addEdge_frame b child parent).1]
  omega

theorem parentsOf_addEdge (hp : b.table[parent]? = some e) (hc : (e.edges.getD []).count child ≠ Edges.maxCount)
    (hmem : child ∈ b.table) (hroom : b.parentsOf child + 1 < 2 ^ 32) (k : Hash) :
    (b.addEdge child parent).parentsOf k = b.parentsOf k + if child = k then 1 else 0 :=
  parentsOf_gain (getElem?_addEdge hp hc)
    (fun k e => by
      by_cases hk : child = k <;> by_cases hp : parent = k <;> simp [hk, hp, Staged.gainParent, Staged.addChild])
    hroom hmem k

/-- A reference that does anything is one edge or pin more, and the child counts
it as one parent more. -/
theorem reference_gain (b : Buffer) (child parent : Hash) :
    b.reference child parent = b ∨ child ∈ b.table ∧
      (∀ k, (b.reference child parent).held k = b.held k + if child = k then 1 else 0) ∧
      (b.parentsOf child + 1 < 2 ^ 32 →
        ∀ k, (b.reference child parent).parentsOf k = b.parentsOf k + if child = k then 1 else 0) := by
  rcases reference_cases b child parent with hsame | ⟨-, -, hmem, hpin, heq⟩ | ⟨-, -, hmem, e, he, hcount, heq⟩
  · exact .inl hsame
  · rw [heq]
    exact .inr ⟨hmem, held_pin hpin, parentsOf_pin hpin hmem⟩
  · rw [heq]
    exact .inr ⟨hmem, held_addEdge he hcount, parentsOf_addEdge he hcount hmem⟩

end Buffer

end MerkleBuffer
