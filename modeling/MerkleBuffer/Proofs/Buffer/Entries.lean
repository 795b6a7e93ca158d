/-
What is staged under each hash, and what the operations on a buffer make of it.

The neighbours of a node in the order of staging are left out here: `nodeAt?`
shows a staged node without them, so that taking a node out of the buffer
changes one entry and no other (`nodeAt?_remove`, `nodeAt?_discard`). Staging a
node adds its entry and one parent for every slot that holds a staged child
(`nodeAt?_insert`).
-/
import MerkleBuffer.Buffer.References

namespace MerkleBuffer

namespace Table

theorem getElem?_insert (t : Table) (h k : Hash) (e : Staged) :
    (t.insert h e)[k]? = if h = k then some e else t[k]? := by
  rw [Std.ExtTreeMap.getElem?_insert]
  simp only [Std.LawfulEqCmp.compare_eq_iff_eq]

theorem getElem?_erase (t : Table) (h k : Hash) :
    (t.erase h)[k]? = if h = k then none else t[k]? := by
  rw [Std.ExtTreeMap.getElem?_erase]
  simp only [Std.LawfulEqCmp.compare_eq_iff_eq]

theorem getElem?_modify (t : Table) (h k : Hash) (f : Staged → Staged) :
    (t.modify h f)[k]? = (t[k]?).map fun e => if h = k then f e else e := by
  rw [Std.ExtTreeMap.getElem?_modify]
  simp only [Std.LawfulEqCmp.compare_eq_iff_eq]
  by_cases hk : h = k
  · subst hk; simp
  · simp [hk]

theorem mem_iff_getElem? {t : Table} {h : Hash} : h ∈ t ↔ ∃ e, t[h]? = some e := by
  rw [Std.ExtTreeMap.mem_iff_isSome_getElem?, Option.isSome_iff_exists]

theorem not_mem_iff_getElem? {t : Table} {h : Hash} : h ∉ t ↔ t[h]? = none := by
  rw [mem_iff_getElem?, Option.eq_none_iff_forall_ne_some]
  simp

end Table

namespace Staged

/-- A staged node without its neighbours in the order of staging. -/
def unlinked (e : Staged) : Staged := { e with prev := none, next := none }

/-- Some more parents at once. -/
def gainParents (n : Nat) (e : Staged) : Staged := { e with parents := e.parents + UInt32.ofNat n }

/-- A node as it is staged: without parents and without explicit references. -/
def fresh (size : Nat) (node : Node) : Staged := ⟨node, size, 0, none, none, none⟩

@[simp] theorem unlinked_parents (e : Staged) : e.unlinked.parents = e.parents := rfl
@[simp] theorem unlinked_references (e : Staged) : e.unlinked.references = e.references := rfl

@[simp] theorem gainParents_zero (e : Staged) : e.gainParents 0 = e := by
  simp [gainParents]

theorem gainParents_gainParent (n : Nat) (e : Staged) : e.gainParent.gainParents n = e.gainParents (n + 1) := by
  have h : e.parents + 1 + UInt32.ofNat n = e.parents + UInt32.ofNat (n + 1) := by
    rw [UInt32.add_assoc, UInt32.ofNat_add, UInt32.add_comm 1]
    rfl
  simp only [gainParents, gainParent, h]

/-- One more explicit reference to a child. -/
def addChild (child : Hash) (e : Staged) : Staged := { e with edges := some ((e.edges.getD []).add child) }

theorem embedded_subset_references {e : Staged} {c : Hash} (h : c ∈ e.embedded) : c ∈ e.references :=
  List.mem_append_right _ h

end Staged

/-- Every hash of a list gains a parent for each time it stands there. -/
theorem Table.getElem?_foldl_gainParent (l : List Hash) (t : Table) (k : Hash) :
    (l.foldl (fun t c => t.modify c Staged.gainParent) t)[k]? = (t[k]?).map (Staged.gainParents (l.count k)) := by
  induction l generalizing t with
  | nil => simp [Option.map_id', funext Staged.gainParents_zero]
  | cons c rest ih =>
    rw [List.foldl_cons, ih, Table.getElem?_modify, Option.map_map]
    congr 1
    funext e
    by_cases hc : c = k
    · subst hc
      simp [Staged.gainParents_gainParent]
    · simp [hc]

namespace Buffer

/-- What is staged under a hash, apart from its neighbours. -/
def nodeAt? (b : Buffer) (h : Hash) : Option Staged := (b.table[h]?).map Staged.unlinked

theorem mem_iff_nodeAt? {b : Buffer} {h : Hash} : h ∈ b.table ↔ ∃ e, b.nodeAt? h = some e := by
  rw [Table.mem_iff_getElem?]
  constructor
  · rintro ⟨e, he⟩
    exact ⟨e.unlinked, by simp [nodeAt?, he]⟩
  · rintro ⟨e, he⟩
    obtain ⟨e', he', -⟩ := Option.map_eq_some_iff.1 he
    exact ⟨e', he'⟩

theorem nodeAt?_eq_none {b : Buffer} {h : Hash} : b.nodeAt? h = none ↔ h ∉ b.table := by
  rw [Table.not_mem_iff_getElem?, nodeAt?, Option.map_eq_none_iff]

theorem nodeAt?_of_getElem? {b : Buffer} {h : Hash} {e : Staged} (he : b.table[h]? = some e) :
    b.nodeAt? h = some e.unlinked := by
  simp [nodeAt?, he]

/-! ## Taking nodes out -/

/-- Let `next` stand behind `p`, or at the old end if nothing stands before it. -/
def setNext (b : Buffer) (p next : Option Hash) : Buffer :=
  match p with
  | some p =>
    if b.table.contains p then { b with table := b.table.modify p fun e => { e with next } }
    else { b with oldest := next }
  | none => { b with oldest := next }

/-- Let `prev` stand before `n`, or at the new end if nothing stands behind it. -/
def setPrev (b : Buffer) (n prev : Option Hash) : Buffer :=
  match n with
  | some n =>
    if b.table.contains n then { b with table := b.table.modify n fun e => { e with prev } }
    else { b with newest := prev }
  | none => { b with newest := prev }

theorem joinNeighbours_eq (b : Buffer) (prev next : Option Hash) :
    b.joinNeighbours prev next = (b.setNext prev next).setPrev next prev := rfl

theorem getElem?_setNext (b : Buffer) (p next : Option Hash) (k : Hash) :
    (b.setNext p next).table[k]? =
      (b.table[k]?).map fun e => { e with next := if p = some k then next else e.next } := by
  cases p with
  | none => simp [setNext]
  | some p =>
    by_cases hc : b.table.contains p
    · simp only [setNext, if_pos hc, Table.getElem?_modify, Option.some.injEq]
      congr 1
      funext e
      by_cases hp : p = k <;> simp [hp]
    · simp only [setNext, if_neg hc, Option.some.injEq]
      rw [Bool.not_eq_true] at hc
      by_cases hp : p = k
      · subst hp
        rw [Std.ExtTreeMap.getElem?_eq_none_of_contains_eq_false hc]
        rfl
      · simp [hp]

theorem getElem?_setPrev (b : Buffer) (n prev : Option Hash) (k : Hash) :
    (b.setPrev n prev).table[k]? =
      (b.table[k]?).map fun e => { e with prev := if n = some k then prev else e.prev } := by
  cases n with
  | none => simp [setPrev]
  | some n =>
    by_cases hc : b.table.contains n
    · simp only [setPrev, if_pos hc, Table.getElem?_modify, Option.some.injEq]
      congr 1
      funext e
      by_cases hn : n = k <;> simp [hn]
    · simp only [setPrev, if_neg hc, Option.some.injEq]
      rw [Bool.not_eq_true] at hc
      by_cases hn : n = k
      · subst hn
        rw [Std.ExtTreeMap.getElem?_eq_none_of_contains_eq_false hc]
        rfl
      · simp [hn]

theorem ends_setNext {b : Buffer} {p : Option Hash} (hp : ∀ k, p = some k → k ∈ b.table) (next : Option Hash) :
    (b.setNext p next).oldest = (if p = none then next else b.oldest) ∧ (b.setNext p next).newest = b.newest := by
  cases p with
  | none => simp [setNext]
  | some p => simp [setNext, hp p rfl]

theorem ends_setPrev {b : Buffer} {n : Option Hash} (hn : ∀ k, n = some k → k ∈ b.table) (prev : Option Hash) :
    (b.setPrev n prev).newest = (if n = none then prev else b.newest) ∧ (b.setPrev n prev).oldest = b.oldest := by
  cases n with
  | none => simp [setPrev]
  | some n => simp [setPrev, hn n rfl]

theorem getElem?_joinNeighbours (b : Buffer) (prev next : Option Hash) (k : Hash) :
    (b.joinNeighbours prev next).table[k]? = (b.table[k]?).map fun e => { e with
      prev := if next = some k then prev else e.prev
      next := if prev = some k then next else e.next } := by
  rw [joinNeighbours_eq, getElem?_setPrev, getElem?_setNext, Option.map_map]
  rfl

/-- Joining neighbours is about the order alone. -/
theorem joinNeighbours_frame (b : Buffer) (prev next : Option Hash) :
    (b.joinNeighbours prev next).pins = b.pins ∧ (b.joinNeighbours prev next).stats = b.stats ∧
      (b.joinNeighbours prev next).preimages = b.preimages := by
  unfold joinNeighbours
  cases prev <;> cases next <;> dsimp only <;> repeat' split
  all_goals exact ⟨rfl, rfl, rfl⟩

theorem getElem?_remove (b : Buffer) (h : Hash) (e : Staged) (k : Hash) :
    (b.remove h e).table[k]? = if h = k then none else (b.table[k]?).map fun x => { x with
      prev := if e.next = some k then e.prev else x.prev
      next := if e.prev = some k then e.next else x.next } := by
  simp only [remove, getElem?_joinNeighbours, Table.getElem?_erase]
  by_cases hk : h = k <;> simp [hk]

theorem nodeAt?_remove (b : Buffer) (h : Hash) (e : Staged) (k : Hash) :
    (b.remove h e).nodeAt? k = if h = k then none else b.nodeAt? k := by
  by_cases hk : h = k
  · simp [nodeAt?, getElem?_remove, hk]
  · simp only [nodeAt?, getElem?_remove, hk, if_false, Option.map_map]
    rfl

@[simp] theorem pins_remove (b : Buffer) (h : Hash) (e : Staged) : (b.remove h e).pins = b.pins :=
  (joinNeighbours_frame _ _ _).1

@[simp] theorem stats_remove (b : Buffer) (h : Hash) (e : Staged) : (b.remove h e).stats = b.stats :=
  (joinNeighbours_frame _ _ _).2.1

@[simp] theorem preimages_remove (b : Buffer) (h : Hash) (e : Staged) : (b.remove h e).preimages = b.preimages :=
  (joinNeighbours_frame _ _ _).2.2

theorem nodeAt?_discard (b : Buffer) (h k : Hash) :
    (b.discard h).nodeAt? k = if h = k then none else b.nodeAt? k := by
  unfold discard
  split
  · next he =>
    by_cases hk : h = k
    · subst hk; simp [nodeAt?, he]
    · simp [hk]
  · next e _ => exact nodeAt?_remove b h e k

theorem discard_of_not_mem {b : Buffer} {h : Hash} (hh : h ∉ b.table) : b.discard h = b := by
  rw [Table.not_mem_iff_getElem?] at hh
  unfold discard
  split
  · rfl
  · next he => rw [hh] at he; cases he

theorem discard_frame (b : Buffer) (h : Hash) :
    (b.discard h).pins = b.pins ∧ (b.discard h).stats = b.stats ∧ (b.discard h).preimages = b.preimages := by
  unfold discard
  split
  · exact ⟨rfl, rfl, rfl⟩
  · simp

@[simp] theorem pins_discard (b : Buffer) (h : Hash) : (b.discard h).pins = b.pins := (discard_frame b h).1
@[simp] theorem stats_discard (b : Buffer) (h : Hash) : (b.discard h).stats = b.stats := (discard_frame b h).2.1
@[simp] theorem preimages_discard (b : Buffer) (h : Hash) : (b.discard h).preimages = b.preimages :=
  (discard_frame b h).2.2

/-! ## Staging -/

/-- Let the newest node of the buffer, if there is one, link to `h`. -/
def linkNewest (b : Buffer) (h : Hash) (t : Table) : Table :=
  match b.oldest, b.newest with
  | some _, some n => t.modify n fun e => { e with next := some h }
  | _, _ => t

theorem getElem?_linkNewest (b : Buffer) (h : Hash) (t : Table) (k : Hash) :
    (b.linkNewest h t)[k]? = (t[k]?).map
      fun e => { e with next := if b.oldest.isSome ∧ b.newest = some k then some h else e.next } := by
  unfold linkNewest
  cases b.oldest with
  | none => simp
  | some o =>
    cases b.newest with
    | none => simp
    | some n =>
      simp only [Table.getElem?_modify, Option.isSome_some, true_and, Option.some.injEq]
      congr 1
      funext e
      by_cases hn : n = k <;> simp [hn]

theorem insert_of_not_mem {b : Buffer} {h : Hash} (hh : h ∉ b.table) (size : Nat) (node : Node) :
    b.insert h size node = { b with
      table := b.linkNewest h (((Staged.fresh size node).embedded.foldl (fun t c => t.modify c Staged.gainParent)
        b.table).insert h { Staged.fresh size node with prev := b.newest })
      oldest := b.oldest.or (some h)
      newest := some h
      payloadSize := b.payloadSize + (Staged.fresh size node).payload } := by
  have hc : b.table.contains h = false := by
    rw [← Bool.not_eq_true, Std.ExtTreeMap.contains_iff_mem]
    exact hh
  unfold insert
  rw [hc]
  rfl

/-- The table after a node was staged under `h`: its children have gained their
parents, and the node that was the newest links to it. -/
theorem getElem?_insert {b : Buffer} {h : Hash} (hh : h ∉ b.table) (size : Nat) (node : Node) (k : Hash) :
    (b.insert h size node).table[k]? =
      (if h = k then some { Staged.fresh size node with prev := b.newest }
       else (b.table[k]?).map (Staged.gainParents ((Staged.fresh size node).embedded.count k))).map
        fun e => { e with next := if b.oldest.isSome ∧ b.newest = some k then some h else e.next } := by
  rw [insert_of_not_mem hh, getElem?_linkNewest, Table.getElem?_insert, Table.getElem?_foldl_gainParent]

/-- A newly staged node stands under its hash, and its staged children have one
parent more for every slot that holds them. -/
theorem nodeAt?_insert {b : Buffer} {h : Hash} (hh : h ∉ b.table) (size : Nat) (node : Node) (k : Hash) :
    (b.insert h size node).nodeAt? k =
      if h = k then some (Staged.fresh size node)
      else (b.nodeAt? k).map (Staged.gainParents ((Staged.fresh size node).embedded.count k)) := by
  rw [nodeAt?, getElem?_insert hh, Option.map_map]
  by_cases hk : h = k
  · simp [hk, Staged.unlinked, Staged.fresh]
  · simp only [hk, if_false, nodeAt?, Option.map_map]
    rfl

theorem mem_insert {b : Buffer} {h : Hash} (hh : h ∉ b.table) (size : Nat) (node : Node) (k : Hash) :
    k ∈ (b.insert h size node).table ↔ k = h ∨ k ∈ b.table := by
  rw [mem_iff_nodeAt?, mem_iff_nodeAt?, nodeAt?_insert hh]
  by_cases hk : h = k
  · simp [hk]
  · have hk' : k ≠ h := fun heq => hk heq.symm
    cases b.nodeAt? k <;> simp [hk, hk']

theorem insert_of_mem {b : Buffer} {h : Hash} (hh : h ∈ b.table) (size : Nat) (node : Node) :
    b.insert h size node = b := by
  have hc : b.table.contains h = true := by simpa using hh
  simp [insert, hc]

theorem insert_frame (b : Buffer) (h : Hash) (size : Nat) (node : Node) :
    (b.insert h size node).pins = b.pins ∧ (b.insert h size node).stats = b.stats ∧
      (b.insert h size node).preimages = b.preimages := by
  unfold insert
  split
  · exact ⟨rfl, rfl, rfl⟩
  · exact ⟨rfl, rfl, rfl⟩

/-! ## Pins and explicit references -/

theorem getElem?_pin {b : Buffer} {h : Hash} (hh : h ∉ b.pins) (k : Hash) :
    (b.pin h).table[k]? = (b.table[k]?).map fun e => if h = k then e.gainParent else e := by
  simp only [pin, hh, if_false, Table.getElem?_modify]

theorem pins_pin {b : Buffer} {h : Hash} (hh : h ∉ b.pins) : (b.pin h).pins = b.pins ++ [h] := by
  simp [pin, hh]

theorem addEdge_eq {b : Buffer} {child parent : Hash} {p : Staged} (hp : b.table[parent]? = some p)
    (hc : (p.edges.getD []).count child ≠ Edges.maxCount) :
    (b.addEdge child parent).table = (b.table.modify parent fun p' => { p' with
      edges := some ((p.edges.getD []).add child) }).modify child Staged.gainParent := by
  unfold addEdge
  rw [hp]
  simp only [hc, if_false]

theorem getElem?_addEdge {b : Buffer} {child parent : Hash} {p : Staged} (hp : b.table[parent]? = some p)
    (hc : (p.edges.getD []).count child ≠ Edges.maxCount) (k : Hash) :
    (b.addEdge child parent).table[k]? = (b.table[k]?).map fun e =>
      let e := if parent = k then e.addChild child else e
      if child = k then e.gainParent else e := by
  rw [addEdge_eq hp hc, Table.getElem?_modify, Table.getElem?_modify, Option.map_map]
  by_cases hk : parent = k
  · subst hk
    simp [hp, Staged.addChild]
  · simp [hk, Function.comp_def]

theorem addEdge_frame (b : Buffer) (child parent : Hash) :
    (b.addEdge child parent).pins = b.pins ∧ (b.addEdge child parent).stats = b.stats ∧
      (b.addEdge child parent).preimages = b.preimages ∧ (b.addEdge child parent).oldest = b.oldest ∧
      (b.addEdge child parent).newest = b.newest := by
  cases hp : b.table[parent]? with
  | none => simp [addEdge, hp]
  | some p =>
    by_cases hc : (p.edges.getD []).count child = Edges.maxCount <;> simp [addEdge, hp, hc]

/-- All that a reference can do: nothing, a pin of a root that has none, or an
explicit reference between two staged nodes. -/
theorem reference_cases (b : Buffer) (child parent : Hash) :
    b.reference child parent = b ∨
    (parent = Hash.zero ∧ child ≠ Hash.zero ∧ child ∈ b.table ∧ child ∉ b.pins ∧
      b.reference child parent = b.pin child) ∨
    (parent ≠ Hash.zero ∧ child ≠ parent ∧ child ∈ b.table ∧ ∃ p, b.table[parent]? = some p ∧
      (p.edges.getD []).count child ≠ Edges.maxCount ∧ b.reference child parent = b.addEdge child parent) := by
  unfold reference
  split
  · exact .inl rfl
  next hno =>
  simp only [not_or, Bool.not_eq_true, Bool.not_eq_false', Std.ExtTreeMap.contains_iff_mem] at hno
  obtain ⟨hne, hmem⟩ := hno
  split
  · next hz =>
    have hparent : parent = Hash.zero := by simpa [Hash.isZero] using hz
    by_cases hpin : child ∈ b.pins
    · exact .inl (by simp [pin, hpin])
    · exact .inr (.inl ⟨hparent, hparent ▸ hne, hmem, hpin, rfl⟩)
  · next hz =>
    have hparent : parent ≠ Hash.zero := by simpa [Hash.isZero] using hz
    cases hp : b.table[parent]? with
    | none => exact .inl (by simp [addEdge, hp])
    | some p =>
      by_cases hc : (p.edges.getD []).count child = Edges.maxCount
      · exact .inl (by simp only [addEdge, hp, hc, if_true])
      · exact .inr (.inr ⟨hparent, hne, hmem, p, rfl, hc, rfl⟩)

end Buffer

end MerkleBuffer
