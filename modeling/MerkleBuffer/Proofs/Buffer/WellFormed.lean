/-
Well-formed buffers, and what is left of a buffer after nodes went.

`WellFormed` holds of every buffer that the operations make. Releasing and
discarding leave a part of the buffer behind (`Remnant`): some of its nodes,
with their edges, in their order. `release_induct` says once what one step of
a release can do.
-/
import MerkleBuffer.Proofs.Buffer.Held
import MerkleBuffer.Proofs.Buffer.Order

namespace MerkleBuffer

/-- Explicit references that were made one by one: each child is listed once,
and with the number of times it was referenced. -/
structure Edges.WellFormed (edges : Edges) : Prop where
  nodup : (edges.map (·.1)).Nodup
  pos : ∀ x ∈ edges, 0 < x.2

namespace Buffer

variable {b b' c : Buffer} {h k : Hash} {e : Staged}

/-- The links spell out the order of staging, the meta-root is not staged, and
each explicit child and each pin is listed once. -/
structure WellFormed (b : Buffer) : Prop where
  linked : b.Linked b.flushOrder
  zero_not_mem : Hash.zero ∉ b.table
  edges : ∀ (h : Hash) (e : Staged), b.table[h]? = some e → Edges.WellFormed (e.edges.getD [])
  pins_nodup : b.pins.Nodup
  zero_not_pinned : Hash.zero ∉ b.pins

/-- `b'` is a part of `b`: its nodes are nodes of `b` with the same edges, in the
same order. -/
structure Remnant (b b' : Buffer) : Prop where
  entry : ∀ (h : Hash) (e' : Staged), b'.table[h]? = some e' →
    ∃ e : Staged, b.table[h]? = some e ∧ e'.node = e.node ∧ e'.size = e.size ∧ e'.edges = e.edges
  order : b'.flushOrder.Sublist b.flushOrder

theorem Linked.self {order : List Hash} (hl : b.Linked order) : b.Linked b.flushOrder := by
  rw [hl.flushOrder_eq]
  exact hl

/-- Two buffers that stage and pin the same: they may differ in what they count
and in preimages. -/
structure SameNodes (b b' : Buffer) : Prop where
  table : b'.table = b.table
  oldest : b'.oldest = b.oldest
  newest : b'.newest = b.newest
  pins : b'.pins = b.pins

namespace SameNodes

theorem refl (b : Buffer) : SameNodes b b := ⟨rfl, rfl, rfl, rfl⟩

theorem trans (h₁ : SameNodes b b') (h₂ : SameNodes b' c) : SameNodes b c :=
  ⟨h₂.table.trans h₁.table, h₂.oldest.trans h₁.oldest, h₂.newest.trans h₁.newest, h₂.pins.trans h₁.pins⟩

theorem insertPreimage (b : Buffer) (h : Hash) (preimage : Bytes) : SameNodes b (b.insertPreimage h preimage) := by
  unfold Buffer.insertPreimage
  split
  · exact .refl b
  · exact ⟨rfl, rfl, rfl, rfl⟩

theorem flushOrder (hs : SameNodes b b') : b'.flushOrder = b.flushOrder := by
  rw [Buffer.flushOrder, Buffer.flushOrder, inOrder, inOrder, hs.table, hs.oldest]

theorem refs (hs : SameNodes b b') (p : Hash) : b'.refs p = b.refs p := by
  rw [Buffer.refs, Buffer.refs, nodeAt?, nodeAt?, hs.table]

theorem parentsOf (hs : SameNodes b b') (k : Hash) : b'.parentsOf k = b.parentsOf k := by
  rw [Buffer.parentsOf, Buffer.parentsOf, nodeAt?, nodeAt?, hs.table]

theorem held (hs : SameNodes b b') (k : Hash) : b'.held k = b.held k := held_congr hs.refs hs.pins k

theorem linked (hs : SameNodes b b') {order : List Hash} (hl : b.Linked order) : b'.Linked order :=
  hl.congr (fun h => by rw [hs.table]) (fun h e he => ⟨e, by rw [hs.table, he], rfl, rfl⟩) hs.oldest hs.newest

theorem wellFormed (hs : SameNodes b b') (hw : b.WellFormed) : b'.WellFormed where
  linked := (hs.linked hw.linked).self
  zero_not_mem := hs.table ▸ hw.zero_not_mem
  edges := hs.table ▸ hw.edges
  pins_nodup := hs.pins ▸ hw.pins_nodup
  zero_not_pinned := hs.pins ▸ hw.zero_not_pinned

theorem remnant (hs : SameNodes b b') (hr : Remnant c b) : Remnant c b' where
  entry := hs.table ▸ hr.entry
  order := hs.flushOrder ▸ hr.order

end SameNodes

theorem Remnant.refl (b : Buffer) : Remnant b b where
  entry _ e' he' := ⟨e', he', rfl, rfl, rfl⟩
  order := .refl _

theorem Remnant.trans (h₁ : Remnant b b') (h₂ : Remnant b' c) : Remnant b c where
  entry h e'' he'' := by
    obtain ⟨e', he', hn', hs', hd'⟩ := h₂.entry h e'' he''
    obtain ⟨e, he, hn, hs, hd⟩ := h₁.entry h e' he'
    exact ⟨e, he, hn'.trans hn, hs'.trans hs, hd'.trans hd⟩
  order := h₂.order.trans h₁.order

theorem Remnant.mem (hr : Remnant b b') (hh : h ∈ b'.table) : h ∈ b.table := by
  obtain ⟨e', he'⟩ := Table.mem_iff_getElem?.1 hh
  obtain ⟨e, he, -⟩ := hr.entry h e' he'
  exact Table.mem_iff_getElem?.2 ⟨e, he⟩

theorem Remnant.refs (hr : Remnant b b') (hh : h ∈ b'.table) : b'.refs h = b.refs h := by
  obtain ⟨e', he'⟩ := Table.mem_iff_getElem?.1 hh
  obtain ⟨e, he, hnode, -, hedges⟩ := hr.entry h e' he'
  rw [refs_of_getElem? he, refs_of_getElem? he', Staged.references, Staged.references, Staged.embedded,
    Staged.embedded, hnode, hedges]

theorem WellFormed.empty : WellFormed empty where
  linked := Linked.empty.self
  zero_not_mem := by simp [Buffer.empty]
  edges h e he := by simp [Buffer.empty] at he
  pins_nodup := .nil
  zero_not_pinned := by simp [Buffer.empty]

/-- The walk and the counts follow the same edges. -/
theorem WellFormed.mem_children (hw : b.WellFormed) (he : b.table[h]? = some e) :
    k ∈ e.children ↔ k ∈ b.refs h := by
  rw [refs_of_getElem? he, Staged.children, Staged.references, List.mem_append, List.mem_append,
    Edges.mem_expand (hw.edges h e he).pos]

theorem WellFormed.mem_flushOrder (hw : b.WellFormed) : h ∈ b.flushOrder ↔ h ∈ b.table := hw.linked.mem_iff h

theorem WellFormed.remnant (hw : b.WellFormed) (hr : Remnant b b') (hl : b'.Linked b'.flushOrder)
    (hpins : b'.pins.Sublist b.pins) : b'.WellFormed where
  linked := hl
  zero_not_mem hz := hw.zero_not_mem (hr.mem hz)
  edges h e' he' := by
    obtain ⟨e, he, -, -, hedges⟩ := hr.entry h e' he'
    rw [hedges]
    exact hw.edges h e he
  pins_nodup := hpins.nodup hw.pins_nodup
  zero_not_pinned hz := hw.zero_not_pinned (hpins.subset hz)

/-! ## One node less -/

theorem flushOrder_remove (hl : b.Linked b.flushOrder) (he : b.table[h]? = some e) :
    (b.remove h e).Linked (b.flushOrder.erase h) := by
  have hh : h ∈ b.flushOrder := (hl.mem_iff h).2 (Table.mem_iff_getElem?.2 ⟨e, he⟩)
  obtain ⟨xs, ys, hs⟩ := List.append_of_mem hh
  have hnot : h ∉ xs := by
    have hnodup := hl.nodup
    rw [hs, List.nodup_append] at hnodup
    exact fun hm => hnodup.2.2 h hm h List.mem_cons_self rfl
  rw [hs] at hl ⊢
  rw [List.erase_append_right _ hnot, List.erase_cons_head]
  exact hl.remove he

theorem Remnant.remove (hl : b.Linked b.flushOrder) (he : b.table[h]? = some e) : Remnant b (b.remove h e) where
  entry k x hx := by
    rw [getElem?_remove] at hx
    split at hx
    · cases hx
    · obtain ⟨y, hy, rfl⟩ := Option.map_eq_some_iff.1 hx
      exact ⟨y, hy, rfl, rfl, rfl⟩
  order := by
    rw [(flushOrder_remove hl he).flushOrder_eq]
    exact List.erase_sublist

theorem Remnant.discard (hl : b.Linked b.flushOrder) (h : Hash) :
    Remnant b (b.discard h) ∧ (b.discard h).Linked (b.discard h).flushOrder := by
  cases he : b.table[h]? with
  | none =>
    rw [discard_of_not_mem (Table.not_mem_iff_getElem?.2 he)]
    exact ⟨.refl b, hl⟩
  | some e =>
    have hd : b.discard h = b.remove h e := by simp [Buffer.discard, he]
    rw [hd]
    exact ⟨.remove hl he, (flushOrder_remove hl he).self⟩

theorem WellFormed.discard (hw : b.WellFormed) (h : Hash) : (b.discard h).WellFormed := by
  obtain ⟨hr, hl⟩ := Remnant.discard hw.linked h
  exact hw.remnant hr hl (by rw [pins_discard])

/-! ## One node or edge more -/

theorem flushOrder_insert (hl : b.Linked b.flushOrder) (hh : h ∉ b.table) (size : Nat) (node : Node) :
    (b.insert h size node).flushOrder = b.flushOrder ++ [h] := (hl.insert hh size node).flushOrder_eq

theorem WellFormed.insert (hw : b.WellFormed) (hz : h ≠ Hash.zero) (size : Nat) (node : Node) :
    (b.insert h size node).WellFormed := by
  by_cases hh : h ∈ b.table
  · rw [insert_of_mem hh]
    exact hw
  have hpins : (b.insert h size node).pins = b.pins := (insert_frame b h size node).1
  refine ⟨(hw.linked.insert hh size node).self, ?_, fun k e' he' => ?_, hpins ▸ hw.pins_nodup,
    hpins ▸ hw.zero_not_pinned⟩
  · rw [mem_insert hh]
    exact fun hor => hor.elim (fun heq => hz heq.symm) hw.zero_not_mem
  · have hentry := nodeAt?_insert hh size node k
    rw [nodeAt?_of_getElem? he'] at hentry
    split at hentry
    · have hnone : e'.edges = none := congrArg Staged.edges (Option.some.inj hentry)
      rw [hnone]
      exact ⟨.nil, by simp⟩
    · obtain ⟨x, hx, heq⟩ := Option.map_eq_some_iff.1 hentry.symm
      obtain ⟨y, hy, rfl⟩ := Option.map_eq_some_iff.1 hx
      have hedges : e'.edges = y.edges := (congrArg Staged.edges heq).symm
      rw [hedges]
      exact hw.edges k y hy

theorem linked_reference (hl : b.Linked b.flushOrder) (child parent : Hash) :
    (b.reference child parent).Linked b.flushOrder := by
  rcases reference_cases b child parent with heq | ⟨-, -, -, hpin, heq⟩ | ⟨-, -, -, e, he, hcount, heq⟩
  · rwa [heq]
  · rw [heq]
    exact hl.map (f := fun k e => if child = k then e.gainParent else e) (getElem?_pin hpin)
      (fun k e => by split <;> exact ⟨rfl, rfl⟩) (by simp [pin, hpin]) (by simp [pin, hpin])
  · rw [heq]
    obtain ⟨-, -, -, hold, hnew⟩ := addEdge_frame b child parent
    exact hl.map (getElem?_addEdge he hcount)
      (fun k e => by by_cases hc : child = k <;> by_cases hp : parent = k <;>
        simp [hc, hp, Staged.gainParent, Staged.addChild]) hold hnew

theorem flushOrder_reference (hl : b.Linked b.flushOrder) (child parent : Hash) :
    (b.reference child parent).flushOrder = b.flushOrder := (linked_reference hl child parent).flushOrder_eq

theorem getElem?_reference (b : Buffer) (child parent k : Hash) :
    (∀ e : Staged, b.table[k]? = some e →
      ∃ e' : Staged, (b.reference child parent).table[k]? = some e' ∧ e'.node = e.node ∧
      (e'.edges = e.edges ∨ e'.edges = some ((e.edges.getD []).add child))) ∧
    (b.table[k]? = none → (b.reference child parent).table[k]? = none) := by
  rcases reference_cases b child parent with heq | ⟨-, -, -, hpin, heq⟩ | ⟨-, -, -, p, hp, hcount, heq⟩
  · rw [heq]
    exact ⟨fun e he => ⟨e, he, rfl, .inl rfl⟩, id⟩
  · rw [heq, getElem?_pin hpin]
    refine ⟨fun e he => ⟨_, by rw [he]; rfl, ?_⟩, fun hnone => by rw [hnone]; rfl⟩
    split
    · exact ⟨rfl, .inl rfl⟩
    · exact ⟨rfl, .inl rfl⟩
  · rw [heq, getElem?_addEdge hp hcount]
    refine ⟨fun e he => ⟨_, by rw [he]; rfl, ?_⟩, fun hnone => by rw [hnone]; rfl⟩
    by_cases hc : child = k <;> by_cases hpk : parent = k <;> simp [hc, hpk, Staged.gainParent, Staged.addChild]

theorem mem_reference (b : Buffer) (child parent k : Hash) :
    k ∈ (b.reference child parent).table ↔ k ∈ b.table := by
  obtain ⟨hsome, hnone⟩ := getElem?_reference b child parent k
  constructor
  · intro hk
    by_contra hno
    rw [Table.not_mem_iff_getElem?] at hno
    exact Table.not_mem_iff_getElem?.2 (hnone hno) hk
  · intro hk
    obtain ⟨e, he⟩ := Table.mem_iff_getElem?.1 hk
    obtain ⟨e', he', -⟩ := hsome e he
    exact Table.mem_iff_getElem?.2 ⟨e', he'⟩

/-- A reference adds itself to what its parent points to. -/
theorem mem_refs_reference {child parent p : Hash} (hk : k ∈ (b.reference child parent).refs p) :
    k ∈ b.refs p ∨ p = parent ∧ k = child ∧ parent ≠ Hash.zero ∧ child ≠ parent ∧ child ∈ b.table ∧
      parent ∈ b.table := by
  rcases reference_cases b child parent with heq | ⟨-, -, -, hpin, heq⟩ | ⟨hz, hne, hmem, e, he, hcount, heq⟩
  · exact .inl (heq ▸ hk)
  · rw [heq, refs_of_map (f := fun k e => if child = k then e.gainParent else e) (getElem?_pin hpin)
      fun e => by split <;> simp] at hk
    exact .inl hk
  · rw [heq] at hk
    by_cases hp : p = parent
    · subst hp
      have hpos := List.count_pos_iff.2 hk
      rw [count_refs_addEdge he hcount] at hpos
      by_cases hkc : child = k
      · exact .inr ⟨rfl, hkc.symm, hz, hne, hmem, Table.mem_iff_getElem?.2 ⟨e, he⟩⟩
      · rw [if_neg hkc, Nat.add_zero] at hpos
        exact .inl (List.count_pos_iff.1 hpos)
    · rw [refs_addEdge_of_ne he hcount hp] at hk
      exact .inl hk

theorem refs_reference_zero (b : Buffer) (child p : Hash) : (b.reference child Hash.zero).refs p = b.refs p := by
  rcases reference_cases b child Hash.zero with heq | ⟨-, -, -, hpin, heq⟩ | ⟨hz, -⟩
  · rw [heq]
  · rw [heq]
    exact refs_of_map (f := fun k e => if child = k then e.gainParent else e) (getElem?_pin hpin)
      fun e => by split <;> simp
  · exact absurd rfl hz

theorem parentsOf_reference_of_ne {child parent : Hash} (hne : k ≠ child) :
    (b.reference child parent).parentsOf k = b.parentsOf k := by
  rcases reference_cases b child parent with heq | ⟨-, -, -, hpin, heq⟩ | ⟨-, -, -, e, he, hcount, heq⟩
  · rw [heq]
  · have hget := getElem?_pin hpin k
    simp only [hne.symm, if_false, Option.map_id'] at hget
    rw [heq, parentsOf, parentsOf, nodeAt?, nodeAt?, hget]
  · have hget := getElem?_addEdge he hcount k
    simp only [hne.symm, if_false] at hget
    rw [heq, parentsOf, parentsOf, nodeAt?, nodeAt?, hget, Option.map_map, Option.map_map, Option.map_map]
    congr 2
    funext x
    simp only [Function.comp_apply]
    split <;> rfl

theorem mem_pins_reference_zero {child : Hash} (hz : child ≠ Hash.zero) (hmem : child ∈ b.table) :
    child ∈ (b.reference child Hash.zero).pins := by
  have heq : b.reference child Hash.zero = b.pin child := by
    simp [reference, hz, hmem, Hash.isZero]
  rw [heq]
  by_cases hpin : child ∈ b.pins
  · simp [pin, hpin]
  · simp [pins_pin hpin]

theorem pins_subset_reference (b : Buffer) (child parent : Hash) : b.pins ⊆ (b.reference child parent).pins := by
  intro k hk
  rcases reference_cases b child parent with heq | ⟨-, -, -, hpin, heq⟩ | ⟨-, -, -, e, he, hcount, heq⟩
  · rwa [heq]
  · rw [heq, pins_pin hpin]
    exact List.mem_append_left _ hk
  · rwa [heq, (addEdge_frame b child parent).1]

theorem stats_reference (b : Buffer) (child parent : Hash) : (b.reference child parent).stats = b.stats := by
  rcases reference_cases b child parent with heq | ⟨-, -, -, hpin, heq⟩ | ⟨-, -, -, e, he, hcount, heq⟩
  · rw [heq]
  · rw [heq, pin, if_neg hpin]
  · rw [heq, (addEdge_frame b child parent).2.1]

theorem preimages_reference (b : Buffer) (child parent : Hash) :
    (b.reference child parent).preimages = b.preimages := by
  rcases reference_cases b child parent with heq | ⟨-, -, -, hpin, heq⟩ | ⟨-, -, -, e, he, hcount, heq⟩
  · rw [heq]
  · rw [heq, pin, if_neg hpin]
  · rw [heq, (addEdge_frame b child parent).2.2.1]

theorem pins_reference (b : Buffer) (child parent : Hash) : (b.reference child parent).pins = b.pins ∨
    parent = Hash.zero ∧ child ≠ Hash.zero ∧ child ∉ b.pins ∧
      (b.reference child parent).pins = b.pins ++ [child] := by
  rcases reference_cases b child parent with heq | ⟨hz, hne, -, hpin, heq⟩ | ⟨-, -, -, p, hp, hcount, heq⟩
  · exact .inl (by rw [heq])
  · exact .inr ⟨hz, hne, hpin, by rw [heq, pins_pin hpin]⟩
  · exact .inl (by rw [heq, (addEdge_frame b child parent).1])

theorem WellFormed.reference (hw : b.WellFormed) (child parent : Hash) : (b.reference child parent).WellFormed where
  linked := (linked_reference hw.linked child parent).self
  zero_not_mem := by
    rw [mem_reference]
    exact hw.zero_not_mem
  edges k e' he' := by
    obtain ⟨hsome, hnone⟩ := getElem?_reference b child parent k
    cases he : b.table[k]? with
    | none => rw [hnone he] at he'; cases he'
    | some e =>
      obtain ⟨e'', he'', -, hedges⟩ := hsome e he
      rw [he', Option.some.injEq] at he''
      subst he''
      have hold := hw.edges k e he
      rcases hedges with hedges | hedges
      · rwa [hedges]
      · rw [hedges]
        exact ⟨(Edges.nodup_add child hold.nodup).1, Edges.pos_add hold.pos⟩
  pins_nodup := by
    rcases pins_reference b child parent with hp | ⟨-, -, hpin, hp⟩
    · rw [hp]
      exact hw.pins_nodup
    · rw [hp, List.nodup_append]
      exact ⟨hw.pins_nodup, List.nodup_singleton _, fun a ha c hc => by
        rw [List.mem_singleton.1 hc]
        exact fun heq => hpin (heq ▸ ha)⟩
  zero_not_pinned := by
    rcases pins_reference b child parent with hp | ⟨-, hne, -, hp⟩
    · rw [hp]
      exact hw.zero_not_pinned
    · rw [hp]
      simp [hw.zero_not_pinned, hne.symm]

/-! ## Releases -/

/-- **One step of a release.** Whatever these four steps keep holds when nothing
is pending any more: a hash that is not staged is passed over, a node whose last
parent lets go of it leaves and hands over its references, so does a node whose
count is at zero already, and any other node has one parent less. -/
theorem release_induct {I : Buffer → List Hash → Prop}
    (skip : ∀ b h rest, h ∉ b.table → I b (h :: rest) → I b rest)
    (clamp : ∀ (b : Buffer) h (e : Staged) rest, b.table[h]? = some e → e.parents = 0 → I b (h :: rest) →
      I (b.countClamped.remove h e) (e.references ++ rest))
    (leave : ∀ (b : Buffer) h (e : Staged) rest, b.table[h]? = some e → e.parents = 1 → I b (h :: rest) →
      I (b.remove h e) (e.references ++ rest))
    (lower : ∀ (b : Buffer) h (e : Staged) rest, b.table[h]? = some e → e.parents ≠ 0 → e.parents ≠ 1 →
      I b (h :: rest) →
      I { b with table := b.table.modify h Staged.loseParent } rest)
    (b : Buffer) (pending : List Hash) (hstart : I b pending) : I (b.release pending) [] := by
  fun_induction release b pending with
  | case1 b => exact hstart
  | case2 b h rest hnone ih => exact ih (skip b h rest (Table.not_mem_iff_getElem?.2 hnone) hstart)
  | case3 b h rest e he hzero ih => exact ih (clamp b h e rest he hzero hstart)
  | case4 b h rest e he hzero hone ih => exact ih (leave b h e rest he hone hstart)
  | case5 b h rest e he hzero hone ih => exact ih (lower b h e rest he hzero hone hstart)

theorem release_cons {rest : List Hash} (he : b.table[h]? = some e) (hone : e.parents = 1) :
    b.release (h :: rest) = (b.remove h e).release (e.references ++ rest) := by
  rw [release]
  split
  · next hnone => rw [he] at hnone; cases hnone
  · next e' he' =>
    obtain rfl : e = e' := Option.some.inj (he.symm.trans he')
    simp [hone]

theorem getElem?_lower (b : Buffer) (h k : Hash) :
    ({ b with table := b.table.modify h Staged.loseParent } : Buffer).table[k]? =
      (b.table[k]?).map fun e => if h = k then e.loseParent else e := Table.getElem?_modify ..

theorem Linked.lower {order : List Hash} (hl : b.Linked order) (h : Hash) :
    ({ b with table := b.table.modify h Staged.loseParent } : Buffer).Linked order :=
  hl.map (getElem?_lower b h) (fun k e => by split <;> exact ⟨rfl, rfl⟩) rfl rfl

theorem Remnant.lower (hl : b.Linked b.flushOrder) (h : Hash) :
    Remnant b { b with table := b.table.modify h Staged.loseParent } where
  entry k e' he' := by
    rw [getElem?_lower] at he'
    obtain ⟨e, he, rfl⟩ := Option.map_eq_some_iff.1 he'
    refine ⟨e, he, ?_⟩
    split <;> exact ⟨rfl, rfl, rfl⟩
  order := by
    rw [(hl.lower h).flushOrder_eq]

/-- A release leaves a part of the buffer, with the pins and preimages as they
were. -/
theorem remnant_release (hl : b.Linked b.flushOrder) (pending : List Hash) :
    Remnant b (b.release pending) ∧ (b.release pending).Linked (b.release pending).flushOrder ∧
      (b.release pending).pins = b.pins ∧ (b.release pending).preimages = b.preimages := by
  refine release_induct
    (I := fun c _ => Remnant b c ∧ c.Linked c.flushOrder ∧ c.pins = b.pins ∧ c.preimages = b.preimages)
    (fun c h rest _ hI => hI) (fun c h e rest he _ hI => ?_) (fun c h e rest he _ hI => ?_)
    (fun c h e rest he _ _ hI => ?_) b pending ⟨.refl b, hl, rfl, rfl⟩
  · obtain ⟨hr, hlc, hpins, hpre⟩ := hI
    have hsame : SameNodes c c.countClamped := ⟨rfl, rfl, rfl, rfl⟩
    have hlc' := (hsame.linked hlc).self
    exact ⟨(hsame.remnant hr).trans (.remove hlc' he), (flushOrder_remove hlc' he).self,
      by rw [pins_remove]; exact hpins, by rw [preimages_remove]; exact hpre⟩
  · obtain ⟨hr, hlc, hpins, hpre⟩ := hI
    exact ⟨hr.trans (.remove hlc he), (flushOrder_remove hlc he).self, by rw [pins_remove, hpins],
      by rw [preimages_remove, hpre]⟩
  · obtain ⟨hr, hlc, hpins, hpre⟩ := hI
    exact ⟨hr.trans (.lower hlc h), (hlc.lower h).self, hpins, hpre⟩

/-- What a dereference leaves: a part of the buffer, and all pins but the one
on `root`. -/
theorem remnant_dereference (hl : b.Linked b.flushOrder) (root : Hash) :
    Remnant b (b.dereference root) ∧ (b.dereference root).Linked (b.dereference root).flushOrder ∧
      (b.dereference root).pins = b.pins.erase root ∧ (b.dereference root).preimages = b.preimages := by
  have hunpin : Remnant b (b.unpin root) ∧ (b.unpin root).Linked (b.unpin root).flushOrder ∧
      (b.unpin root).pins = b.pins.erase root ∧ (b.unpin root).preimages = b.preimages := by
    unfold unpin
    split
    · have hl' : ({ b with
          pins := b.pins.erase root
          edgesSize := b.edgesSize - ByteSize.ofNat Staged.edgeSize } : Buffer).Linked b.flushOrder :=
        hl.congr (fun _ => Iff.rfl) (fun _ e he => ⟨e, he, rfl, rfl⟩) rfl rfl
      obtain ⟨hr, hlr, hpins, hpre⟩ := remnant_release hl'.self [root]
      exact ⟨⟨hr.entry, hr.order⟩, hlr, hpins, hpre⟩
    · next hpin =>
      rw [List.erase_of_not_mem hpin]
      exact remnant_release hl [root]
  have hsame : SameNodes (b.unpin root) (b.dereference root) := ⟨rfl, rfl, rfl, rfl⟩
  obtain ⟨hr, hlr, hpins, hpre⟩ := hunpin
  exact ⟨hsame.remnant hr, (hsame.linked hlr).self, hpins, hpre⟩

theorem WellFormed.dereference (hw : b.WellFormed) (root : Hash) : (b.dereference root).WellFormed := by
  obtain ⟨hr, hl, hpins, -⟩ := remnant_dereference hw.linked root
  exact hw.remnant hr hl (by rw [hpins]; exact List.erase_sublist)

end Buffer

end MerkleBuffer
