/-
New nodes on top of a buffer, and how they go again.

`OnTop b new`: none of the nodes `new` is staged in `b`, nothing in `b` holds one of them,
and none of them points to one that comes after it. Staging them leaves the old nodes with
their own references and adds the new ones at the end of the order. Apart from the counts,
dropping the new nodes again leaves `b` (`OnTop.recounted`).

If the new nodes can all be reached from a root among them, and each old node counts a
parent, then the new nodes are the least set that is closed under the release of that root
(`OnTop.isLeast`). So pinning and dereferencing the root takes back the counts as well
(`OnTop.dereference`).
-/
import MerkleBuffer.Proofs.Buffer.Cascade

namespace MerkleBuffer

namespace Buffer

variable {b b' c : Buffer} {h k root : Hash} {x : Hash × Nat × Node} {nodes new rest : List (Hash × Nat × Node)}

/-! ## The same buffer but for the counts -/

theorem Recounted.trans (h₁ : Recounted b b') (h₂ : Recounted b' c) : Recounted b c where
  entry k := (h₂.entry k).trans (h₁.entry k)
  linked := h₁.flushOrder ▸ h₂.linked
  pins := h₂.pins.trans h₁.pins
  preimages := h₂.preimages.trans h₁.preimages
  payloadSize := h₂.payloadSize.trans h₁.payloadSize
  edgesSize := h₂.edgesSize.trans h₁.edgesSize
  preimagesSize := h₂.preimagesSize.trans h₁.preimagesSize

theorem Recounted.discard (hr : Recounted b b') (hl : b.Linked b.flushOrder) (h : Hash) :
    Recounted (b.discard h) (b'.discard h) := by
  cases he : b'.table[h]? with
  | none =>
    have hh : h ∉ b'.table := Table.not_mem_iff_getElem?.2 he
    rwa [discard_of_not_mem hh, discard_of_not_mem (mt hr.mem.2 hh)]
  | some e =>
    have hd : b'.discard h = b'.remove h e := by simp only [Buffer.discard, he]
    rw [hd]
    exact hr.remove hl he

theorem Recounted.discards (hr : Recounted b b') (hl : b.Linked b.flushOrder) (hs : List Hash) :
    Recounted (b.discards hs) (b'.discards hs) := by
  induction hs generalizing b b' with
  | nil => exact hr
  | cons h rest ih => exact ih (hr.discard hl h) (Remnant.discard hl h).2

/-! ## Other byte totals -/

/-- A buffer with other totals of payload and references. -/
def resized (b : Buffer) (payload edges : ByteSize) : Buffer := { b with payloadSize := payload, edgesSize := edges }

variable {payload edges : ByteSize}

theorem Linked.resized (hl : b.Linked b.flushOrder) (payload edges : ByteSize) :
    (b.resized payload edges).Linked (b.resized payload edges).flushOrder :=
  (hl.congr (fun _ => .rfl) (fun _ e he => ⟨e, he, rfl, rfl⟩) rfl rfl : (b.resized payload edges).Linked b.flushOrder)

/-- How often a hash is let go of is about references alone. -/
theorem Recounted.drops_eq (hr : Recounted (b.resized payload edges) c) (root : Hash) (gone : Finset Hash) (k : Hash) :
    c.drops {root} gone k = (if root = k then 1 else 0) + ∑ p ∈ gone, (b.refs p).count k := by
  have hrefs : ∀ p, c.refs p = b.refs p := hr.refs
  rw [drops, Multiset.count_singleton]
  simp only [hrefs, eq_comm (a := k)]

/-- A node that was staged and dropped has left its mark on the counts alone, and its bytes
are off the total. -/
theorem recounted_insert_discard (hl : b.Linked b.flushOrder) (hh : h ∉ b.table) (size : Nat) (node : Node)
    (payload edges : ByteSize) :
    Recounted (b.resized (payload - ByteSize.ofNat (Hash.size + size)) edges)
      (((b.insert h size node).resized payload edges).discard h) := by
  have hl' : ((b.insert h size node).resized payload edges).Linked
      ((b.insert h size node).resized payload edges).flushOrder := (hl.insert hh size node).self.resized payload edges
  obtain ⟨hpins, -, hpreimages⟩ := b.insert_frame h size node
  obtain ⟨-, -, hpre⟩ := sizes_insert hh size node
  obtain ⟨hpayload', hedges', hpre'⟩ := sizes_discard ((b.insert h size node).resized payload edges) h
  have hnew : ((b.insert h size node).resized payload edges).nodeAt? h = some (Staged.fresh size node) := by
    show (b.insert h size node).nodeAt? h = _
    rw [nodeAt?_insert hh, if_pos rfl]
  rw [hnew] at hpayload' hedges'
  have horder : (((b.insert h size node).resized payload edges).discard h).flushOrder = b.flushOrder := by
    have hno : h ∉ b.flushOrder := mt (hl.mem_iff h).1 hh
    rw [flushOrder_discard hl']
    show (b.insert h size node).flushOrder.erase h = _
    rw [flushOrder_insert hl hh, List.erase_append_right _ hno, List.erase_cons_head, List.append_nil]
  have hlinked := (Remnant.discard hl' h).2
  rw [horder] at hlinked
  refine ⟨fun k => ?_, hlinked, ?_, ?_, hpayload', ?_, hpre'.trans hpre⟩
  · show ((((b.insert h size node).resized payload edges).discard h).nodeAt? k).map _ = (b.nodeAt? k).map _
    rw [nodeAt?_discard]
    show (if h = k then none else (b.insert h size node).nodeAt? k).map _ = _
    rw [nodeAt?_insert hh]
    by_cases hk : h = k
    · rw [if_pos hk, nodeAt?_eq_none.2 (hk ▸ hh)]
    · rw [if_neg hk, if_neg hk, Option.map_map]
      rfl
  · rw [pins_discard]
    exact hpins
  · rw [preimages_discard]
    exact hpreimages
  · rw [hedges']
    ext
    rw [Option.elim_some, ByteSize.bytes_sub]
    rfl

/-! ## Staging nodes -/

/-- Stage nodes one after another, each with its hash and the bytes it is charged for. -/
def stageAll (b : Buffer) (nodes : List (Hash × Nat × Node)) : Buffer :=
  nodes.foldl (fun b x => b.insert x.1 x.2.1 x.2.2) b

theorem stageAll_cons (b : Buffer) (x : Hash × Nat × Node) (rest : List (Hash × Nat × Node)) :
    b.stageAll (x :: rest) = (b.insert x.1 x.2.1 x.2.2).stageAll rest := rfl

/-- Those of some nodes that are not staged yet. -/
def newOf (b : Buffer) (nodes : List (Hash × Nat × Node)) : List (Hash × Nat × Node) :=
  nodes.filter fun x => x.1 ∉ b.table

theorem mem_newOf : x ∈ b.newOf nodes ↔ x ∈ nodes ∧ x.1 ∉ b.table := by simp [newOf]

/-- Staging some nodes is staging the new ones. -/
theorem stageAll_newOf (hnodup : (nodes.map (·.1)).Nodup) : b.stageAll nodes = b.stageAll (b.newOf nodes) := by
  induction nodes generalizing b with
  | nil => rfl
  | cons x rest ih =>
    obtain ⟨hx, hrest⟩ := List.nodup_cons.1 hnodup
    by_cases hh : x.1 ∈ b.table
    · rw [stageAll_cons, insert_of_mem hh, newOf, List.filter_cons_of_neg (by simpa using hh)]
      exact ih hrest
    · have hsame : (b.insert x.1 x.2.1 x.2.2).newOf rest = b.newOf rest := by
        refine List.filter_congr fun y hy => ?_
        have hne : y.1 ≠ x.1 := fun heq => hx (List.mem_map.2 ⟨y, hy, heq⟩)
        simp [mem_insert hh, hne]
      rw [stageAll_cons, newOf, List.filter_cons_of_pos (by simpa using hh), stageAll_cons, ih hrest, hsame, newOf]

theorem stageAll_frame (b : Buffer) (nodes : List (Hash × Nat × Node)) :
    (b.stageAll nodes).pins = b.pins ∧ (b.stageAll nodes).stats = b.stats ∧
      (b.stageAll nodes).preimages = b.preimages := by
  induction nodes generalizing b with
  | nil => exact ⟨rfl, rfl, rfl⟩
  | cons x rest ih =>
    obtain ⟨hpins, hstats, hpreimages⟩ := b.insert_frame x.1 x.2.1 x.2.2
    obtain ⟨hpins', hstats', hpreimages'⟩ := ih (b.insert x.1 x.2.1 x.2.2)
    exact ⟨hpins'.trans hpins, hstats'.trans hstats, hpreimages'.trans hpreimages⟩

theorem held_le_stageAll (b : Buffer) (nodes : List (Hash × Nat × Node)) (k : Hash) :
    b.held k ≤ (b.stageAll nodes).held k := by
  induction nodes generalizing b with
  | nil => exact Nat.le_refl _
  | cons x rest ih =>
    refine Nat.le_trans ?_ (ih (b.insert x.1 x.2.1 x.2.2))
    by_cases hh : x.1 ∈ b.table
    · rw [insert_of_mem hh]
    · rw [held_insert hh]
      exact Nat.le_add_right _ _

/-! ## New nodes on top -/

/-- The bytes of the encodings of some nodes with their hashes. -/
def payloadOf (nodes : List (Hash × Nat × Node)) : Nat := total (nodes.map fun x => Hash.size + x.2.1)

/-- Nodes that are new to a buffer, nothing in which holds them. None of them points to
one that comes after it, or to itself. -/
structure OnTop (b : Buffer) (new : List (Hash × Nat × Node)) : Prop where
  nodup : (new.map (·.1)).Nodup
  fresh : ∀ x ∈ new, x.1 ∉ b.table
  unheld : ∀ x ∈ new, b.held x.1 = 0
  childrenFirst : new.Pairwise fun x y => y.1 ∉ x.2.2.kids
  loopless : ∀ x ∈ new, x.1 ∉ x.2.2.kids

namespace OnTop

/-- When the first node is staged, the others are still on top. -/
theorem tail (ho : OnTop b (x :: rest)) : OnTop (b.insert x.1 x.2.1 x.2.2) rest := by
  obtain ⟨hx, hrest⟩ := List.nodup_cons.1 ho.nodup
  obtain ⟨hfresh, hfreshRest⟩ := List.forall_mem_cons.1 ho.fresh
  obtain ⟨-, hunheldRest⟩ := List.forall_mem_cons.1 ho.unheld
  obtain ⟨hfirst, hfirstRest⟩ := List.pairwise_cons.1 ho.childrenFirst
  obtain ⟨-, hloopless⟩ := List.forall_mem_cons.1 ho.loopless
  refine ⟨hrest, fun y hy hmem => ?_, fun y hy => ?_, hfirstRest, hloopless⟩
  · rcases (mem_insert hfresh _ _ _).1 hmem with heq | hmem
    · exact hx (List.mem_map.2 ⟨y, hy, heq⟩)
    · exact hfreshRest y hy hmem
  · rw [held_insert hfresh, hunheldRest y hy, List.count_eq_zero.2 (hfirst y hy)]

theorem mem_stageAll (ho : OnTop b new) : k ∈ (b.stageAll new).table ↔ k ∈ b.table ∨ k ∈ new.map (·.1) := by
  induction new generalizing b with
  | nil => simp [stageAll]
  | cons x rest ih =>
    rw [stageAll_cons, ih ho.tail, mem_insert (ho.fresh x List.mem_cons_self), List.map_cons, List.mem_cons]
    tauto

theorem refs_of_mem (ho : OnTop b new) (hk : k ∈ b.table) : (b.stageAll new).refs k = b.refs k := by
  induction new generalizing b with
  | nil => rfl
  | cons x rest ih =>
    have hfresh := ho.fresh x List.mem_cons_self
    have hne : x.1 ≠ k := fun heq => hfresh (heq ▸ hk)
    rw [stageAll_cons, ih ho.tail ((mem_insert hfresh _ _ _).2 (.inr hk)), refs_insert hfresh, if_neg hne]

theorem refs_of_new (ho : OnTop b new) (hx : x ∈ new) : (b.stageAll new).refs x.1 = x.2.2.kids := by
  induction new generalizing b with
  | nil => cases hx
  | cons y rest ih =>
    have hfresh := ho.fresh y List.mem_cons_self
    rcases List.mem_cons.1 hx with rfl | hx
    · rw [stageAll_cons, ho.tail.refs_of_mem ((mem_insert hfresh _ _ _).2 (.inl rfl)), refs_insert hfresh, if_pos rfl]
    · exact ih ho.tail hx

theorem linked (ho : OnTop b new) (hl : b.Linked b.flushOrder) :
    (b.stageAll new).Linked (b.flushOrder ++ new.map (·.1)) := by
  induction new generalizing b with
  | nil => rwa [List.map_nil, List.append_nil]
  | cons x rest ih =>
    have hfresh := ho.fresh x List.mem_cons_self
    have hrest := ih ho.tail (hl.insert hfresh x.2.1 x.2.2).self
    rwa [flushOrder_insert hl hfresh, List.append_assoc] at hrest

theorem length_stageAll (ho : OnTop b new) (hl : b.Linked b.flushOrder) :
    (b.stageAll new).length = b.length + new.length := by
  rw [length, length, ← (ho.linked hl).length, ← hl.length, List.length_append, List.length_map]

theorem payloadSize_stageAll (ho : OnTop b new) :
    (b.stageAll new).payloadSize = b.payloadSize + ByteSize.ofNat (payloadOf new) := by
  induction new generalizing b with
  | nil =>
    have hroom : b.payloadSize.bytes + 0 < UInt64.size := b.payloadSize.lt_max
    ext
    exact (ByteSize.bytes_add_ofNat hroom).symm
  | cons x rest ih =>
    obtain ⟨hpayload, -⟩ := sizes_insert (ho.fresh x List.mem_cons_self) x.2.1 x.2.2
    rw [stageAll_cons, ih ho.tail, hpayload, ByteSize.add_ofNat_add_ofNat]
    rfl

theorem edgesSize_stageAll (ho : OnTop b new) : (b.stageAll new).edgesSize = b.edgesSize := by
  induction new generalizing b with
  | nil => rfl
  | cons x rest ih => rw [stageAll_cons, ih ho.tail, (sizes_insert (ho.fresh x List.mem_cons_self) _ _).2.1]

/-- **Apart from the counts, new nodes go without a trace**, the last one first, and their
bytes with them. -/
theorem recounted (ho : OnTop b new) (hl : b.Linked b.flushOrder) (payload edges : ByteSize) :
    Recounted (b.resized (payload - ByteSize.ofNat (payloadOf new)) edges)
      (((b.stageAll new).resized payload edges).discards (new.map (·.1)).reverse) := by
  induction new generalizing b with
  | nil =>
    have hnone : payload - ByteSize.ofNat (payloadOf []) = payload := rfl
    rw [hnone]
    exact .refl (hl.resized payload edges)
  | cons x rest ih =>
    have hfresh := ho.fresh x List.mem_cons_self
    have hl' := (hl.insert hfresh x.2.1 x.2.2).self
    have hrest := (ih ho.tail hl').discard (hl'.resized _ edges) x.1
    have hfirst := recounted_insert_discard hl hfresh x.2.1 x.2.2 (payload - ByteSize.ofNat (payloadOf rest)) edges
    rw [ByteSize.sub_ofNat_sub_ofNat, Nat.add_comm] at hfirst
    rw [stageAll_cons, List.map_cons, List.reverse_cons, discards_append]
    exact hfirst.trans hrest

theorem exact (ho : OnTop b new) (hx : Exact b [])
    (hlt : ∀ k ∈ (b.stageAll new).table, (b.stageAll new).held k < 2 ^ 32) : Exact (b.stageAll new) [] := by
  induction new generalizing b with
  | nil => exact hx
  | cons x rest ih =>
    have hfresh := ho.fresh x List.mem_cons_self
    have hroom : HasRoom b (b.insert x.1 x.2.1 x.2.2) :=
      hx.hasRoom fun k hk => Nat.lt_of_le_of_lt (held_le_stageAll _ rest k) (hlt k (ho.mem_stageAll.2 (.inl hk)))
    exact ih ho.tail (hx.insert hfresh hroom (ho.unheld x List.mem_cons_self) (ho.loopless x List.mem_cons_self)) hlt

/-! ## What holds the nodes -/

theorem staged_stageAll (ho : OnTop b new) : (b.stageAll new).staged = b.staged ∪ (new.map (·.1)).toFinset := by
  ext k
  rw [Finset.mem_union, mem_staged, mem_staged, ho.mem_stageAll, List.mem_toFinset]

theorem held_stageAll (ho : OnTop b new) (k : Hash) :
    (b.stageAll new).held k = b.held k + ∑ p ∈ (new.map (·.1)).toFinset, ((b.stageAll new).refs p).count k := by
  have hdisjoint : Disjoint b.staged (new.map (·.1)).toFinset := by
    rw [Finset.disjoint_left]
    intro p hp hnew
    obtain ⟨x, hx, rfl⟩ := List.mem_map.1 (List.mem_toFinset.1 hnew)
    exact ho.fresh x hx (mem_staged.1 hp)
  have hold : ∑ p ∈ b.staged, ((b.stageAll new).refs p).count k = b.edgesTo k :=
    Finset.sum_congr rfl fun p hp => by rw [ho.refs_of_mem (mem_staged.1 hp)]
  rw [held, held, edgesTo, ho.staged_stageAll, Finset.sum_union hdisjoint, hold, (stageAll_frame b new).1]
  omega

/-- Only new nodes that come later point to a new node. -/
theorem later_of_mem_refs {xs ys : List (Hash × Nat × Node)} (ho : OnTop b (xs ++ x :: ys)) {p : Hash}
    (hp : x.1 ∈ (b.stageAll (xs ++ x :: ys)).refs p) : p ∈ ys.map (·.1) := by
  have hx : x ∈ xs ++ x :: ys := List.mem_append_right _ List.mem_cons_self
  rcases ho.mem_stageAll.1 (mem_of_mem_refs hp) with hold | hnew
  · -- an old node holds none of the new ones
    rw [ho.refs_of_mem hold] at hp
    have hpos := held_pos_of_mem_refs hp
    rw [ho.unheld x hx] at hpos
    exact absurd hpos (Nat.lt_irrefl 0)
  · obtain ⟨y, hy, rfl⟩ := List.mem_map.1 hnew
    rw [ho.refs_of_new hy] at hp
    rcases List.mem_append.1 hy with hy | hy
    · exact absurd hp ((List.pairwise_append.1 ho.childrenFirst).2.2 y hy x List.mem_cons_self)
    · rcases List.mem_cons.1 hy with rfl | hy
      · exact absurd hp (ho.loopless y hx)
      · exact List.mem_map_of_mem hy

/-! ## Pinning and dereferencing a root -/

end OnTop

/-- A pin that is taken off at once leaves its count behind. -/
theorem recounted_pin_cut (hl : b.Linked b.flushOrder) (hroot : root ∉ b.pins) :
    Recounted (b.resized b.payloadSize
      (b.edgesSize + ByteSize.ofNat Staged.edgeSize - ByteSize.ofNat Staged.edgeSize)) ((b.pin root).cut root) := by
  have hpins : (b.pin root).pins = b.pins ++ [root] := pins_pin hroot
  have hcut : (b.pin root).cut root = (b.pin root).withoutPin root := by
    rw [cut, if_pos (by simp [hpins])]
  have hframe : (b.pin root).preimages = b.preimages ∧ (b.pin root).payloadSize = b.payloadSize ∧
      (b.pin root).edgesSize = b.edgesSize + ByteSize.ofNat Staged.edgeSize ∧
      (b.pin root).preimagesSize = b.preimagesSize := by
    rw [pin, if_neg hroot]
    exact ⟨rfl, rfl, rfl, rfl⟩
  obtain ⟨hpreimages, hpayload, hedges, hpre⟩ := hframe
  rw [hcut]
  refine ⟨fun k => ?_, ?_, ?_, hpreimages, hpayload, ?_, hpre⟩
  · show ((((b.pin root).table[k]?).map Staged.unlinked).map Staged.uncounted) = (b.nodeAt? k).map Staged.uncounted
    rw [getElem?_pin hroot, nodeAt?]
    cases b.table[k]? with
    | none => rfl
    | some e =>
      simp only [Option.map_some, Option.some.injEq]
      split <;> rfl
  · exact hl.map (f := fun k e => if root = k then e.gainParent else e) (getElem?_pin hroot)
      (fun k e => by split <;> exact ⟨rfl, rfl⟩) (by simp [withoutPin, pin, hroot]) (by simp [withoutPin, pin, hroot])
  · show (b.pin root).pins.erase root = b.pins
    rw [hpins, List.erase_append_right _ hroot, List.erase_cons_head, List.append_nil]
  · exact congrArg (· - ByteSize.ofNat Staged.edgeSize) hedges

namespace OnTop

theorem parentsOf_eq (ho : OnTop b new) (hx : Exact b [])
    (hlt : ∀ k ∈ (b.stageAll new).table, (b.stageAll new).held k < 2 ^ 32) (hk : k ∈ (b.stageAll new).table) :
    (b.stageAll new).parentsOf k =
      b.held k + ∑ p ∈ (new.map (·.1)).toFinset, ((b.stageAll new).refs p).count k := by
  rw [ho.exact hx hlt k hk, List.count_nil, Nat.add_zero, ho.held_stageAll]

theorem not_mem_pins (ho : OnTop b new) (hroot : root ∈ new.map (·.1)) : root ∉ (b.stageAll new).pins := by
  intro hpin
  obtain ⟨x, hx, rfl⟩ := List.mem_map.1 hroot
  have hpos := held_pos_of_mem_pins ((stageAll_frame b new).1 ▸ hpin)
  rw [ho.unheld x hx] at hpos
  exact absurd hpos (Nat.lt_irrefl 0)

/-- The root is let go of at the start, and what else can be reached is held by a new
node. -/
theorem one_le (ho : OnTop b new) (hx : x ∈ new) (hreach : Relation.ReflTransGen (b.stageAll new).Points root x.1) :
    1 ≤ (if root = x.1 then 1 else 0) + ∑ p ∈ (new.map (·.1)).toFinset, ((b.stageAll new).refs p).count x.1 := by
  rcases hreach.cases_tail with heq | ⟨p, -, hpx⟩
  · rw [if_pos heq.symm]
    exact Nat.le_add_right _ _
  · have hp : p ∈ (new.map (·.1)).toFinset := by
      obtain ⟨xs, ys, rfl⟩ := List.append_of_mem hx
      obtain ⟨z, hz, rfl⟩ := List.mem_map.1 (ho.later_of_mem_refs hpx.1)
      exact List.mem_toFinset.2 (List.mem_map_of_mem (List.mem_append_right _ (List.mem_cons_of_mem _ hz)))
    have hcount := List.count_pos_iff.2 hpx.1
    have hle := Finset.single_le_sum (f := fun p => ((b.stageAll new).refs p).count x.1) (fun _ _ => Nat.zero_le _) hp
    omega

/-- The release of the root stays within the new nodes: an old one is let go of by these
alone, and keeps what it counted before. -/
theorem closed (ho : OnTop b new) (hx : Exact b []) (hheld : ∀ k ∈ b.table, 0 < b.parentsOf k)
    (hlt : ∀ k ∈ (b.stageAll new).table, (b.stageAll new).held k < 2 ^ 32)
    (hc : Recounted ((b.stageAll new).resized payload edges) c)
    (hparents : ∀ k, c.parentsOf k = (b.stageAll new).parentsOf k + if root = k then 1 else 0) :
    c.ClosedUnderRelease {root} (new.map (·.1)).toFinset := by
  have hstaged : ∀ k, k ∈ c.staged ↔ k ∈ (b.stageAll new).table := fun k => mem_staged.trans hc.mem
  refine ⟨fun k hk => ?_, fun k hk hle => ?_⟩
  · exact (hstaged k).2 (ho.mem_stageAll.2 (.inr (List.mem_toFinset.1 hk)))
  · have hmem := (hstaged k).1 hk
    rcases ho.mem_stageAll.1 hmem with hold | hnew
    · have hpos := hheld k hold
      have hcount := hx k hold
      rw [hparents, ho.parentsOf_eq hx hlt hmem, hc.drops_eq] at hle
      rw [List.count_nil] at hcount
      omega
    · exact List.mem_toFinset.2 hnew

/-- The release of the root reaches every new node. From the last one back: all that holds
a node comes after it. -/
theorem mem_of_closed (ho : OnTop b new) (hx : Exact b [])
    (hlt : ∀ k ∈ (b.stageAll new).table, (b.stageAll new).held k < 2 ^ 32)
    (hreach : ∀ x ∈ new, Relation.ReflTransGen (b.stageAll new).Points root x.1)
    (hc : Recounted ((b.stageAll new).resized payload edges) c)
    (hparents : ∀ k, c.parentsOf k = (b.stageAll new).parentsOf k + if root = k then 1 else 0) {r : Finset Hash}
    (hr : c.ClosedUnderRelease {root} r) (ys xs : List (Hash × Nat × Node)) (hsplit : new = xs ++ ys) :
    ∀ x ∈ ys, x.1 ∈ r := by
  induction ys generalizing xs with
  | nil => exact List.forall_mem_nil _
  | cons y ys ih =>
    have hlater := ih (xs ++ [y]) (by simpa using hsplit)
    have hy : y ∈ new := hsplit ▸ List.mem_append_right xs List.mem_cons_self
    have hmem : y.1 ∈ (b.stageAll new).table := ho.mem_stageAll.2 (.inr (List.mem_map_of_mem hy))
    have hin : ∀ p, y.1 ∈ (b.stageAll new).refs p → p ∈ r := by
      intro p hp
      subst hsplit
      obtain ⟨z, hz, rfl⟩ := List.mem_map.1 (ho.later_of_mem_refs hp)
      exact hlater z hz
    refine List.forall_mem_cons.2 ⟨hr.closed y.1 (mem_staged.2 (hc.mem.2 hmem)) ?_, hlater⟩
    have hsum : ∑ p ∈ (new.map (·.1)).toFinset, ((b.stageAll new).refs p).count y.1 ≤
        ∑ p ∈ r, ((b.stageAll new).refs p).count y.1 :=
      Finset.sum_le_sum_of_ne_zero fun p _ hne => hin p (List.count_pos_iff.1 (Nat.pos_of_ne_zero hne))
    have hone := ho.one_le hy (hreach y hy)
    rw [hparents, ho.parentsOf_eq hx hlt hmem, ho.unheld y hy, hc.drops_eq]
    omega

/-- **The new nodes are the least set closed under the release of their root**, if each of
them can be reached from it and the old ones all count a parent. -/
theorem isLeast (ho : OnTop b new) (hx : Exact b []) (hheld : ∀ k ∈ b.table, 0 < b.parentsOf k)
    (hlt : ∀ k ∈ (b.stageAll new).table, (b.stageAll new).held k < 2 ^ 32)
    (hreach : ∀ x ∈ new, Relation.ReflTransGen (b.stageAll new).Points root x.1)
    (hc : Recounted ((b.stageAll new).resized payload edges) c)
    (hparents : ∀ k, c.parentsOf k = (b.stageAll new).parentsOf k + if root = k then 1 else 0) :
    IsLeast {r | c.ClosedUnderRelease {root} r} (new.map (·.1)).toFinset := by
  refine ⟨ho.closed hx hheld hlt hc hparents, fun r hr k hk => ?_⟩
  obtain ⟨x, hx', rfl⟩ := List.mem_map.1 (List.mem_toFinset.1 hk)
  exact ho.mem_of_closed hx hlt hreach hc hparents hr new [] rfl x hx'

/-- **The release of the root takes the new nodes back**, and the counts with them. -/
theorem release (ho : OnTop b new) (hl : b.Linked b.flushOrder) (hx : Exact b [])
    (hheld : ∀ k ∈ b.table, 0 < b.parentsOf k)
    (hlt : ∀ k ∈ (b.stageAll new).table, (b.stageAll new).held k < 2 ^ 32)
    (hreach : ∀ x ∈ new, Relation.ReflTransGen (b.stageAll new).Points root x.1)
    (hc : Recounted ((b.stageAll new).resized payload edges) c)
    (hparents : ∀ k, c.parentsOf k = (b.stageAll new).parentsOf k + if root = k then 1 else 0)
    (hstats : c.stats = b.stats) :
    c.release [root] = b.resized (payload - ByteSize.ofNat (payloadOf new)) edges := by
  have hlc := hc.linked.self
  obtain ⟨gone, hcascade, hclamped⟩ : ∃ gone, Cascade c {root} gone (c.release [root]) 0 ∧
      Clamped c gone (c.release [root]) := Cascade.run hlc (release_steps c [root])
  have hset : gone.toFinset = (new.map (·.1)).toFinset :=
    hcascade.isLeast.unique (ho.isLeast hx hheld hlt hreach hc hparents)
  have hperm : gone.Perm (new.map (·.1)).reverse :=
    (List.perm_of_nodup_nodup_toFinset_eq hcascade.nodup ho.nodup hset).trans (List.reverse_perm _).symm
  have hrecounted : Recounted (b.resized (payload - ByteSize.ofNat (payloadOf new)) edges) (c.release [root]) := by
    have hsame := hcascade.same
    rw [discards_perm hlc hperm] at hsame
    have hdropped := hc.discards ((ho.linked hl).self.resized payload edges) (new.map (·.1)).reverse
    exact (ho.recounted hl payload edges).trans (hdropped.trans hsame)
  refine hrecounted.ext (.refl (hl.resized _ edges)) (fun k => ?_) ?_
  · show (c.release [root]).parentsOf k = b.parentsOf k
    have hmem : k ∈ (c.release [root]).table ↔ k ∈ b.table := hrecounted.mem
    by_cases hk : k ∈ (c.release [root]).table
    · -- the new nodes let go of an old one as often as they had made it count
      have hold := hmem.1 hk
      have hcounts := hcascade.counts k hk
      have hcount := hx k hold
      rw [Multiset.count_zero, hset, hc.drops_eq, hparents,
        ho.parentsOf_eq hx hlt (ho.mem_stageAll.2 (.inl hold))] at hcounts
      rw [List.count_nil] at hcount
      omega
    · rw [parentsOf_of_not_mem hk, parentsOf_of_not_mem (mt hmem.2 hk)]
  · have hcounted : gone.filter (c.parentsOf · = 0) = [] := by
      refine List.filter_eq_nil_iff.2 fun k hk => ?_
      obtain ⟨x, hx', rfl⟩ := List.mem_map.1 (List.mem_toFinset.1 (hset ▸ List.mem_toFinset.2 hk))
      have hone := ho.one_le hx' (hreach x hx')
      rw [decide_eq_true_iff, hparents, ho.parentsOf_eq hx hlt (ho.mem_stageAll.2 (.inr (List.mem_map_of_mem hx')))]
      omega
    rw [show (c.release [root]).stats = _ from hclamped, hcounted, hstats]
    rfl

/-- **Pinning and dereferencing the root of the new nodes leaves no trace of them** but in
the statistics, where they are counted as collected. The totals of bytes have gone up and
down again. -/
theorem dereference (ho : OnTop b new) (hl : b.Linked b.flushOrder) (hx : Exact b [])
    (hheld : ∀ k ∈ b.table, 0 < b.parentsOf k) (hroot : root ∈ new.map (·.1))
    (hreach : ∀ x ∈ new, Relation.ReflTransGen (b.stageAll new).Points root x.1)
    (hlt : ∀ k ∈ (b.stageAll new).table, ((b.stageAll new).pin root).held k < 2 ^ 32) :
    ((b.stageAll new).pin root).dereference root = { b with
      payloadSize := b.payloadSize + ByteSize.ofNat (payloadOf new) - ByteSize.ofNat (payloadOf new)
      edgesSize := b.edgesSize + ByteSize.ofNat Staged.edgeSize - ByteSize.ofNat Staged.edgeSize
      stats := { b.stats with
        gcNodes := b.stats.gcNodes + new.length
        gcSize := b.stats.gcSize + ByteSize.ofNat (payloadOf new) } } := by
  have hmem : root ∈ (b.stageAll new).table := ho.mem_stageAll.2 (.inr hroot)
  have hunpinned := ho.not_mem_pins hroot
  have hheldPin := held_pin hunpinned
  have hlt₁ : ∀ k ∈ (b.stageAll new).table, (b.stageAll new).held k < 2 ^ 32 := fun k hk =>
    Nat.lt_of_le_of_lt (Nat.le_add_right _ _) (hheldPin k ▸ hlt k hk)
  have hroom : (b.stageAll new).parentsOf root + 1 < 2 ^ 32 := by
    have hrootLt := hlt root hmem
    rw [hheldPin, if_pos rfl] at hrootLt
    rwa [ho.exact hx hlt₁ root hmem, List.count_nil, Nat.add_zero]
  have hpin : ((b.stageAll new).pin root).stats = b.stats ∧
      ((b.stageAll new).pin root).payloadSize = (b.stageAll new).payloadSize ∧
      ((b.stageAll new).pin root).length = (b.stageAll new).length := by
    rw [pin, if_neg hunpinned]
    exact ⟨(stageAll_frame b new).2.1, rfl, Std.ExtTreeMap.size_modify⟩
  obtain ⟨hstats, hpayloadPin, hlengthPin⟩ := hpin
  have hcut := recounted_pin_cut (ho.linked hl).self hunpinned
  rw [ho.edgesSize_stageAll, ho.payloadSize_stageAll] at hcut
  have hrestored := ho.release hl hx hheld hlt₁ hreach hcut
    (fun k => by rw [parentsOf_cut, parentsOf_pin hunpinned hmem hroom]) (by rw [stats_cut, hstats])
  have hpinned : root ∈ ((b.stageAll new).pin root).pins := by simp [pins_pin hunpinned]
  have hleft : (b.stageAll new).length - b.length = new.length := by
    rw [ho.length_stageAll hl]
    omega
  rw [dereference_eq, hrestored, tallied, if_neg fun h => h.1 hpinned, hpayloadPin, hlengthPin]
  simp only [resized, ho.payloadSize_stageAll, ByteSize.sub_sub_ofNat]
  rw [show ∀ p e, Buffer.length { b with payloadSize := p, edgesSize := e } = b.length from fun _ _ => rfl, hleft]
  rfl

end OnTop

end Buffer

end MerkleBuffer
