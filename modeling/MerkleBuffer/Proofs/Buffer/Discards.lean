/-
Nodes that are dropped leave the same buffer in whatever order they go.

The entries without their neighbours, and the order of staging, tell the whole
table (`Linked.ext`). Dropping two nodes in either order leaves the same of both,
and the byte counters go down by the same amounts (`discard_comm`).
-/
import MerkleBuffer.Proofs.Buffer.ChildrenFirst

namespace MerkleBuffer

namespace ByteSize

theorem sub_right_comm (a b c : ByteSize) : a - b - c = a - c - b := by
  ext
  simp only [bytes_sub]
  omega

end ByteSize

attribute [ext] Buffer

namespace Buffer

variable {b b' : Buffer} {h k : Hash} {order xs ys : List Hash}

/-- The order of staging and the entries apart from their neighbours make up the
table. -/
theorem Linked.ext (hl : b.Linked order) (hl' : b'.Linked order) (hnodes : ∀ k, b.nodeAt? k = b'.nodeAt? k) :
    b.table = b'.table ∧ b.oldest = b'.oldest ∧ b.newest = b'.newest := by
  refine ⟨Std.ExtTreeMap.ext_getElem? fun k => ?_, hl.oldest.trans hl'.oldest.symm, hl.newest.trans hl'.newest.symm⟩
  by_cases hk : k ∈ order
  · obtain ⟨xs, ys, hs⟩ := List.append_of_mem hk
    obtain ⟨e, he, hprev, hnext⟩ := hl.link xs k ys hs
    obtain ⟨e', he', hprev', hnext'⟩ := hl'.link xs k ys hs
    have hsame := hnodes k
    rw [nodeAt?_of_getElem? he, nodeAt?_of_getElem? he', Option.some.injEq] at hsame
    rw [he, he']
    cases e
    cases e'
    simp_all [Staged.unlinked]
  · rw [Table.not_mem_iff_getElem?.1 (mt (hl.mem_iff k).2 hk), Table.not_mem_iff_getElem?.1 (mt (hl'.mem_iff k).2 hk)]

/-! ## One node after another -/

theorem flushOrder_discard (hl : b.Linked b.flushOrder) (h : Hash) :
    (b.discard h).flushOrder = b.flushOrder.erase h := by
  cases he : b.table[h]? with
  | none =>
    have hh : h ∉ b.table := Table.not_mem_iff_getElem?.2 he
    rw [discard_of_not_mem hh, List.erase_of_not_mem (mt (hl.mem_iff h).1 hh)]
  | some e =>
    have hd : b.discard h = b.remove h e := by simp [discard, he]
    rw [hd, (flushOrder_remove hl he).flushOrder_eq]

theorem nodeAt?_discards (b : Buffer) (hs : List Hash) (k : Hash) :
    (b.discards hs).nodeAt? k = if k ∈ hs then none else b.nodeAt? k := by
  induction hs generalizing b with
  | nil => simp [discards]
  | cons h rest ih =>
    have hcons : b.discards (h :: rest) = (b.discard h).discards rest := rfl
    rw [hcons, ih, nodeAt?_discard]
    by_cases hk : h = k
    · simp [hk]
    · simp [hk, Ne.symm hk]

theorem flushOrder_discards (hl : b.Linked b.flushOrder) (hs : List Hash) :
    (b.discards hs).flushOrder = b.flushOrder.filter (· ∉ hs) := by
  induction hs generalizing b with
  | nil => simp [discards]
  | cons h rest ih =>
    have hcons : b.discards (h :: rest) = (b.discard h).discards rest := rfl
    rw [hcons, ih (Remnant.discard hl h).2, flushOrder_discard hl, hl.nodup.erase_eq_filter, List.filter_filter]
    refine List.filter_congr fun k _ => ?_
    by_cases hk : k = h <;> simp [hk]

theorem joinNeighbours_sizes (b : Buffer) (prev next : Option Hash) :
    (b.joinNeighbours prev next).payloadSize = b.payloadSize ∧
      (b.joinNeighbours prev next).edgesSize = b.edgesSize ∧
      (b.joinNeighbours prev next).preimagesSize = b.preimagesSize := by
  unfold joinNeighbours
  cases prev <;> cases next <;> dsimp only <;> repeat' split
  all_goals exact ⟨rfl, rfl, rfl⟩

/-- A node that is dropped takes what it was charged for out of the byte
counters. -/
theorem sizes_discard (b : Buffer) (h : Hash) :
    (b.discard h).payloadSize = (b.nodeAt? h).elim b.payloadSize (b.payloadSize - ·.payload) ∧
      (b.discard h).edgesSize = (b.nodeAt? h).elim b.edgesSize (b.edgesSize - ·.edgeCost) ∧
      (b.discard h).preimagesSize = b.preimagesSize := by
  unfold discard nodeAt?
  cases b.table[h]? with
  | none => exact ⟨rfl, rfl, rfl⟩
  | some e => exact joinNeighbours_sizes _ _ _

theorem discard_comm (hl : b.Linked b.flushOrder) (h k : Hash) :
    (b.discard h).discard k = (b.discard k).discard h := by
  by_cases hkh : k = h
  · rw [hkh]
  have hlh := (Remnant.discard hl h).2
  have hlk := (Remnant.discard hl k).2
  have horder : ((b.discard h).discard k).flushOrder = ((b.discard k).discard h).flushOrder := by
    rw [flushOrder_discard hlh, flushOrder_discard hl, flushOrder_discard hlk, flushOrder_discard hl, List.erase_comm]
  have hnodes : ∀ x, ((b.discard h).discard k).nodeAt? x = ((b.discard k).discard h).nodeAt? x := fun x => by
    rw [nodeAt?_discard, nodeAt?_discard, nodeAt?_discard, nodeAt?_discard]
    by_cases hkx : k = x <;> by_cases hhx : h = x <;> simp [hkx, hhx]
  obtain ⟨htable, hold, hnew⟩ := (Remnant.discard hlh k).2.ext (horder ▸ (Remnant.discard hlk h).2) hnodes
  -- each node is charged the same, whether the other is there or not
  have hk : (b.discard h).nodeAt? k = b.nodeAt? k := by rw [nodeAt?_discard, if_neg (Ne.symm hkh)]
  have hh : (b.discard k).nodeAt? h = b.nodeAt? h := by rw [nodeAt?_discard, if_neg hkh]
  obtain ⟨hpay₁, hedge₁, hpre₁⟩ := sizes_discard (b.discard h) k
  obtain ⟨hpay₂, hedge₂, hpre₂⟩ := sizes_discard (b.discard k) h
  obtain ⟨hpayh, hedgeh, hpreh⟩ := sizes_discard b h
  obtain ⟨hpayk, hedgek, hprek⟩ := sizes_discard b k
  rw [hk, hpayh] at hpay₁
  rw [hk, hedgeh] at hedge₁
  rw [hh, hpayk] at hpay₂
  rw [hh, hedgek] at hedge₂
  have hpay : ((b.discard h).discard k).payloadSize = ((b.discard k).discard h).payloadSize := by
    rw [hpay₁, hpay₂]
    cases b.nodeAt? h <;> cases b.nodeAt? k <;> simp [ByteSize.sub_right_comm]
  have hedge : ((b.discard h).discard k).edgesSize = ((b.discard k).discard h).edgesSize := by
    rw [hedge₁, hedge₂]
    cases b.nodeAt? h <;> cases b.nodeAt? k <;> simp [ByteSize.sub_right_comm]
  have hpre := (hpre₁.trans hpreh).trans (hpre₂.trans hprek).symm
  obtain ⟨hpins₁, hstats₁, hpreimages₁⟩ := discards_frame b [h, k]
  obtain ⟨hpins₂, hstats₂, hpreimages₂⟩ := discards_frame b [k, h]
  have hpins : ((b.discard h).discard k).pins = ((b.discard k).discard h).pins := hpins₁.trans hpins₂.symm
  have hstats : ((b.discard h).discard k).stats = ((b.discard k).discard h).stats := hstats₁.trans hstats₂.symm
  have hpreimages : ((b.discard h).discard k).preimages = ((b.discard k).discard h).preimages :=
    hpreimages₁.trans hpreimages₂.symm
  exact Buffer.ext htable hold hnew hpins hpreimages hpay hedge hpre hstats

/-- **The order in which nodes are dropped does not matter.** -/
theorem discards_perm (hl : b.Linked b.flushOrder) (hp : xs.Perm ys) : b.discards xs = b.discards ys := by
  induction hp generalizing b with
  | nil => rfl
  | cons h _ ih => exact ih (Remnant.discard hl h).2
  | swap h k rest => exact congrArg (Buffer.discards · rest) (discard_comm hl k h)
  | trans _ _ ih₁ ih₂ => exact (ih₁ hl).trans (ih₂ hl)

end Buffer

end MerkleBuffer
