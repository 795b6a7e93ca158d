/-
The byte counters of a buffer against sums over what it holds.

`sumOf f` adds up a measure of the staged nodes; each operation changes one summand
(`sumOf_change`). `Accounted` says that the counters are such sums, for the encodings,
for the explicit references and pins, and for the preimages. What leaves the buffer
keeps this without more ado. What enters it has to fit: the counters stop at 2^64, so
the sums have to stay below (`InRange`).
-/
import MerkleBuffer.Database.Cap
import MerkleBuffer.Proofs.Buffer.Discards

namespace MerkleBuffer

namespace ByteSize

theorem bytes_ofNat_le (n : Nat) : (ofNat n).bytes ≤ n := by
  rw [bytes_ofNat]
  exact Nat.min_le_left _ _

theorem bytes_ofNat_of_le {n m : Nat} (h : n ≤ m) (hm : m < UInt64.size) : (ofNat n).bytes = n :=
  bytes_ofNat_of_lt (Nat.lt_of_le_of_lt h hm)

theorem bytes_add_of_lt {a b : ByteSize} (h : a.bytes + b.bytes < UInt64.size) : (a + b).bytes = a.bytes + b.bytes :=
  bytes_ofNat_of_lt h

theorem bytes_add_ofNat {a : ByteSize} {n : Nat} (h : a.bytes + n < UInt64.size) :
    (a + ofNat n).bytes = a.bytes + n := by
  have hn : (ofNat n).bytes = n := bytes_ofNat_of_le (Nat.le_add_left n a.bytes) h
  rw [bytes_add_of_lt (by rwa [hn]), hn]

theorem add_ofNat_add_ofNat (a : ByteSize) (n m : Nat) : a + ofNat n + ofNat m = a + ofNat (n + m) := by
  ext
  simp only [bytes_add, bytes_ofNat]
  omega

theorem sub_ofNat_sub_ofNat (a : ByteSize) (n m : Nat) : a - ofNat n - ofNat m = a - ofNat (n + m) := by
  have ha := a.lt_max
  ext
  simp only [bytes_sub, bytes_ofNat]
  omega

/-- What was added comes off again, if the counter did not stop. -/
theorem add_sub_ofNat {a : ByteSize} {n : Nat} (h : a.bytes + n < UInt64.size) : a + ofNat n - ofNat n = a := by
  ext
  rw [bytes_sub, bytes_add_ofNat h, bytes_ofNat_of_lt (Nat.lt_of_le_of_lt (Nat.le_add_left n a.bytes) h),
    Nat.add_sub_cancel]

/-- The difference is what was added, also where the counter stops. -/
theorem sub_sub_ofNat (a : ByteSize) (n : Nat) : a + ofNat n - (a + ofNat n - ofNat n) = ofNat n := by
  ext
  simp only [bytes_sub, bytes_add, bytes_ofNat]
  omega

end ByteSize

theorem Edges.length_add {edges : Edges} (hpos : ∀ x ∈ edges, 0 < x.2) (child : Hash) :
    (edges.add child).length = edges.length + if edges.count child = 0 then 1 else 0 := by
  induction edges with
  | nil => rfl
  | cons edge rest ih =>
    obtain ⟨h, n⟩ := edge
    obtain ⟨hn, hrest⟩ := List.forall_mem_cons.1 hpos
    by_cases heq : h = child
    · have hne : ¬ n = 0 := Nat.pos_iff_ne_zero.1 hn
      simp only [add, count, if_pos heq, hne, if_false, List.length_cons, Nat.add_zero]
    · simp only [add, count, if_neg heq, List.length_cons, ih hrest]
      omega

namespace Staged

/-- The bytes of an encoding with its key. -/
def payloadBytes (e : Staged) : Nat := Hash.size + e.size

/-- The bytes charged for explicit references, if there ever was one. -/
def edgeBytes (e : Staged) : Nat :=
  match e.edges with
  | none => 0
  | some edges => edgeTableSize + edgeSize * edges.length

/-- Everything charged for a staged node. -/
def residentBytes (e : Staged) : Nat := e.payloadBytes + overhead + e.edgeBytes

theorem edgeCost_eq (e : Staged) : e.edgeCost = ByteSize.ofNat e.edgeBytes := by
  unfold edgeCost edgeBytes
  cases e.edges <;> rfl

/-- What a node is charged when a cap counts it out is no more than its bytes. -/
theorem bytes_cost_le (e : Staged) : e.cost.bytes ≤ e.residentBytes := by
  have hpayload : e.payload.bytes ≤ e.payloadBytes := ByteSize.bytes_ofNat_le _
  have hoverhead : (ByteSize.ofNat overhead).bytes ≤ overhead := ByteSize.bytes_ofNat_le _
  have hedges : e.edgeCost.bytes ≤ e.edgeBytes := by
    rw [edgeCost_eq]
    exact ByteSize.bytes_ofNat_le _
  rw [cost, residentBytes, ByteSize.bytes_add, ByteSize.bytes_add]
  omega

end Staged

namespace Buffer

variable {b b' : Buffer} {h k : Hash} {e : Staged} {f g : Staged → Nat}

/-! ## Sums over the staged nodes -/

/-- A measure of the node under a hash; nothing, if none is staged. -/
def measure (f : Staged → Nat) (b : Buffer) (h : Hash) : Nat := ((b.nodeAt? h).map f).getD 0

/-- A measure added up over all staged nodes. -/
def sumOf (f : Staged → Nat) (b : Buffer) : Nat := ∑ h ∈ b.staged, b.measure f h

theorem measure_of_getElem? (he : b.table[h]? = some e) : b.measure f h = f e.unlinked := by
  rw [measure, nodeAt?_of_getElem? he]
  rfl

theorem measure_of_not_mem (hh : h ∉ b.table) : b.measure f h = 0 := by
  rw [measure, nodeAt?_eq_none.2 hh]
  rfl

theorem sumOf_change (hsame : ∀ k, k ≠ h → b'.measure f k = b.measure f k) :
    b'.sumOf f + b.measure f h = b.sumOf f + b'.measure f h :=
  sum_staged_change (fun _ => measure_of_not_mem) (fun _ => measure_of_not_mem) hsame

theorem sumOf_congr (hsame : ∀ k, b'.measure f k = b.measure f k) : b'.sumOf f = b.sumOf f := by
  have hchange : b'.sumOf f + b.measure f Hash.zero = b.sumOf f + b'.measure f Hash.zero :=
    sumOf_change fun k _ => hsame k
  rw [hsame] at hchange
  omega

theorem sumOf_of_table (htable : b'.table = b.table) : b'.sumOf f = b.sumOf f :=
  sumOf_congr fun k => by rw [measure, measure, nodeAt?, nodeAt?, htable]

theorem sumOf_map {c : Hash → Staged → Staged} (hc : ∀ k, b'.table[k]? = (b.table[k]?).map (c k))
    (hkeep : ∀ k e, f (c k e).unlinked = f e.unlinked) : b'.sumOf f = b.sumOf f := by
  refine sumOf_congr fun k => ?_
  rw [measure, measure, nodeAt?, nodeAt?, hc]
  cases b.table[k]? with
  | none => rfl
  | some e => exact hkeep k e

theorem measure_le_sumOf (he : b.table[h]? = some e) : f e.unlinked ≤ b.sumOf f := by
  rw [← measure_of_getElem? (f := f) he]
  exact Finset.single_le_sum (f := b.measure f) (fun _ _ => Nat.zero_le _)
    (mem_staged.2 (Table.mem_iff_getElem?.2 ⟨e, he⟩))

theorem sumOf_remove (he : b.table[h]? = some e) : (b.remove h e).sumOf f + f e.unlinked = b.sumOf f := by
  have hchange : (b.remove h e).sumOf f + b.measure f h = b.sumOf f + (b.remove h e).measure f h :=
    sumOf_change fun k hk => by rw [measure, nodeAt?_remove, if_neg (Ne.symm hk), measure]
  have hgone : (b.remove h e).measure f h = 0 := by rw [measure, nodeAt?_remove, if_pos rfl]; rfl
  rwa [measure_of_getElem? he, hgone] at hchange

theorem sumOf_insert (hh : h ∉ b.table) (hf : ∀ n e, f (e.gainParents n) = f e) (size : Nat) (node : Node) :
    (b.insert h size node).sumOf f = b.sumOf f + f (Staged.fresh size node) := by
  have hchange : (b.insert h size node).sumOf f + b.measure f h =
      b.sumOf f + (b.insert h size node).measure f h := by
    refine sumOf_change fun k hk => ?_
    rw [measure, nodeAt?_insert hh, if_neg (Ne.symm hk), Option.map_map, measure]
    exact congrArg (Option.getD · 0) (congrArg (Option.map · _) (funext fun e => hf _ e))
  have hnew : (b.insert h size node).measure f h = f (Staged.fresh size node) := by
    rw [measure, nodeAt?_insert hh, if_pos rfl]
    rfl
  rwa [measure_of_not_mem hh, hnew] at hchange

theorem sumOf_add (b : Buffer) (f g : Staged → Nat) : b.sumOf (fun e => f e + g e) = b.sumOf f + b.sumOf g := by
  rw [sumOf, sumOf, sumOf, ← Finset.sum_add_distrib]
  refine Finset.sum_congr rfl fun h _ => ?_
  rw [measure, measure, measure]
  cases b.nodeAt? h <;> rfl

theorem card_staged (b : Buffer) : b.staged.card = b.length := by
  rw [staged, List.toFinset_card_of_nodup Std.ExtTreeMap.nodup_keys, Std.ExtTreeMap.length_keys]
  rfl

theorem sumOf_const (b : Buffer) (n : Nat) : b.sumOf (fun _ => n) = n * b.length := by
  have hone : ∀ h ∈ b.staged, b.measure (fun _ => n) h = n := fun h hh => by
    obtain ⟨e, he⟩ := Table.mem_iff_getElem?.1 (mem_staged.1 hh)
    rw [measure_of_getElem? he]
  rw [sumOf, Finset.sum_const_nat hone, card_staged, Nat.mul_comm]

/-- The measures of the nodes in the order of staging. -/
theorem map_inOrder (hl : b.Linked b.flushOrder) (hf : ∀ e, f e.unlinked = f e) :
    b.inOrder.map (fun x => f x.2) = b.flushOrder.map (b.measure f) := by
  rw [flushOrder, List.map_map]
  refine List.map_congr_left fun x hx => ?_
  rw [Function.comp_apply, measure_of_getElem? (hl.mem_inOrder hx), hf]

theorem sumOf_inOrder (hl : b.Linked b.flushOrder) (hf : ∀ e, f e.unlinked = f e) :
    total (b.inOrder.map fun x => f x.2) = b.sumOf f := by
  have hstaged : b.staged = b.flushOrder.toFinset := by
    ext h
    rw [mem_staged, List.mem_toFinset, hl.mem_iff]
  have htotal : ∀ sizes : List Nat, total sizes = sizes.sum := fun sizes => by
    induction sizes with
    | nil => rfl
    | cons n rest ih => rw [total_cons, List.sum_cons, ih]
  rw [map_inOrder hl hf, htotal, sumOf, hstaged, List.sum_toFinset _ hl.nodup]

/-! ## Exact counters -/

/-- The bytes of all preimages with their hashes. -/
def preimageBytes (b : Buffer) : Nat := total (b.preimages.map fun x => Hash.size + x.2.length)

/-- Everything charged for staged nodes, and for the pins, is below 2^64 bytes, and
so is everything charged for preimages. -/
structure InRange (b : Buffer) : Prop where
  nodes : b.sumOf Staged.residentBytes + Staged.edgeSize * b.pins.length < UInt64.size
  preimages : b.preimageBytes < UInt64.size

/-- The counters are the sums that they stand for. -/
structure Accounted (b : Buffer) : Prop where
  payload : b.payloadSize.bytes = b.sumOf Staged.payloadBytes
  edges : b.edgesSize.bytes = b.sumOf Staged.edgeBytes + Staged.edgeSize * b.pins.length
  preimages : b.preimagesSize.bytes = b.preimageBytes

theorem sumOf_residentBytes (b : Buffer) :
    b.sumOf Staged.residentBytes =
      b.sumOf Staged.payloadBytes + Staged.overhead * b.length + b.sumOf Staged.edgeBytes := by
  have hsplit := b.sumOf_add (fun e => e.payloadBytes + Staged.overhead) Staged.edgeBytes
  rw [b.sumOf_add Staged.payloadBytes fun _ => Staged.overhead, sumOf_const] at hsplit
  exact hsplit

theorem InRange.payload (hr : b.InRange) : b.sumOf Staged.payloadBytes < UInt64.size := by
  have hnodes := hr.nodes
  rw [sumOf_residentBytes] at hnodes
  omega

theorem InRange.edges (hr : b.InRange) :
    b.sumOf Staged.edgeBytes + Staged.edgeSize * b.pins.length < UInt64.size := by
  have hnodes := hr.nodes
  rw [sumOf_residentBytes] at hnodes
  omega

theorem Accounted.resident (ha : b.Accounted) (hr : b.InRange) :
    b.residentSize.bytes = b.sumOf Staged.residentBytes := by
  have hnodes := hr.nodes
  have hpayload := ha.payload
  have hedges := ha.edges
  rw [sumOf_residentBytes] at hnodes ⊢
  have hlength : (ByteSize.ofNat (Staged.overhead * b.length)).bytes = Staged.overhead * b.length :=
    ByteSize.bytes_ofNat_of_lt (by omega)
  have hpins : (ByteSize.ofNat (Staged.edgeSize * b.pins.length)).bytes = Staged.edgeSize * b.pins.length :=
    ByteSize.bytes_ofNat_of_lt (by omega)
  have hsum : (b.payloadSize + b.edgesSize).bytes = b.payloadSize.bytes + b.edgesSize.bytes :=
    ByteSize.bytes_add_of_lt (by omega)
  rw [residentSize, ByteSize.bytes_sub, ByteSize.bytes_add_of_lt (by rw [hsum, hlength]; omega), hsum, hlength, hpins]
  omega

theorem Accounted.empty : Accounted empty where
  payload := by decide
  edges := by decide
  preimages := rfl

theorem InRange.empty : InRange empty where
  nodes := by decide
  preimages := by decide

/-- Buffers with the same nodes, pins and counters are accounted for together. -/
theorem Accounted.congr (ha : b.Accounted) (hs : SameNodes b b') (hpayload : b'.payloadSize = b.payloadSize)
    (hedges : b'.edgesSize = b.edgesSize) (hpreimages : b'.preimagesSize.bytes = b'.preimageBytes) : b'.Accounted where
  payload := by rw [hpayload, ha.payload, sumOf_of_table hs.table]
  edges := by rw [hedges, ha.edges, sumOf_of_table hs.table, hs.pins]
  preimages := hpreimages

/-! ## Nodes that leave -/

/-- What is left of a buffer adds up to no more than all of it. -/
theorem sumOf_le_of_remnant (hr : Remnant b b') (hf : ∀ e e' : Staged, e'.size = e.size → f e'.unlinked = f e.unlinked) :
    b'.sumOf f ≤ b.sumOf f := by
  have hmeasure : ∀ k, b'.measure f k ≤ b.measure f k := fun k => by
    by_cases hk : k ∈ b'.table
    · obtain ⟨e', he'⟩ := Table.mem_iff_getElem?.1 hk
      obtain ⟨e, he, -, hsize, -⟩ := hr.entry k e' he'
      rw [measure_of_getElem? he, measure_of_getElem? he']
      exact Nat.le_of_eq (hf e e' hsize)
    · rw [measure_of_not_mem hk]
      exact Nat.zero_le _
  calc b'.sumOf f
      ≤ ∑ k ∈ b'.staged, b.measure f k := Finset.sum_le_sum fun k _ => hmeasure k
    _ ≤ b.sumOf f := Finset.sum_le_sum_of_subset fun k hk => mem_staged.2 (hr.mem (mem_staged.1 hk))

theorem payloadBytes_congr (e e' : Staged) (hsize : e'.size = e.size) :
    e'.unlinked.payloadBytes = e.unlinked.payloadBytes := congrArg (Hash.size + ·) hsize

theorem sizes_remove (b : Buffer) (h : Hash) (e : Staged) :
    (b.remove h e).payloadSize = b.payloadSize - e.payload ∧ (b.remove h e).edgesSize = b.edgesSize - e.edgeCost ∧
      (b.remove h e).preimagesSize = b.preimagesSize :=
  joinNeighbours_sizes _ _ _

/-- The counter of encodings is the sum that it stands for, whatever the others are. -/
def PayloadExact (b : Buffer) : Prop := b.payloadSize.bytes = b.sumOf Staged.payloadBytes

theorem PayloadExact.covers (hp : b.PayloadExact) (he : b.table[h]? = some e) :
    e.payload.bytes = e.payloadBytes ∧ e.payloadBytes ≤ b.payloadSize.bytes := by
  have hle : e.payloadBytes ≤ b.payloadSize.bytes := by
    rw [hp]
    exact measure_le_sumOf (f := Staged.payloadBytes) he
  exact ⟨ByteSize.bytes_ofNat_of_le hle b.payloadSize.lt_max, hle⟩

theorem PayloadExact.remove (hp : b.PayloadExact) (he : b.table[h]? = some e) : (b.remove h e).PayloadExact := by
  obtain ⟨hbytes, hle⟩ := hp.covers he
  have hsum : (b.remove h e).sumOf Staged.payloadBytes + e.payloadBytes = b.sumOf Staged.payloadBytes :=
    sumOf_remove (f := Staged.payloadBytes) he
  rw [PayloadExact] at hp ⊢
  rw [(b.sizes_remove h e).1, ByteSize.bytes_sub]
  omega

theorem PayloadExact.release (hp : b.PayloadExact) (pending : List Hash) : (b.release pending).PayloadExact :=
  release_induct (I := fun b _ => b.PayloadExact) (fun _ _ _ _ hp => hp)
    (fun b h e _ he _ hp => PayloadExact.remove (b := b.countClamped) (hp.trans (sumOf_of_table rfl).symm) he)
    (fun _ _ _ _ he _ hp => hp.remove he)
    (fun b h _ _ _ _ _ hp => hp.trans (sumOf_map (getElem?_lower b h) fun k e => by split <;> rfl).symm) b pending hp

theorem PayloadExact.discards (hp : b.PayloadExact) (hs : List Hash) : (b.discards hs).PayloadExact :=
  discards_induct (I := PayloadExact) (fun b h _ hp => by
    unfold Buffer.discard
    split
    · exact hp
    · next he => exact hp.remove he) hp

theorem PayloadExact.discardFlushed (hp : b.PayloadExact) (nodes : List (Hash × Staged)) :
    (b.discardFlushed nodes).PayloadExact := by
  have hdropped := hp.discards (nodes.map (·.1))
  rwa [Buffer.discards, List.foldl_map] at hdropped

theorem Accounted.covers (ha : b.Accounted) (he : b.table[h]? = some e) :
    e.payload.bytes = e.payloadBytes ∧ e.payloadBytes ≤ b.payloadSize.bytes ∧
      e.edgeCost.bytes = e.edgeBytes ∧ e.edgeBytes ≤ b.edgesSize.bytes := by
  obtain ⟨hpayload, hpayloadLe⟩ := PayloadExact.covers ha.payload he
  have hedges : e.edgeBytes ≤ b.edgesSize.bytes := by
    rw [ha.edges]
    exact Nat.le_trans (measure_le_sumOf (f := Staged.edgeBytes) he) (Nat.le_add_right _ _)
  rw [Staged.edgeCost_eq]
  exact ⟨hpayload, hpayloadLe, ByteSize.bytes_ofNat_of_le hedges b.edgesSize.lt_max, hedges⟩

theorem Accounted.remove (ha : b.Accounted) (he : b.table[h]? = some e) : (b.remove h e).Accounted := by
  obtain ⟨-, -, hedges, hedgesLe⟩ := ha.covers he
  obtain ⟨-, hd, hpre⟩ := b.sizes_remove h e
  have hedgesSum : (b.remove h e).sumOf Staged.edgeBytes + e.edgeBytes = b.sumOf Staged.edgeBytes :=
    sumOf_remove (f := Staged.edgeBytes) he
  have hedgesOld := ha.edges
  refine ⟨PayloadExact.remove ha.payload he, ?_, ?_⟩
  · rw [hd, ByteSize.bytes_sub, pins_remove]
    omega
  · rw [hpre, ha.preimages, preimageBytes, preimageBytes, preimages_remove]

theorem Accounted.countClamped (ha : b.Accounted) : b.countClamped.Accounted :=
  ha.congr ⟨rfl, rfl, rfl, rfl⟩ rfl rfl ha.preimages

theorem Accounted.lower (ha : b.Accounted) (h : Hash) :
    ({ b with table := b.table.modify h Staged.loseParent } : Buffer).Accounted where
  payload := ha.payload.trans (sumOf_map (getElem?_lower b h) fun k e => by split <;> rfl).symm
  edges := ha.edges.trans
    (congrArg (· + _) (sumOf_map (getElem?_lower b h) fun k e => by split <;> rfl).symm)
  preimages := ha.preimages

theorem Accounted.release (ha : b.Accounted) (pending : List Hash) : (b.release pending).Accounted :=
  release_induct (I := fun b _ => b.Accounted) (fun _ _ _ _ ha => ha) (fun _ _ _ _ he _ ha => ha.countClamped.remove he)
    (fun _ _ _ _ he _ ha => ha.remove he) (fun _ h _ _ _ _ _ ha => ha.lower h) b pending ha

/-- The buffer without the pin on a root. -/
def withoutPin (b : Buffer) (root : Hash) : Buffer :=
  { b with pins := b.pins.erase root, edgesSize := b.edgesSize - ByteSize.ofNat Staged.edgeSize }

theorem Accounted.covers_pin (ha : b.Accounted) (hroot : h ∈ b.pins) :
    Staged.edgeSize ≤ b.edgesSize.bytes := by
  have hpos : 1 ≤ b.pins.length := List.length_pos_of_mem hroot
  have hedges := ha.edges
  have hle : Staged.edgeSize * 1 ≤ Staged.edgeSize * b.pins.length := Nat.mul_le_mul_left _ hpos
  omega

theorem Accounted.withoutPin (ha : b.Accounted) (hroot : h ∈ b.pins) : (b.withoutPin h).Accounted where
  payload := ha.payload.trans (sumOf_of_table rfl).symm
  edges := by
    have hlength : (b.pins.erase h).length + 1 = b.pins.length := by
      rw [List.length_erase_of_mem hroot]
      exact Nat.sub_add_cancel (List.length_pos_of_mem hroot)
    have hpins : Staged.edgeSize * b.pins.length = Staged.edgeSize * (b.pins.erase h).length + Staged.edgeSize := by
      rw [← hlength, Nat.mul_succ]
    have hone : (ByteSize.ofNat Staged.edgeSize).bytes = Staged.edgeSize := by decide
    have hedges := ha.edges
    have hsum : (b.withoutPin h).sumOf Staged.edgeBytes = b.sumOf Staged.edgeBytes := sumOf_of_table rfl
    rw [Buffer.withoutPin, ByteSize.bytes_sub, hone, ← Buffer.withoutPin, hsum]
    show b.edgesSize.bytes - Staged.edgeSize = _ + Staged.edgeSize * (b.pins.erase h).length
    omega
  preimages := ha.preimages

theorem unpin_eq (b : Buffer) (root : Hash) :
    b.unpin root = (if root ∈ b.pins then b.withoutPin root else b).release [root] := by
  unfold unpin
  split <;> rfl

theorem Accounted.unpin (ha : b.Accounted) (root : Hash) : (b.unpin root).Accounted := by
  rw [unpin_eq]
  split
  · next hroot => exact (ha.withoutPin hroot).release _
  · exact ha.release _

theorem Accounted.dereference (ha : b.Accounted) (root : Hash) : (b.dereference root).Accounted :=
  (ha.unpin root).congr ⟨rfl, rfl, rfl, rfl⟩ rfl rfl (ha.unpin root).preimages

theorem PayloadExact.dereference (hp : b.PayloadExact) (root : Hash) : (b.dereference root).PayloadExact := by
  have hunpin : (b.unpin root).PayloadExact := by
    rw [unpin_eq]
    split
    · exact PayloadExact.release (b := b.withoutPin root) hp _
    · exact hp.release _
  exact hunpin

theorem Accounted.discard (ha : b.Accounted) (h : Hash) : (b.discard h).Accounted := by
  unfold Buffer.discard
  split
  · exact ha
  · next he => exact ha.remove he

theorem Accounted.discards (ha : b.Accounted) (hs : List Hash) : (b.discards hs).Accounted := by
  induction hs generalizing b with
  | nil => exact ha
  | cons h rest ih => exact ih (ha.discard h)

theorem Accounted.discardFlushed (ha : b.Accounted) (nodes : List (Hash × Staged)) :
    (b.discardFlushed nodes).Accounted := by
  have hdropped := ha.discards (nodes.map (·.1))
  rw [Buffer.discards, List.foldl_map] at hdropped
  exact hdropped.congr ⟨rfl, rfl, rfl, rfl⟩ rfl rfl hdropped.preimages

theorem Accounted.clearPreimages (ha : b.Accounted) : b.clearPreimages.Accounted :=
  ha.congr ⟨rfl, rfl, rfl, rfl⟩ rfl rfl rfl

/-! ## What enters the buffer -/

theorem sizes_insert (hh : h ∉ b.table) (size : Nat) (node : Node) :
    (b.insert h size node).payloadSize = b.payloadSize + ByteSize.ofNat (Hash.size + size) ∧
      (b.insert h size node).edgesSize = b.edgesSize ∧ (b.insert h size node).preimagesSize = b.preimagesSize := by
  have hc : ¬ b.table.contains h = true := fun hc => hh (by simpa using hc)
  unfold Buffer.insert
  rw [if_neg hc]
  exact ⟨rfl, rfl, rfl⟩

theorem PayloadExact.insert {size : Nat} {node : Node} (hp : b.PayloadExact)
    (hr : (b.insert h size node).sumOf Staged.payloadBytes < UInt64.size) : (b.insert h size node).PayloadExact := by
  by_cases hh : h ∈ b.table
  · rw [insert_of_mem hh]
    exact hp
  have hsum : (b.insert h size node).sumOf Staged.payloadBytes = b.sumOf Staged.payloadBytes + (Hash.size + size) :=
    sumOf_insert hh (fun _ _ => rfl) size node
  rw [hsum, ← hp] at hr
  rw [PayloadExact, (sizes_insert hh size node).1, ByteSize.bytes_add_ofNat hr, hsum, hp]

theorem Accounted.insert {size : Nat} {node : Node} (ha : b.Accounted) (hr : (b.insert h size node).InRange) :
    (b.insert h size node).Accounted := by
  by_cases hh : h ∈ b.table
  · rw [insert_of_mem hh]
    exact ha
  obtain ⟨-, hd, hpre⟩ := sizes_insert hh size node
  obtain ⟨hpins, -, hpreimages⟩ := b.insert_frame h size node
  have hedgesSum : (b.insert h size node).sumOf Staged.edgeBytes = b.sumOf Staged.edgeBytes :=
    sumOf_insert hh (fun _ _ => rfl) size node
  refine ⟨PayloadExact.insert ha.payload hr.payload, ?_, ?_⟩
  · rw [hd, ha.edges, hedgesSum, hpins]
  · rw [hpre, ha.preimages, preimageBytes, preimageBytes, hpreimages]

theorem Accounted.pin (ha : b.Accounted) (hr : (b.pin h).InRange) : (b.pin h).Accounted := by
  by_cases hh : h ∈ b.pins
  · rw [Buffer.pin, if_pos hh]
    exact ha
  have hkeep : ∀ f : Staged → Nat, (∀ e : Staged, f e.gainParent.unlinked = f e.unlinked) → (b.pin h).sumOf f = b.sumOf f :=
    fun f hf => sumOf_map (getElem?_pin hh) fun k e => by
      split
      · exact hf e
      · rfl
  have hpayload := hkeep Staged.payloadBytes fun _ => rfl
  have hedges := hkeep Staged.edgeBytes fun _ => rfl
  have hpins : Staged.edgeSize * (b.pin h).pins.length = Staged.edgeSize * b.pins.length + Staged.edgeSize := by
    rw [pins_pin hh, List.length_append, List.length_singleton, Nat.mul_succ]
  have hrange := hr.edges
  rw [hedges, hpins, ← Nat.add_assoc, ← ha.edges] at hrange
  have hp : (b.pin h).payloadSize = b.payloadSize := by rw [Buffer.pin, if_neg hh]
  have hd : (b.pin h).edgesSize = b.edgesSize + ByteSize.ofNat Staged.edgeSize := by rw [Buffer.pin, if_neg hh]
  refine ⟨?_, ?_, ?_⟩
  · rw [hp, ha.payload, hpayload]
  · rw [hd, ByteSize.bytes_add_ofNat hrange, hedges, hpins, ha.edges, Nat.add_assoc]
  · have hpre : (b.pin h).preimagesSize = b.preimagesSize ∧ (b.pin h).preimages = b.preimages := by
      rw [Buffer.pin, if_neg hh]
      exact ⟨rfl, rfl⟩
    rw [hpre.1, ha.preimages, preimageBytes, preimageBytes, hpre.2]

theorem sizes_addEdge {child parent : Hash} (hp : b.table[parent]? = some e)
    (hc : (e.edges.getD []).count child ≠ Edges.maxCount) :
    (b.addEdge child parent).payloadSize = b.payloadSize ∧
      (b.addEdge child parent).edgesSize = b.edgesSize
        + (if e.edges.isNone then ByteSize.ofNat Staged.edgeTableSize else ByteSize.zero)
        + (if (e.edges.getD []).count child = 0 then ByteSize.ofNat Staged.edgeSize else ByteSize.zero) ∧
      (b.addEdge child parent).preimagesSize = b.preimagesSize := by
  unfold Buffer.addEdge
  rw [hp]
  dsimp only
  rw [if_neg hc]
  exact ⟨rfl, rfl, rfl⟩

/-- A new explicit reference is charged for by its entry, and the first one of a node
by the table as well. -/
theorem edgeBytes_addChild {child : Hash} (hpos : ∀ x ∈ e.edges.getD [], 0 < x.2) :
    (e.addChild child).edgeBytes = e.edgeBytes + (if e.edges.isNone then Staged.edgeTableSize else 0)
      + if (e.edges.getD []).count child = 0 then Staged.edgeSize else 0 := by
  have hlength := Edges.length_add hpos child
  unfold Staged.addChild Staged.edgeBytes
  cases hedges : e.edges with
  | none => rfl
  | some edges =>
    rw [hedges, Option.getD_some] at hlength
    simp only [Option.getD_some, Option.isNone_some, Bool.false_eq_true, if_false, hlength]
    split
    · rw [Nat.mul_succ]
      omega
    · rfl

theorem sumOf_addEdge {child parent : Hash} (hp : b.table[parent]? = some e)
    (hc : (e.edges.getD []).count child ≠ Edges.maxCount) (hf : ∀ e : Staged, f e.gainParent.unlinked = f e.unlinked) :
    (b.addEdge child parent).sumOf f + f e.unlinked = b.sumOf f + f (e.addChild child).unlinked := by
  have hget := getElem?_addEdge hp hc
  have hchange : (b.addEdge child parent).sumOf f + b.measure f parent =
      b.sumOf f + (b.addEdge child parent).measure f parent := by
    refine sumOf_change fun k hk => ?_
    rw [measure, measure, nodeAt?, nodeAt?, hget]
    cases b.table[k]? with
    | none => rfl
    | some x =>
      by_cases hck : child = k
      · simp only [hk.symm, hck, if_true, if_false, Option.map_some, Option.getD_some, hf]
      · simp only [hk.symm, hck, if_false, Option.map_some, Option.getD_some]
  have hnew : (b.addEdge child parent).measure f parent = f (e.addChild child).unlinked := by
    rw [measure, nodeAt?, hget, hp]
    by_cases hck : child = parent
    · simp only [hck, if_true, Option.map_some, Option.getD_some, hf]
    · simp only [hck, if_false, if_true, Option.map_some, Option.getD_some]
  rwa [measure_of_getElem? hp, hnew] at hchange

theorem sumOf_reference (hgain : ∀ e : Staged, f e.gainParent.unlinked = f e.unlinked)
    (hadd : ∀ (e : Staged) child, f (e.addChild child).unlinked = f e.unlinked) (child parent : Hash) :
    (b.reference child parent).sumOf f = b.sumOf f := by
  rcases reference_cases b child parent with heq | ⟨-, -, -, hpin, heq⟩ | ⟨-, -, -, e, he, hcount, heq⟩
  · rw [heq]
  · rw [heq]
    refine sumOf_map (getElem?_pin hpin) fun k e => ?_
    split
    · exact hgain e
    · rfl
  · have hchange := sumOf_addEdge he hcount hgain
    rw [hadd] at hchange
    rw [heq]
    omega

theorem payloadSize_reference (b : Buffer) (child parent : Hash) :
    (b.reference child parent).payloadSize = b.payloadSize := by
  rcases reference_cases b child parent with heq | ⟨-, -, -, hpin, heq⟩ | ⟨-, -, -, e, he, hcount, heq⟩
  · rw [heq]
  · rw [heq, Buffer.pin, if_neg hpin]
  · rw [heq]
    exact (sizes_addEdge he hcount).1

theorem PayloadExact.reference (hp : b.PayloadExact) (child parent : Hash) :
    (b.reference child parent).PayloadExact := by
  rw [PayloadExact, payloadSize_reference, sumOf_reference (fun _ => rfl) (fun _ _ => rfl)]
  exact hp

theorem Accounted.addEdge {child parent : Hash} (ha : b.Accounted) (hw : b.WellFormed)
    (hp : b.table[parent]? = some e) (hc : (e.edges.getD []).count child ≠ Edges.maxCount)
    (hr : (b.addEdge child parent).InRange) : (b.addEdge child parent).Accounted := by
  obtain ⟨hpayload, hedges, hpre⟩ := sizes_addEdge hp hc
  obtain ⟨hpins, -, hpreimages, -, -⟩ := b.addEdge_frame child parent
  have hpayloadSum : (b.addEdge child parent).sumOf Staged.payloadBytes + e.payloadBytes =
      b.sumOf Staged.payloadBytes + e.payloadBytes := sumOf_addEdge hp hc fun _ => rfl
  have hedgesSum : (b.addEdge child parent).sumOf Staged.edgeBytes + e.edgeBytes =
      b.sumOf Staged.edgeBytes + (e.addChild child).edgeBytes := sumOf_addEdge hp hc fun _ => rfl
  rw [edgeBytes_addChild (hw.edges parent e hp).pos] at hedgesSum
  have hrange := hr.edges
  rw [hpins] at hrange
  have hold := ha.edges
  have htable : (if e.edges.isNone then ByteSize.ofNat Staged.edgeTableSize else ByteSize.zero) =
      ByteSize.ofNat (if e.edges.isNone then Staged.edgeTableSize else 0) := by
    split <;> rfl
  have hchild : (if (e.edges.getD []).count child = 0 then ByteSize.ofNat Staged.edgeSize else ByteSize.zero) =
      ByteSize.ofNat (if (e.edges.getD []).count child = 0 then Staged.edgeSize else 0) := by
    split <;> rfl
  rw [htable, hchild] at hedges
  generalize (if e.edges.isNone then Staged.edgeTableSize else 0) = tableCost at *
  generalize (if (e.edges.getD []).count child = 0 then Staged.edgeSize else 0) = childCost at *
  refine ⟨?_, ?_, ?_⟩
  · rw [hpayload, ha.payload]
    omega
  · have hfirst : (b.edgesSize + ByteSize.ofNat tableCost).bytes = b.edgesSize.bytes + tableCost :=
      ByteSize.bytes_add_ofNat (by omega)
    rw [hedges, ByteSize.bytes_add_ofNat (by omega), hfirst, hpins]
    omega
  · rw [hpre, ha.preimages, preimageBytes, preimageBytes, hpreimages]

theorem Accounted.reference {child parent : Hash} (ha : b.Accounted) (hw : b.WellFormed)
    (hr : (b.reference child parent).InRange) : (b.reference child parent).Accounted := by
  rcases reference_cases b child parent with heq | ⟨-, -, -, -, heq⟩ | ⟨-, -, -, e, he, hcount, heq⟩
  · rwa [heq]
  · rw [heq] at hr ⊢
    exact ha.pin hr
  · rw [heq] at hr ⊢
    exact ha.addEdge hw he hcount hr

theorem Accounted.insertPreimage {preimage : Bytes} (ha : b.Accounted) (hr : (b.insertPreimage h preimage).InRange) :
    (b.insertPreimage h preimage).Accounted := by
  unfold Buffer.insertPreimage at hr ⊢
  split
  · exact ha
  · next hnew =>
    rw [if_neg hnew] at hr
    have hbytes : ({ b with
        preimages := b.preimages ++ [(h, preimage)]
        preimagesSize := b.preimagesSize + ByteSize.ofNat (Hash.size + preimage.length) } : Buffer).preimageBytes =
        b.preimageBytes + (Hash.size + preimage.length) := by
      simp [preimageBytes]
    have hrange := hr.preimages
    rw [hbytes, ← ha.preimages] at hrange
    refine ha.congr ⟨rfl, rfl, rfl, rfl⟩ rfl rfl ?_
    rw [hbytes, ← ha.preimages]
    exact ByteSize.bytes_add_ofNat hrange

end Buffer

end MerkleBuffer
