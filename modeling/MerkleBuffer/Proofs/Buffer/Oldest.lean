/-
The oldest nodes of a buffer, and how many of them have to go.

A cap decides how many nodes go by a running size: it starts from what all nodes are
charged and takes off the cost of one node after another. Where the counters are exact, so
is the running size at every step, and the nodes that go are the shortest prefix of the
order that brings the rest down to the limit (`overflow_eq_take`). Dropping a prefix leaves
the rest of the order with its sums (`flushOrder_discards_take`, `sumOf_discards_take`).
-/
import MerkleBuffer.Proofs.Buffer.Sizes

namespace MerkleBuffer

theorem Staged.bytes_cost {e : Staged} (hrange : e.residentBytes < UInt64.size) : e.cost.bytes = e.residentBytes := by
  rw [residentBytes] at hrange ⊢
  have hpayload : e.payload.bytes = e.payloadBytes :=
    ByteSize.bytes_ofNat_of_lt (show e.payloadBytes < UInt64.size by omega)
  have hoverhead : (ByteSize.ofNat overhead).bytes = overhead := by decide
  have hedges : e.edgeCost.bytes = e.edgeBytes := by
    rw [edgeCost_eq]
    exact ByteSize.bytes_ofNat_of_lt (by omega)
  have hfirst : (e.payload + ByteSize.ofNat overhead).bytes = e.payloadBytes + overhead := by
    rw [ByteSize.bytes_add_of_lt (by omega), hpayload, hoverhead]
  rw [cost, ByteSize.bytes_add_of_lt (by omega), hfirst, hedges]

namespace Buffer

/-- What some nodes are charged for. -/
def charged (nodes : List (Hash × Staged)) : Nat := total (nodes.map fun x => x.2.residentBytes)

theorem charged_cons (node : Hash × Staged) (rest : List (Hash × Staged)) :
    charged (node :: rest) = node.2.residentBytes + charged rest := rfl

/-- **Exactly as many nodes as have to go.** From an exact size, counting down one node
after another stops at the least number of nodes without which the rest fits the limit. -/
theorem overflow_eq_take (limit : ByteSize) {size : ByteSize} {nodes : List (Hash × Staged)}
    (hsize : size.bytes = charged nodes) : ∃ k, overflow limit size nodes = nodes.take k ∧
      IsLeast { n | charged (nodes.drop n) ≤ limit.bytes } k := by
  induction nodes generalizing size with
  | nil => exact ⟨0, rfl, Nat.zero_le _, fun n _ => Nat.zero_le n⟩
  | cons node rest ih =>
    rw [charged_cons] at hsize
    have hmax := size.lt_max
    by_cases hover : limit < size
    · have hcost : node.2.cost.bytes = node.2.residentBytes := Staged.bytes_cost (by omega)
      have hrest : (size - node.2.cost).bytes = charged rest := by
        rw [ByteSize.bytes_sub, hcost]
        omega
      obtain ⟨k, htake, hmem, hleast⟩ := ih hrest
      refine ⟨k + 1, ?_, hmem, ?_⟩
      · rw [overflow, if_pos hover, htake]
        rfl
      · intro n hn
        cases n with
        | zero =>
          have hfits : node.2.residentBytes + charged rest ≤ limit.bytes := hn
          rw [ByteSize.lt_def] at hover
          omega
        | succ n => exact Nat.succ_le_succ (hleast hn)
    · refine ⟨0, ?_, ?_, fun n _ => Nat.zero_le n⟩
      · rw [overflow, if_neg hover]
        rfl
      · show node.2.residentBytes + charged rest ≤ limit.bytes
        rw [ByteSize.lt_def] at hover
        omega

variable {b b' : Buffer} {f : Staged → Nat}

/-- A buffer with no more to charge for is in range as well. -/
theorem InRange.mono (hr : b.InRange) (hnodes : b'.sumOf Staged.residentBytes ≤ b.sumOf Staged.residentBytes)
    (hpins : b'.pins = b.pins) (hpreimages : b'.preimageBytes ≤ b.preimageBytes) : b'.InRange where
  nodes := by
    rw [hpins]
    exact Nat.lt_of_le_of_lt (Nat.add_le_add_right hnodes _) hr.nodes
  preimages := Nat.lt_of_le_of_lt hpreimages hr.preimages

/-- What all nodes are charged for, without the pins, is the size of the buffer. -/
theorem Accounted.charged_inOrder (ha : b.Accounted) (hr : b.InRange) (hl : b.Linked b.flushOrder) :
    b.residentSize.bytes = charged b.inOrder := by
  rw [ha.resident hr]
  exact (sumOf_inOrder hl fun _ => rfl).symm

theorem length_inOrder (hl : b.Linked b.flushOrder) : b.inOrder.length = b.length := by
  rw [length, ← hl.length, flushOrder, List.length_map]

/-! ## Dropping a prefix -/

theorem flushOrder_discards_take (hl : b.Linked b.flushOrder) (k : Nat) :
    (b.discards (b.flushOrder.take k)).flushOrder = b.flushOrder.drop k := by
  have hnodup := hl.nodup
  rw [← List.take_append_drop k b.flushOrder] at hnodup
  obtain ⟨-, -, hdisjoint⟩ := List.nodup_append.1 hnodup
  rw [flushOrder_discards hl]
  conv_lhs => rw [← List.take_append_drop k b.flushOrder]
  rw [List.filter_append, List.filter_eq_nil_iff.2 fun h hh => by simpa using hh, List.nil_append,
    List.take_append_drop, List.filter_eq_self]
  intro h hh
  rw [decide_eq_true_iff]
  exact fun htake => hdisjoint h htake h hh rfl

theorem sumOf_discards_take (hl : b.Linked b.flushOrder) (hf : ∀ e, f e.unlinked = f e) (k : Nat) :
    (b.discards (b.flushOrder.take k)).sumOf f = total ((b.inOrder.drop k).map fun x => f x.2) := by
  have hl' := (Remnant.discards hl (b.flushOrder.take k)).2
  have horder := flushOrder_discards_take hl k
  rw [← sumOf_inOrder hl' hf, map_inOrder hl' hf, List.map_drop, map_inOrder hl hf, ← List.map_drop, horder]
  refine congrArg total (List.map_congr_left fun h hh => ?_)
  have hleft : h ∉ b.flushOrder.take k := by
    rw [← horder, flushOrder_discards hl, List.mem_filter, decide_eq_true_iff] at hh
    exact hh.2
  rw [measure, nodeAt?_discards, if_neg hleft, measure]

theorem sumOf_take_add_drop (hl : b.Linked b.flushOrder) (hf : ∀ e, f e.unlinked = f e) (k : Nat) :
    total ((b.inOrder.take k).map fun x => f x.2) + (b.discards (b.flushOrder.take k)).sumOf f = b.sumOf f := by
  rw [sumOf_discards_take hl hf, ← total_append, ← List.map_append, List.take_append_drop, sumOf_inOrder hl hf]

/-- **What dropping the oldest nodes is counted as**: one node for each, and the bytes of
its encoding and key. -/
theorem stats_discardFlushed_take (ha : b.Accounted) (hl : b.Linked b.flushOrder) {k : Nat} (hk : k ≤ b.length) :
    (b.discardFlushed (b.inOrder.take k)).stats = { b.stats with
      flushNodes := b.stats.flushNodes + k
      flushSize := b.stats.flushSize + ByteSize.ofNat (total ((b.inOrder.take k).map fun x => x.2.payloadBytes)) } := by
  have hfold : (b.inOrder.take k).foldl (fun b node => b.discard node.1) b = b.discards (b.flushOrder.take k) := by
    rw [Buffer.discards, flushOrder, ← List.map_take, List.foldl_map]
  have hl' := (Remnant.discards hl (b.flushOrder.take k)).2
  have hlength : (b.discards (b.flushOrder.take k)).length = b.length - k := by
    rw [length, ← hl'.length, flushOrder_discards_take hl, List.length_drop, hl.length, length]
  have hpayload : b.payloadSize - (b.discards (b.flushOrder.take k)).payloadSize =
      ByteSize.ofNat (total ((b.inOrder.take k).map fun x => x.2.payloadBytes)) := by
    have hsum := sumOf_take_add_drop hl (f := Staged.payloadBytes) (fun _ => rfl) k
    have hafter := (ha.discards (b.flushOrder.take k)).payload
    have hbefore := ha.payload
    have hmax := b.payloadSize.lt_max
    ext
    rw [ByteSize.bytes_sub, ByteSize.bytes_ofNat_of_lt (by omega)]
    omega
  have hstats := (b.discards_frame (b.flushOrder.take k)).2.1
  rw [discardFlushed, hfold, hpayload, hlength, hstats, Nat.sub_sub_self hk]

end Buffer

end MerkleBuffer
