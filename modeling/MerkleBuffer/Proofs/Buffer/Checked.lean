/-
The operations that count bytes down, with every difference checked.

A counter that would fall below zero stops at zero, so a drift would not show. The
operations here are those of the buffer with one change: instead of stopping at zero,
they give up. Where the counters are exact they never do, and their results are those
of the buffer (`Accounted.release?` and so on).
-/
import MerkleBuffer.Proofs.Buffer.Sizes

namespace MerkleBuffer

/-- The difference of two counters, unless it is below zero. -/
def ByteSize.sub? (a b : ByteSize) : Option ByteSize := if b ≤ a then some (a - b) else none

theorem ByteSize.sub?_eq_some {a b : ByteSize} (h : b.bytes ≤ a.bytes) : a.sub? b = some (a - b) := if_pos h

namespace Buffer

/-! ## Checked operations -/

/-- Everything charged for staged nodes, with the pins taken off. -/
def residentSize? (b : Buffer) : Option ByteSize :=
  (b.payloadSize + b.edgesSize + ByteSize.ofNat (Staged.overhead * b.length)).sub?
    (ByteSize.ofNat (Staged.edgeSize * b.pins.length))

/-- Take the node `e`, which is staged under `h`, out of the buffer. -/
def remove? (b : Buffer) (h : Hash) (e : Staged) : Option Buffer := do
  let payloadSize ← b.payloadSize.sub? e.payload
  let edgesSize ← b.edgesSize.sub? e.edgeCost
  let b := { b with table := b.table.erase h, payloadSize, edgesSize }
  return b.joinNeighbours e.prev e.next

/-- Drop the node under `h`, if there is one. -/
def discard? (b : Buffer) (h : Hash) : Option Buffer :=
  match b.table[h]? with
  | none => some b
  | some e => b.remove? h e

/-- Drop nodes one by one. -/
def discards? (b : Buffer) : List Hash → Option Buffer
  | [] => some b
  | h :: rest => do (← b.discard? h).discards? rest

theorem remove?_eq_some {b after : Buffer} {h : Hash} {e : Staged} (hr : b.remove? h e = some after) :
    after = b.remove h e := by
  simp only [remove?, ByteSize.sub?, Option.bind_eq_bind] at hr
  split at hr
  · split at hr
    · exact (Option.some.inj hr).symm
    · cases hr
  · cases hr

/-- Let go once of each hash in `pending`, and of the children of every node that
leaves. -/
def release? (b : Buffer) (pending : List Hash) : Option Buffer :=
  match pending with
  | [] => some b
  | h :: rest =>
    match _he : b.table[h]? with
    | none => release? b rest
    | some e =>
      if e.parents = 0 then
        match _hr : b.countClamped.remove? h e with
        | none => none
        | some after => release? after (e.references ++ rest)
      else if e.parents = 1 then
        match _hr : b.remove? h e with
        | none => none
        | some after => release? after (e.references ++ rest)
      else release? { b with table := b.table.modify h Staged.loseParent } rest
termination_by (b.table.size, pending.length)
decreasing_by
  · exact Prod.Lex.right _ (by simp)
  · have hlt := size_remove b.countClamped _he
    rw [remove?_eq_some _hr]
    exact Prod.Lex.left _ _ (by simp only [countClamped] at hlt ⊢; omega)
  · have hlt := size_remove b _he
    rw [remove?_eq_some _hr]
    exact Prod.Lex.left _ _ (by omega)
  · simp only [Std.ExtTreeMap.size_modify]
    exact Prod.Lex.right _ (by simp)

/-- Take the pin off a root and let go of it. -/
def unpin? (b : Buffer) (root : Hash) : Option Buffer :=
  if root ∈ b.pins then do
    let edgesSize ← b.edgesSize.sub? (ByteSize.ofNat Staged.edgeSize)
    release? { b with pins := b.pins.erase root, edgesSize } [root]
  else release? b [root]

/-- Release the pin on `root`, and count what left the buffer with it. -/
def dereference? (b : Buffer) (root : Hash) : Option Buffer := do
  let unpinned := if root ∉ b.pins ∧ b.table.contains root then 1 else 0
  let after ← b.unpin? root
  let freed ← b.payloadSize.sub? after.payloadSize
  return { after with stats := { after.stats with
      unpinnedDereferences := after.stats.unpinnedDereferences + unpinned
      gcNodes := after.stats.gcNodes + (b.length - after.length)
      gcSize := after.stats.gcSize + freed } }

/-- Drop nodes that are stored now, and count them. -/
def discardFlushed? (b : Buffer) (flushed : List (Hash × Staged)) : Option Buffer := do
  let after ← b.discards? (flushed.map (·.1))
  let freed ← b.payloadSize.sub? after.payloadSize
  return { after with stats := { after.stats with
      flushNodes := after.stats.flushNodes + (b.length - after.length)
      flushSize := after.stats.flushSize + freed } }

/-- The oldest nodes that have to go until `size` bytes come down to `limit`. -/
def overflow? (limit : ByteSize) : ByteSize → List (Hash × Staged) → Option (List (Hash × Staged))
  | _, [] => some []
  | size, (h, e) :: rest =>
    if limit < size then do
      let size ← size.sub? e.cost
      return (h, e) :: (← overflow? limit size rest)
    else some []

/-! ## Exact counters never fall below zero -/

variable {b : Buffer} {h : Hash} {e : Staged}

theorem Accounted.remove? (ha : b.Accounted) (he : b.table[h]? = some e) : b.remove? h e = some (b.remove h e) := by
  obtain ⟨hpayload, hpayloadLe, hedges, hedgesLe⟩ := ha.covers he
  rw [Buffer.remove?, ByteSize.sub?_eq_some (hpayload ▸ hpayloadLe), ByteSize.sub?_eq_some (hedges ▸ hedgesLe)]
  rfl

theorem Accounted.discard? (ha : b.Accounted) (h : Hash) : b.discard? h = some (b.discard h) := by
  cases he : b.table[h]? with
  | none => simp only [Buffer.discard?, Buffer.discard, he]
  | some e =>
    simp only [Buffer.discard?, Buffer.discard, he]
    exact ha.remove? he

theorem Accounted.discards? (ha : b.Accounted) (hs : List Hash) : b.discards? hs = some (b.discards hs) := by
  induction hs generalizing b with
  | nil => rfl
  | cons h rest ih =>
    rw [Buffer.discards?, ha.discard?]
    exact ih (ha.discard h)

theorem release?_skip {rest : List Hash} (hnone : b.table[h]? = none) :
    b.release? (h :: rest) = b.release? rest := by
  rw [release?]
  split
  · rfl
  · next he => rw [hnone] at he; cases he

theorem release?_step {rest : List Hash} (he : b.table[h]? = some e) :
    b.release? (h :: rest) =
      if e.parents = 0 then (b.countClamped.remove? h e).bind (·.release? (e.references ++ rest))
      else if e.parents = 1 then (b.remove? h e).bind (·.release? (e.references ++ rest))
      else release? { b with table := b.table.modify h Staged.loseParent } rest := by
  rw [release?]
  split
  · next hnone => rw [he] at hnone; cases hnone
  next e' he' =>
  obtain rfl : e = e' := Option.some.inj (he.symm.trans he')
  split
  · split
    · next hnone => rw [hnone]; rfl
    · next hafter => rw [hafter]; rfl
  split
  · split
    · next hnone => rw [hnone]; rfl
    · next hafter => rw [hafter]; rfl
  · rfl

theorem Accounted.release? (ha : b.Accounted) (pending : List Hash) :
    b.release? pending = some (b.release pending) := by
  fun_induction Buffer.release b pending with
  | case1 b => rw [Buffer.release?]
  | case2 b h rest hnone ih =>
    rw [release?_skip hnone]
    exact ih ha
  | case3 b h rest e he hzero ih =>
    rw [release?_step he, if_pos hzero, ha.countClamped.remove? he]
    exact ih (ha.countClamped.remove he)
  | case4 b h rest e he hzero hone ih =>
    rw [release?_step he, if_neg hzero, if_pos hone, ha.remove? he]
    exact ih (ha.remove he)
  | case5 b h rest e he hzero hone ih =>
    rw [release?_step he, if_neg hzero, if_neg hone]
    exact ih (ha.lower h)

theorem Accounted.unpin? (ha : b.Accounted) (root : Hash) : b.unpin? root = some (b.unpin root) := by
  unfold Buffer.unpin? Buffer.unpin
  split
  · next hroot =>
    rw [ByteSize.sub?_eq_some (ha.covers_pin hroot)]
    exact (ha.withoutPin hroot).release? [root]
  · exact ha.release? [root]

theorem sub?_payloadSize {b' : Buffer} (ha : b.Accounted) (ha' : b'.Accounted) (hr : Remnant b b') :
    b.payloadSize.sub? b'.payloadSize = some (b.payloadSize - b'.payloadSize) := by
  refine ByteSize.sub?_eq_some ?_
  rw [ha.payload, ha'.payload]
  exact sumOf_le_of_remnant hr payloadBytes_congr

theorem Accounted.dereference? (ha : b.Accounted) (hl : b.Linked b.flushOrder) (root : Hash) :
    b.dereference? root = some (b.dereference root) := by
  have hremnant : Remnant b (b.unpin root) := by
    have hsame : SameNodes (b.dereference root) (b.unpin root) := ⟨rfl, rfl, rfl, rfl⟩
    exact hsame.remnant (remnant_dereference hl root).1
  rw [Buffer.dereference?, ha.unpin?]
  show (b.payloadSize.sub? (b.unpin root).payloadSize).bind _ = _
  rw [sub?_payloadSize ha (ha.unpin root) hremnant]
  rfl

theorem Accounted.discardFlushed? (ha : b.Accounted) (hl : b.Linked b.flushOrder) (nodes : List (Hash × Staged)) :
    b.discardFlushed? nodes = some (b.discardFlushed nodes) := by
  have hfold : nodes.foldl (fun b node => b.discard node.1) b = b.discards (nodes.map (·.1)) := by
    rw [Buffer.discards, List.foldl_map]
  rw [Buffer.discardFlushed?, ha.discards?, Buffer.discardFlushed, hfold]
  show (b.payloadSize.sub? (b.discards (nodes.map (·.1))).payloadSize).bind _ = _
  rw [sub?_payloadSize ha (ha.discards _) (Remnant.discards hl _).1]
  rfl

theorem Accounted.residentSize? (ha : b.Accounted) (hr : b.InRange) : b.residentSize? = some b.residentSize := by
  refine ByteSize.sub?_eq_some (Nat.le_trans (ByteSize.bytes_ofNat_le _) ?_)
  have hnodes := hr.nodes
  rw [sumOf_residentBytes] at hnodes
  have hpayload := ha.payload
  have hedges := ha.edges
  rw [ByteSize.bytes_add, ByteSize.bytes_add]
  omega

/-- A running size that holds everything still charged is counted down without a gap. -/
theorem overflow?_eq {limit size : ByteSize} {nodes : List (Hash × Staged)}
    (hsize : total (nodes.map fun x => x.2.residentBytes) ≤ size.bytes) :
    overflow? limit size nodes = some (overflow limit size nodes) := by
  induction nodes generalizing size with
  | nil => rfl
  | cons node rest ih =>
    obtain ⟨h, e⟩ := node
    have hsize : e.residentBytes + total (rest.map fun x => x.2.residentBytes) ≤ size.bytes := hsize
    have hcost := e.bytes_cost_le
    have hrest : total (rest.map fun x => x.2.residentBytes) ≤ (size - e.cost).bytes := by
      rw [ByteSize.bytes_sub]
      omega
    rw [overflow?, overflow]
    split
    · rw [ByteSize.sub?_eq_some (by omega)]
      show (overflow? limit (size - e.cost) rest).bind _ = _
      rw [ih hrest]
      rfl
    · rfl

theorem Accounted.overflow? (ha : b.Accounted) (hr : b.InRange) (hl : b.Linked b.flushOrder) (limit : ByteSize) :
    overflow? limit b.residentSize b.inOrder = some (overflow limit b.residentSize b.inOrder) := by
  refine overflow?_eq (Nat.le_of_eq ?_)
  rw [ha.resident hr]
  exact sumOf_inOrder hl fun _ => rfl

end Buffer

end MerkleBuffer
