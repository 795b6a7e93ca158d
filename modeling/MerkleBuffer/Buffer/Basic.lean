/-
The buffer: all nodes that are staged and not stored yet, in the order in which
they were staged, with everything counted about them.

The order is a list linked through the nodes: each knows the one before and the
one after it, and the buffer knows the oldest and the newest. Roots are pinned
by the meta-root, which is no node of the table; the buffer holds its pins. The
byte counters are kept up to date by every operation and never recomputed.
-/
import MerkleBuffer.Buffer.Staged
import Std.Data.ExtTreeMap

namespace MerkleBuffer

/-- Counters of collected and flushed nodes. All but the last two start again
with every commit. -/
structure Stats where
  gcNodes : Nat
  gcSize : ByteSize
  flushNodes : Nat
  flushSize : ByteSize
  /-- Releases that found a parent count already at zero -/
  clampedDereferences : Nat
  /-- Dereferences of staged nodes that had no pin -/
  unpinnedDereferences : Nat
deriving DecidableEq

namespace Stats

def zero : Stats := ⟨0, ByteSize.zero, 0, ByteSize.zero, 0, 0⟩

/-- The counters after a commit. -/
def sinceCommit (s : Stats) : Stats :=
  { zero with
    clampedDereferences := s.clampedDereferences
    unpinnedDereferences := s.unpinnedDereferences }

end Stats

/-- The staged nodes by their hashes. -/
abbrev Table := Std.ExtTreeMap Hash Staged

theorem Table.size_erase (t : Table) {h : Hash} {e : Staged} (he : t[h]? = some e) :
    (t.erase h).size + 1 = t.size := by
  have hmem : h ∈ t := Std.ExtTreeMap.mem_iff_isSome_getElem?.2 (by simp [he])
  have hpos : t.size ≠ 0 := by
    intro hz
    have hempty : t.isEmpty = true := by simp [Std.ExtTreeMap.isEmpty_eq_size_beq_zero, hz]
    have : t = ∅ := by simpa using hempty
    subst this
    simp at hmem
  have hc : t.contains h = true := Std.ExtTreeMap.contains_iff_mem.2 hmem
  simp only [Std.ExtTreeMap.size_erase, hc, if_true]
  omega

/-- Everything that is in memory and not stored yet. -/
structure Buffer where
  table : Table
  /-- The ends of the list of staged nodes -/
  oldest : Option Hash
  newest : Option Hash
  /-- The roots pinned by the meta-root, each once -/
  pins : List Hash
  /-- Preimages of hashed keys, in the order of their arrival -/
  preimages : List (Hash × Bytes)
  /-- Bytes charged for encodings -/
  payloadSize : ByteSize
  /-- Bytes charged for explicit references and pins -/
  edgesSize : ByteSize
  /-- Bytes charged for preimages -/
  preimagesSize : ByteSize
  stats : Stats

namespace Buffer

def empty : Buffer where
  table := ∅
  oldest := none
  newest := none
  pins := []
  preimages := []
  payloadSize := ByteSize.zero
  edgesSize := ByteSize.zero
  preimagesSize := ByteSize.zero
  stats := Stats.zero

instance : Inhabited Buffer := ⟨empty⟩

/-- The number of staged nodes. -/
def length (b : Buffer) : Nat := b.table.size

/-- Everything charged for staged nodes; pins are not. -/
def residentSize (b : Buffer) : ByteSize :=
  b.payloadSize + b.edgesSize + ByteSize.ofNat (Staged.overhead * b.length)
    - ByteSize.ofNat (Staged.edgeSize * b.pins.length)

/-! ## The order of staging -/

/-- The nodes from `cursor` on, at most `n` of them. -/
def nodesFrom (table : Table) : Nat → Option Hash → List (Hash × Staged)
  | 0, _ => []
  | _ + 1, none => []
  | n + 1, some h =>
    match table[h]? with
    | none => []
    | some e => (h, e) :: nodesFrom table n e.next

/-- The staged nodes from the oldest to the newest. -/
def inOrder (b : Buffer) : List (Hash × Staged) := nodesFrom b.table b.table.size b.oldest

/-- The hashes of the staged nodes from the oldest to the newest. -/
def flushOrder (b : Buffer) : List Hash := b.inOrder.map (·.1)

/-- Join the neighbours of a node that has left the table. -/
def joinNeighbours (b : Buffer) (prev next : Option Hash) : Buffer :=
  let b := match prev with
    | some p =>
      if b.table.contains p then { b with table := b.table.modify p fun e => { e with next } }
      else { b with oldest := next }
    | none => { b with oldest := next }
  match next with
  | some n =>
    if b.table.contains n then { b with table := b.table.modify n fun e => { e with prev } }
    else { b with newest := prev }
  | none => { b with newest := prev }

theorem size_joinNeighbours (b : Buffer) (prev next : Option Hash) :
    (b.joinNeighbours prev next).table.size = b.table.size := by
  unfold joinNeighbours
  cases prev <;> cases next <;> dsimp only <;> repeat' split
  all_goals simp [Std.ExtTreeMap.size_modify]

/-! ## Staging and leaving -/

/-- Stage a node under `h`, as the newest. A hash that is staged already stays
as it is. Staged children gain a parent for every slot that holds them. -/
def insert (b : Buffer) (h : Hash) (size : Nat) (node : Node) : Buffer :=
  if b.table.contains h then b
  else
    let e : Staged := { node, size, parents := 0, edges := none, prev := b.newest, next := none }
    let table := e.embedded.foldl (fun t child => t.modify child Staged.gainParent) b.table
    let table := table.insert h e
    let table := match b.oldest, b.newest with
      | some _, some n => table.modify n fun e => { e with next := some h }
      | _, _ => table
    { b with
      table
      oldest := b.oldest.or (some h)
      newest := some h
      payloadSize := b.payloadSize + e.payload }

/-- Take the node `e`, which is staged under `h`, out of the buffer. -/
def remove (b : Buffer) (h : Hash) (e : Staged) : Buffer :=
  let b := { b with
    table := b.table.erase h
    payloadSize := b.payloadSize - e.payload
    edgesSize := b.edgesSize - e.edgeCost }
  b.joinNeighbours e.prev e.next

theorem size_remove (b : Buffer) {h : Hash} {e : Staged} (he : b.table[h]? = some e) :
    (b.remove h e).table.size + 1 = b.table.size := by
  unfold remove
  rw [size_joinNeighbours]
  exact b.table.size_erase he

/-- Drop the node under `h`, if there is one: it is stored now. Its children
keep their parents. -/
def discard (b : Buffer) (h : Hash) : Buffer :=
  match b.table[h]? with
  | none => b
  | some e => b.remove h e

/-! ## Preimages -/

/-- Buffer the preimage of a hashed key. The first one for a hash counts. -/
def insertPreimage (b : Buffer) (h : Hash) (preimage : Bytes) : Buffer :=
  if b.preimages.any (·.1 == h) then b
  else { b with
    preimages := b.preimages ++ [(h, preimage)]
    preimagesSize := b.preimagesSize + ByteSize.ofNat (Hash.size + preimage.length) }

/-- The buffered preimage of a hash. -/
def preimage? (b : Buffer) (h : Hash) : Option Bytes :=
  (b.preimages.find? (·.1 == h)).map (·.2)

def clearPreimages (b : Buffer) : Buffer :=
  { b with preimages := [], preimagesSize := ByteSize.zero }

end Buffer

end MerkleBuffer
