/-
Reference counting over the staged nodes.

A node counts the edges and the pin that hold it. Letting go of one of them
lowers the count, and a node that nothing holds any more leaves the buffer and
lets go of its own children. Nodes that are not staged are stored and not
counted.
-/
import MerkleBuffer.Buffer.Basic

namespace MerkleBuffer.Buffer

/-- Pin a root. It is pinned once, however often this is asked for. -/
def pin (b : Buffer) (root : Hash) : Buffer :=
  if root ∈ b.pins then b
  else { b with
    table := b.table.modify root Staged.gainParent
    pins := b.pins ++ [root]
    edgesSize := b.edgesSize + ByteSize.ofNat Staged.edgeSize }

/-- Add an explicit reference from the staged node `parent` to the staged node
`child`. A child referenced as often as can be counted stays as it is. -/
def addEdge (b : Buffer) (child parent : Hash) : Buffer :=
  match b.table[parent]? with
  | none => b
  | some p =>
    let edges := p.edges.getD []
    let count := edges.count child
    if count = Edges.maxCount then b
    else
      let tableCost := if p.edges.isNone then ByteSize.ofNat Staged.edgeTableSize else ByteSize.zero
      let childCost := if count = 0 then ByteSize.ofNat Staged.edgeSize else ByteSize.zero
      let table := b.table.modify parent fun p => { p with edges := some (edges.add child) }
      { b with
        table := table.modify child Staged.gainParent
        edgesSize := b.edgesSize + tableCost + childCost }

/-- Add a reference from `parent` to `child`; the zero hash as the parent pins
the child. Nothing happens if either is not staged, or if they are the same. -/
def reference (b : Buffer) (child parent : Hash) : Buffer :=
  if child = parent ∨ !b.table.contains child then b
  else if parent.isZero then b.pin child
  else b.addEdge child parent

/-- Count a release that found the parent count at zero. -/
def countClamped (b : Buffer) : Buffer :=
  { b with stats := { b.stats with clampedDereferences := b.stats.clampedDereferences + 1 } }

/-- Let go once of each hash in `pending`, and of the children of every node
that leaves the buffer because nothing holds it any more. -/
def release (b : Buffer) (pending : List Hash) : Buffer :=
  match pending with
  | [] => b
  | h :: rest =>
    match _he : b.table[h]? with
    | none => release b rest
    | some e =>
      if e.parents = 0 then release (b.countClamped.remove h e) (e.references ++ rest)
      else if e.parents = 1 then release (b.remove h e) (e.references ++ rest)
      else release { b with table := b.table.modify h Staged.loseParent } rest
termination_by (b.table.size, pending.length)
decreasing_by
  · exact Prod.Lex.right _ (by simp)
  · have hlt := size_remove b.countClamped _he
    exact Prod.Lex.left _ _ (by simp only [countClamped] at hlt ⊢; omega)
  · have hlt := size_remove b _he
    exact Prod.Lex.left _ _ (by omega)
  · simp only [Std.ExtTreeMap.size_modify]
    exact Prod.Lex.right _ (by simp)

/-- Take the pin off a root and let go of it. A root without a pin is let go of
all the same. -/
def unpin (b : Buffer) (root : Hash) : Buffer :=
  if root ∈ b.pins then
    release { b with
      pins := b.pins.erase root
      edgesSize := b.edgesSize - ByteSize.ofNat Staged.edgeSize } [root]
  else release b [root]

/-- Release the pin on `root`, and count what left the buffer with it. -/
def dereference (b : Buffer) (root : Hash) : Buffer :=
  let unpinned := if root ∉ b.pins ∧ b.table.contains root then 1 else 0
  let after := b.unpin root
  { after with stats := { after.stats with
      unpinnedDereferences := after.stats.unpinnedDereferences + unpinned
      gcNodes := after.stats.gcNodes + (b.length - after.length)
      gcSize := after.stats.gcSize + (b.payloadSize - after.payloadSize) } }

end MerkleBuffer.Buffer
