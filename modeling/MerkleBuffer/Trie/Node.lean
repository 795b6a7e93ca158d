/-
The nodes of a Merkle trie in collapsed form.

A branch holds child slots indexed by the next key byte, a leaf holds the rest
of a key and a single slot. A slot embeds a small value or points to another
node by its hash. `Children` keeps its slots strictly ascending by index, so
two branches with the same slots are equal whatever order they were set in.
-/
import MerkleBuffer.Hash

namespace MerkleBuffer

/-- One child slot of a node. -/
inductive Slot where
  | hash (target : Hash)
  | inline (value : Bytes)
deriving DecidableEq, Repr

/-- The node a slot points to, if it points to one. -/
def Slot.target? : Slot → Option Hash
  | .hash target => some target
  | .inline _ => none

/-- Put a slot at its place in a list of slots ordered by index, replacing the
slot that has the same index. -/
def insertSlot (index : UInt8) (slot : Slot) : List (UInt8 × Slot) → List (UInt8 × Slot)
  | [] => [(index, slot)]
  | (i, s) :: rest =>
    if index < i then (index, slot) :: (i, s) :: rest
    else if index = i then (index, slot) :: rest
    else (i, s) :: insertSlot index slot rest

theorem mem_insertSlot {index : UInt8} {slot : Slot} {slots : List (UInt8 × Slot)} {p : UInt8 × Slot}
    (h : p ∈ insertSlot index slot slots) : p = (index, slot) ∨ p ∈ slots := by
  induction slots with
  | nil => simpa [insertSlot] using h
  | cons q rest ih =>
    obtain ⟨i, s⟩ := q
    unfold insertSlot at h
    split at h
    · simpa using h
    · split at h
      · rcases List.mem_cons.1 h with h | h
        · exact .inl h
        · exact .inr (List.mem_cons_of_mem _ h)
      · rcases List.mem_cons.1 h with h | h
        · exact .inr (h ▸ List.mem_cons_self)
        · exact (ih h).imp_right (List.mem_cons_of_mem _)

theorem ascending_insertSlot {index : UInt8} {slot : Slot} {slots : List (UInt8 × Slot)}
    (h : slots.Pairwise (·.1 < ·.1)) : (insertSlot index slot slots).Pairwise (·.1 < ·.1) := by
  induction slots with
  | nil => simp [insertSlot]
  | cons q rest ih =>
    obtain ⟨i, s⟩ := q
    obtain ⟨hfirst, hrest⟩ := List.pairwise_cons.1 h
    unfold insertSlot
    split
    · rename_i hlt
      refine List.pairwise_cons.2 ⟨?_, h⟩
      intro p hp
      rcases List.mem_cons.1 hp with rfl | hp
      · exact hlt
      · exact UInt8.lt_trans hlt (hfirst p hp)
    · split
      · rename_i heq
        subst heq
        exact List.pairwise_cons.2 ⟨hfirst, hrest⟩
      · rename_i hge hne
        refine List.pairwise_cons.2 ⟨?_, ih hrest⟩
        intro p hp
        rcases mem_insertSlot hp with rfl | hp
        · exact UInt8.lt_of_le_of_ne (UInt8.not_lt.1 hge) (Ne.symm hne)
        · exact hfirst p hp

/-- The child slots of a branch, strictly ascending by index. -/
structure Children where
  slots : List (UInt8 × Slot)
  ascending : slots.Pairwise (·.1 < ·.1)
deriving DecidableEq

namespace Children

def empty : Children := ⟨[], .nil⟩

/-- Set the slot at an index. -/
def insert (c : Children) (index : UInt8) (slot : Slot) : Children :=
  ⟨insertSlot index slot c.slots, ascending_insertSlot c.ascending⟩

/-- Set a list of slots, later ones over earlier ones. -/
def ofList (slots : List (UInt8 × Slot)) : Children :=
  slots.foldl (fun c p => c.insert p.1 p.2) empty

@[ext] theorem ext {a b : Children} (h : a.slots = b.slots) : a = b := by
  cases a; cases b; simp_all

end Children

/-- A collapsed trie node: exactly the data that its encoding holds. -/
inductive TrieNode where
  /-- Child slots below the shared bytes `stem`, and the value of the key that ends here -/
  | branch (stem : Bytes) (children : Children) (value : Option Bytes)
  /-- The remaining bytes of a key, with a value or the node that continues it -/
  | leaf (suffix : Bytes) (slot : Slot)
  | empty
deriving DecidableEq

namespace TrieNode

instance : Inhabited TrieNode := ⟨empty⟩

/-- A leaf that holds a value. -/
def valueLeaf (suffix value : Bytes) : TrieNode := leaf suffix (.inline value)

/-- A leaf that continues into another node. -/
def extension (suffix : Bytes) (target : Hash) : TrieNode := leaf suffix (.hash target)

/-- A branch without children or value. -/
def bareBranch (stem : Bytes) : TrieNode := branch stem Children.empty none

/-- Set a child slot of a branch; other nodes have none to set. -/
def withChild : TrieNode → UInt8 → Slot → TrieNode
  | branch stem children value, index, slot => branch stem (children.insert index slot) value
  | node, _, _ => node

/-- Whether a node is the empty node. -/
def isEmpty : TrieNode → Bool
  | empty => true
  | _ => false

/-- The hashes a node points to, in slot order, with repetitions. -/
def childHashes : TrieNode → List Hash
  | branch _ children _ => children.slots.filterMap (·.2.target?)
  | leaf _ slot => slot.target?.toList
  | empty => []

end TrieNode

end MerkleBuffer
