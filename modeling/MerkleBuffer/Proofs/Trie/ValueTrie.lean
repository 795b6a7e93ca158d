/-
The trie of a list of values.

It has a leaf for each value and one branch above them, which holds the hashes of the
leaves in their order (`valueRoot_eq`). The leaves are all different, since each is numbered
by its place, and every node reads back from its encoding (`fits_of_mem`) and goes into a
record of a store file (`record_fits`).
-/
import MerkleBuffer.Database.ValueTrie
import MerkleBuffer.Proofs.Store.RecordLog
import MerkleBuffer.Proofs.Trie.Codec
import Mathlib.Data.List.Nodup

namespace MerkleBuffer

namespace TrieNode

/-- The branch above the leaves of a list of values. -/
def valueRoot (values : List String) : TrieNode := branchAbove ((numberedLeaves values).map hash)

/-- The nodes of the trie of a list of values. -/
def valueTrie (values : List String) : List TrieNode := numberedLeaves values ++ [valueRoot values]

/-- A node as it is put into a store. -/
def put (node : TrieNode) : Put := ⟨node.hash.bytes, node.encode⟩

/-- The slots of the branch above nodes with these hashes. -/
def slotsAbove (hashes : List Hash) : List (UInt8 × Slot) :=
  hashes.mapIdx fun place h => (UInt8.ofNat place, .hash h)

variable {values : List String} {node other : TrieNode} {hashes : List Hash}

theorem mem_valueTrie : node ∈ valueTrie values ↔ node ∈ numberedLeaves values ∨ node = valueRoot values := by
  rw [valueTrie, List.mem_append, List.mem_singleton]

theorem valueRoot_mem (values : List String) : valueRoot values ∈ valueTrie values := mem_valueTrie.2 (.inr rfl)

@[simp]
theorem length_numberedLeaves (values : List String) : (numberedLeaves values).length = values.length :=
  List.length_mapIdx

/-! ## The branch -/

theorem branchAbove_eq (hashes : List Hash) :
    branchAbove hashes = branch [] (Children.ofList (slotsAbove hashes)) none := by
  have hfold : ∀ (entries : List (Hash × Nat)) (children : Children),
      entries.foldl (fun node x => node.withChild (UInt8.ofNat x.2) (.hash x.1)) (branch [] children none) =
        branch [] ((entries.map fun x => (UInt8.ofNat x.2, Slot.hash x.1)).foldl (fun c p => c.insert p.1 p.2)
          children) none := by
    intro entries
    induction entries with
    | nil => exact fun _ => rfl
    | cons x rest ih => exact fun children => ih (children.insert (UInt8.ofNat x.2) (.hash x.1))
  have hslots : slotsAbove hashes = hashes.zipIdx.map fun x => (UInt8.ofNat x.2, Slot.hash x.1) :=
    List.mapIdx_eq_zipIdx_map
  rw [hslots]
  exact hfold hashes.zipIdx .empty

theorem ascending_slotsAbove (hlength : hashes.length ≤ maxValues) : (slotsAbove hashes).Pairwise (·.1 < ·.1) := by
  rw [List.pairwise_iff_getElem]
  intro i j hi hj hij
  simp only [slotsAbove, List.length_mapIdx, List.getElem_mapIdx, maxValues] at hi hj hlength ⊢
  rw [UInt8.lt_iff_toNat_lt, UInt8.toNat_ofNat', UInt8.toNat_ofNat', Nat.mod_eq_of_lt (by omega),
    Nat.mod_eq_of_lt (by omega)]
  exact hij

/-- **The branch above a list of values** holds the hashes of the leaves, numbered in
their order. -/
theorem valueRoot_eq (hlength : values.length ≤ maxValues) :
    ∃ children, valueRoot values = branch [] children none ∧
      children.slots = slotsAbove ((numberedLeaves values).map hash) := by
  refine ⟨_, branchAbove_eq _, Children.slots_ofList_ascending (ascending_slotsAbove ?_)⟩
  rwa [List.length_map, length_numberedLeaves]

theorem childHashes_valueRoot (hlength : values.length ≤ maxValues) :
    (valueRoot values).childHashes = (numberedLeaves values).map hash := by
  obtain ⟨children, hroot, hslots⟩ := valueRoot_eq hlength
  rw [hroot, childHashes, hslots, slotsAbove, List.mapIdx_eq_zipIdx_map, List.filterMap_map]
  have htarget : (fun x : UInt8 × Slot => x.2.target?) ∘ (fun x : Hash × Nat => (UInt8.ofNat x.2, Slot.hash x.1)) =
      fun x => some x.1 := rfl
  rw [htarget, List.filterMap_eq_map', List.zipIdx_map_fst]

/-! ## Encodings -/

/-- Values that can be inserted together: at most 256, and none longer than half of what
goes into a record. -/
structure Insertable (values : List String) : Prop where
  length_le : values.length ≤ maxValues
  short : ∀ value ∈ values, 2 * (utf8 value).length ≤ Record.maxFrameLength

/-- A text that a system can hand to a program. None has room for two gigabytes in one
argument. -/
abbrev Argument := { text : String // (utf8 text).length < 2147483648 }

def texts (arguments : List Argument) : List String := arguments.map Subtype.val

theorem Insertable.ofArguments {arguments : List Argument} (hcount : arguments.length ≤ maxValues) :
    Insertable (texts arguments) where
  length_le := by rwa [texts, List.length_map]
  short value hvalue := by
    obtain ⟨argument, -, rfl⟩ := List.mem_map.1 hvalue
    have hshort := argument.2
    unfold Record.maxFrameLength
    omega

theorem mem_numberedLeaves : node ∈ numberedLeaves values ↔ ∃ place value, values[place]? = some value ∧
    node = numberedLeaf place value := by
  rw [numberedLeaves, List.mem_mapIdx]
  constructor
  · rintro ⟨place, hplace, rfl⟩
    exact ⟨place, values[place], List.getElem?_eq_getElem hplace, rfl⟩
  · rintro ⟨place, value, hvalue, rfl⟩
    obtain ⟨hplace, rfl⟩ := List.getElem?_eq_some_iff.1 hvalue
    exact ⟨place, hplace, rfl⟩

theorem length_encode_numberedLeaf (place : Nat) (value : String) :
    (numberedLeaf place value).encode.length = 25 + (utf8 value).length := by
  simp only [numberedLeaf, valueLeaf, encode, Codec.encodeBytes, Codec.encodeSlot, List.length_append,
    LittleEndian.length_encode, Codec.tagWidth, Codec.lengthWidth, List.length_cons, List.length_nil]
  omega

theorem length_flatMap_encodeEntry {entries : List (UInt8 × Slot)} (hhash : ∀ p ∈ entries, ∃ h, p.2 = .hash h) :
    (entries.flatMap Codec.encodeEntry).length = 37 * entries.length := by
  induction entries with
  | nil => rfl
  | cons p rest ih =>
    obtain ⟨⟨h, hp⟩, hrest⟩ := List.forall_mem_cons.1 hhash
    rw [List.flatMap_cons, List.length_append, ih hrest]
    simp only [Codec.encodeEntry, Codec.encodeSlot, hp, List.length_cons, List.length_append,
      LittleEndian.length_encode, h.length_bytes, Codec.tagWidth]
    omega

theorem length_encode_valueRoot (hlength : values.length ≤ maxValues) :
    (valueRoot values).encode.length = 21 + 37 * values.length := by
  obtain ⟨children, hroot, hslots⟩ := valueRoot_eq hlength
  have hentries : (children.slots.flatMap Codec.encodeEntry).length = 37 * values.length := by
    rw [length_flatMap_encodeEntry, hslots, slotsAbove, List.length_mapIdx, List.length_map, length_numberedLeaves]
    intro p hp
    rw [hslots, slotsAbove, List.mem_mapIdx] at hp
    obtain ⟨place, -, rfl⟩ := hp
    exact ⟨_, rfl⟩
  simp only [hroot, encode, Codec.encodeBytes, Codec.encodeChildren, Codec.encodeValue, hentries, List.length_append,
    LittleEndian.length_encode, Codec.tagWidth, Codec.lengthWidth, List.length_cons, List.length_nil]
  omega

namespace Insertable

theorem length_encode_le (hv : Insertable values) (hnode : node ∈ valueTrie values) :
    2 * node.encode.length ≤ Record.maxFrameLength + 50 := by
  rcases mem_valueTrie.1 hnode with hleaf | rfl
  · obtain ⟨place, value, hvalue, rfl⟩ := mem_numberedLeaves.1 hleaf
    have hshort := hv.short value (List.mem_of_getElem? hvalue)
    rw [length_encode_numberedLeaf]
    omega
  · have hlength := hv.length_le
    rw [length_encode_valueRoot hlength]
    unfold maxValues at hlength
    unfold Record.maxFrameLength
    omega

theorem fits (hv : Insertable values) (hnode : node ∈ valueTrie values) : node.Fits := by
  have hlength := hv.length_encode_le hnode
  have hmax : Record.maxFrameLength + 50 < Codec.maxLength := by decide
  unfold Fits
  omega

theorem record_fits [FrameCodec] [FrameCodec.Bounded] (hv : Insertable values) (hnode : node ∈ valueTrie values) :
    (Record.ofPut node.put).Fits := by
  refine Record.fits_ofPut (Nat.le_trans (Nat.le_of_eq node.hash.length_bytes) (by decide)) ?_
  have hlength := hv.length_encode_le hnode
  show node.encode.length + node.encode.length / 256 + 64 ≤ Record.maxFrameLength
  unfold Record.maxFrameLength at hlength ⊢
  omega

theorem eq_of_encode (hv : Insertable values) (hnode : node ∈ valueTrie values) (hother : other ∈ valueTrie values)
    (heq : other.encode = node.encode) : other = node := by
  have hdecode := decode_encode (hv.fits hother)
  rw [heq, decode_encode (hv.fits hnode)] at hdecode
  exact (Except.ok.inj hdecode).symm

theorem nodup (hv : Insertable values) : (valueTrie values).Nodup := by
  obtain ⟨children, hroot, -⟩ := valueRoot_eq hv.length_le
  rw [valueTrie, List.nodup_append]
  refine ⟨?_, List.nodup_singleton _, fun leaf hleaf root hmem => ?_⟩
  · rw [List.Nodup, List.pairwise_iff_getElem]
    intro i j hi hj hij heq
    simp only [numberedLeaves, List.length_mapIdx, List.getElem_mapIdx] at hi hj heq
    have hlength := hv.length_le
    unfold maxValues at hlength
    have hplace : UInt8.ofNat i = UInt8.ofNat j := by
      injection heq with hsuffix
      exact (List.cons.inj hsuffix).1
    have htoNat := congrArg UInt8.toNat hplace
    rw [UInt8.toNat_ofNat', UInt8.toNat_ofNat', Nat.mod_eq_of_lt (by omega), Nat.mod_eq_of_lt (by omega)] at htoNat
    omega
  · rw [List.mem_singleton.1 hmem, hroot]
    obtain ⟨place, value, -, rfl⟩ := mem_numberedLeaves.1 hleaf
    simp [numberedLeaf, valueLeaf]

end Insertable

/-- The nodes of the trie of a list of values cannot be mistaken for others of these
tries: no two encodings share a hash. -/
def HashedApart (values : List String) (lists : List (List String)) : Prop :=
  ∀ node ∈ valueTrie values, ∀ list ∈ values :: lists, ∀ other ∈ valueTrie list,
    other.hash = node.hash → other.encode = node.encode

instance (values : List String) (lists : List (List String)) : Decidable (HashedApart values lists) :=
  inferInstanceAs (Decidable (∀ node ∈ valueTrie values, ∀ list ∈ values :: lists, ∀ other ∈ valueTrie list,
    other.hash = node.hash → other.encode = node.encode))

/-- A node of the trie of a list of values has the hash that is kept for the meta-root. -/
def HitsMetaRoot (values : List String) : Prop := ∃ node ∈ valueTrie values, node.hash = Hash.zero

instance (values : List String) : Decidable (HitsMetaRoot values) :=
  inferInstanceAs (Decidable (∃ node ∈ valueTrie values, node.hash = Hash.zero))

theorem not_hitsMetaRoot_iff : ¬ HitsMetaRoot values ↔ ∀ node ∈ valueTrie values, node.hash ≠ Hash.zero := by
  simp [HitsMetaRoot]

namespace HashedApart

variable {lists : List (List String)}

theorem eq_of_hash (ha : HashedApart values lists) (hv : Insertable values) (hnode : node ∈ valueTrie values)
    (hother : other ∈ valueTrie values) (heq : other.hash = node.hash) : other = node :=
  hv.eq_of_encode hnode hother (ha node hnode values List.mem_cons_self other hother heq)

theorem nodup_hashes (ha : HashedApart values lists) (hv : Insertable values) :
    ((valueTrie values).map hash).Nodup :=
  hv.nodup.map_on fun _ hx _ hy heq => ha.eq_of_hash hv hy hx heq

end HashedApart

end TrieNode

end MerkleBuffer
