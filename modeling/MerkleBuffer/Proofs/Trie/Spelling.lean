/-
The spellings of a trie node: all byte strings that read as a node.

The reader takes the child slots of a branch in any order and lets the last of several
slots for one index count, so one node has many spellings. A `Spelling` is a node as it
was written, each slot in its place, and reading one loses nothing: it stands at the
front of the input, byte for byte, and the input starts with no other
(`readSpelling_eq_ok`). The reader of nodes is the reader of spellings with the slots
put in order afterwards (`readNode_eq`).

Putting slots in order drops those that were written over and adds none, so the
encoding of a node is its shortest spelling (`Spelling.length_encode_le`), and the
only one whose indices ascend (`Spelling.bytes_eq_encode`).
-/
import MerkleBuffer.Proofs.Trie.Codec

namespace MerkleBuffer

open Codec Reader

/-! ## What inputs start with -/

namespace Codec

variable {width n : Nat} {input rest bytes : Bytes} {slot : Slot}

theorem readBytes_eq_ok (h : readBytes input = .ok (bytes, rest)) :
    bytes.length < maxLength ∧ input = encodeBytes bytes ++ rest := by
  obtain ⟨length, mid, hlength, hbytes⟩ := bind_eq_ok h
  obtain ⟨rfl, rfl⟩ := exact_eq_ok hbytes
  refine ⟨number_lt hlength, ?_⟩
  rw [number_eq_ok hlength, encodeBytes, List.append_assoc]

theorem readHash_eq_ok {target : Hash} (h : readHash input = .ok (target, rest)) : input = target.bytes ++ rest := by
  obtain ⟨bytes, mid, hbytes, hhash⟩ := bind_eq_ok h
  obtain ⟨-, rfl⟩ := exact_eq_ok hbytes
  cases hfound : Hash.ofBytes? bytes with
  | none =>
    rw [hfound] at hhash
    cases hhash
  | some found =>
    rw [hfound] at hhash
    obtain ⟨rfl, rfl⟩ := Prod.mk.inj (Except.ok.inj hhash)
    rw [Hash.ofBytes?_eq_some.1 hfound]

theorem readSlot_eq_ok (h : readSlot input = .ok (slot, rest)) :
    slot.Writable ∧ input = encodeSlot slot ++ rest := by
  obtain ⟨tag, mid, htag, hslot⟩ := bind_eq_ok h
  have hinput := number_eq_ok htag
  match tag with
  | 0 =>
    obtain ⟨target, after, htarget, hpure⟩ := bind_eq_ok hslot
    obtain ⟨rfl, rfl⟩ := Prod.mk.inj (Except.ok.inj hpure)
    refine ⟨trivial, ?_⟩
    rw [hinput, readHash_eq_ok htarget, encodeSlot, List.append_assoc]
  | 1 =>
    obtain ⟨value, after, hvalue, hpure⟩ := bind_eq_ok hslot
    obtain ⟨rfl, rfl⟩ := Prod.mk.inj (Except.ok.inj hpure)
    obtain ⟨hlength, hmid⟩ := readBytes_eq_ok hvalue
    refine ⟨hlength, ?_⟩
    rw [hinput, hmid, encodeSlot, List.append_assoc]
  | _ + 2 => cases hslot

theorem readEntry_eq_ok {entry : UInt8 × Slot} (h : readEntry input = .ok (entry, rest)) :
    entry.2.Writable ∧ input = encodeEntry entry ++ rest := by
  obtain ⟨index, mid, hindex, h⟩ := bind_eq_ok h
  obtain ⟨slot, after, hslot, hpure⟩ := bind_eq_ok h
  obtain ⟨rfl, rfl⟩ := Prod.mk.inj (Except.ok.inj hpure)
  obtain ⟨hwritable, hmid⟩ := readSlot_eq_ok hslot
  refine ⟨hwritable, ?_⟩
  rw [number_eq_ok hindex, hmid, encodeEntry]
  simp [LittleEndian.encode]

theorem readValue_eq_ok {value : Option Bytes} (h : readValue input = .ok (value, rest)) :
    (∀ bytes ∈ value, bytes.length < maxLength) ∧ input = encodeValue value ++ rest := by
  obtain ⟨tag, mid, htag, hvalue⟩ := bind_eq_ok h
  have hinput := number_eq_ok htag
  match tag with
  | 0 =>
    obtain ⟨rfl, rfl⟩ := Prod.mk.inj (Except.ok.inj hvalue)
    exact ⟨fun _ hnone => (nomatch hnone), hinput⟩
  | 1 =>
    obtain ⟨bytes, after, hbytes, hpure⟩ := bind_eq_ok hvalue
    obtain ⟨rfl, rfl⟩ := Prod.mk.inj (Except.ok.inj hpure)
    obtain ⟨hlength, hmid⟩ := readBytes_eq_ok hbytes
    refine ⟨fun found hfound => Option.mem_some.1 hfound ▸ hlength, ?_⟩
    rw [hinput, hmid]
    rfl
  | _ + 2 => cases hvalue

end Codec

/-! ## Spellings -/

/-- A node as it was written: the slots of a branch in the order in which they stand,
also those that a later one replaces. -/
inductive Spelling where
  | branch (stem : Bytes) (entries : List (UInt8 × Slot)) (value : Option Bytes)
  | leaf (suffix : Bytes) (slot : Slot)
  | empty
deriving DecidableEq

namespace Codec

/-- A spelling from the front of the input. -/
def readSpelling : NodeReader Spelling := do
  match ← readNumber tagWidth with
  | 0 => return .branch (← readBytes) (← readListed (← readNumber lengthWidth)) (← readValue)
  | 1 => return .leaf (← readBytes) (← readSlot)
  | 2 => return .empty
  | tag => throw (.badVariant tag 3)

end Codec

namespace Spelling

/-- The bytes of a spelling. -/
def bytes : Spelling → Bytes
  | branch stem entries value =>
    LittleEndian.encode tagWidth 0 ++ encodeBytes stem ++
      (LittleEndian.encode lengthWidth entries.length ++ entries.flatMap encodeEntry) ++ encodeValue value
  | leaf suffix slot => LittleEndian.encode tagWidth 1 ++ encodeBytes suffix ++ encodeSlot slot
  | empty => LittleEndian.encode tagWidth 2

/-- The node that is spelled. -/
def node : Spelling → TrieNode
  | branch stem entries value => .branch stem (Children.ofList entries) value
  | leaf suffix slot => .leaf suffix slot
  | empty => .empty

/-- The child indices of a branch as they stand. -/
def indices : Spelling → List UInt8
  | branch _ entries _ => entries.map (·.1)
  | leaf _ _ => []
  | empty => []

/-- Each length in the spelling can be written in eight bytes. -/
def Writable : Spelling → Prop
  | branch stem entries value =>
    stem.length < maxLength ∧ entries.length < maxLength ∧ (∀ entry ∈ entries, entry.2.Writable) ∧
      ∀ bytes ∈ value, bytes.length < maxLength
  | leaf suffix slot => suffix.length < maxLength ∧ slot.Writable
  | empty => True

end Spelling

namespace Codec

variable {n : Nat} {input rest : Bytes} {entries : List (UInt8 × Slot)} {spelling : Spelling}

theorem readListed_eq_ok (h : readListed n input = .ok (entries, rest)) :
    entries.length = n ∧ (∀ entry ∈ entries, entry.2.Writable) ∧ input = entries.flatMap encodeEntry ++ rest := by
  induction n generalizing input entries with
  | zero =>
    obtain ⟨rfl, rfl⟩ := Prod.mk.inj (Except.ok.inj h)
    exact ⟨rfl, fun _ hmem => (nomatch hmem), rfl⟩
  | succ n ih =>
    obtain ⟨entry, mid, hentry, h⟩ := bind_eq_ok h
    obtain ⟨later, after, hlater, hpure⟩ := bind_eq_ok h
    obtain ⟨rfl, rfl⟩ := Prod.mk.inj (Except.ok.inj hpure)
    obtain ⟨hwritable, hinput⟩ := readEntry_eq_ok hentry
    obtain ⟨hlength, hwritables, hmid⟩ := ih hlater
    refine ⟨congrArg (· + 1) hlength, List.forall_mem_cons.2 ⟨hwritable, hwritables⟩, ?_⟩
    rw [hinput, hmid, List.flatMap_cons, List.append_assoc]

theorem readSpelling_bytes (h : spelling.Writable) (rest : Bytes) :
    readSpelling (spelling.bytes ++ rest) = .ok (spelling, rest) := by
  cases spelling with
  | branch stem entries value =>
    obtain ⟨hstem, hlength, hentries, hvalue⟩ := h
    rw [readSpelling, Spelling.bytes, List.append_assoc, List.append_assoc, List.append_assoc, List.append_assoc,
      bind_apply (readNumber_encode (by decide) _)]
    refine (bind_apply (readBytes_encode hstem _)).trans ?_
    refine (bind_apply (readNumber_encode hlength _)).trans ?_
    refine (bind_apply (readListed_encode hentries _)).trans ?_
    exact bind_apply (readValue_encode hvalue rest)
  | leaf suffix slot =>
    obtain ⟨hsuffix, hslot⟩ := h
    rw [readSpelling, Spelling.bytes, List.append_assoc, List.append_assoc,
      bind_apply (readNumber_encode (by decide) _)]
    refine (bind_apply (readBytes_encode hsuffix _)).trans ?_
    exact bind_apply (readSlot_encode hslot rest)
  | empty =>
    rw [readSpelling, Spelling.bytes, bind_apply (readNumber_encode (by decide) _)]
    rfl

/-- **What is read as a spelling stands at the front of the input**, and is the only
spelling that stands there. -/
theorem readSpelling_eq_ok :
    readSpelling input = .ok (spelling, rest) ↔ spelling.Writable ∧ input = spelling.bytes ++ rest := by
  constructor
  · intro h
    obtain ⟨tag, mid, htag, h⟩ := bind_eq_ok h
    have hinput := number_eq_ok htag
    match tag with
    | 0 =>
      obtain ⟨stem, afterStem, hstem, h⟩ := bind_eq_ok h
      obtain ⟨length, afterLength, hlength, h⟩ := bind_eq_ok h
      obtain ⟨entries, afterEntries, hentries, h⟩ := bind_eq_ok h
      obtain ⟨value, afterValue, hvalue, hpure⟩ := bind_eq_ok h
      obtain ⟨rfl, rfl⟩ := Prod.mk.inj (Except.ok.inj hpure)
      obtain ⟨hstemLength, rfl⟩ := readBytes_eq_ok hstem
      obtain ⟨rfl, hwritable, rfl⟩ := readListed_eq_ok hentries
      obtain ⟨hvalueLength, rfl⟩ := readValue_eq_ok hvalue
      refine ⟨⟨hstemLength, number_lt hlength, hwritable, hvalueLength⟩, ?_⟩
      rw [hinput, number_eq_ok hlength]
      simp only [Spelling.bytes, List.append_assoc]
    | 1 =>
      obtain ⟨suffix, afterSuffix, hsuffix, h⟩ := bind_eq_ok h
      obtain ⟨slot, afterSlot, hslot, hpure⟩ := bind_eq_ok h
      obtain ⟨rfl, rfl⟩ := Prod.mk.inj (Except.ok.inj hpure)
      obtain ⟨hsuffixLength, rfl⟩ := readBytes_eq_ok hsuffix
      obtain ⟨hwritable, rfl⟩ := readSlot_eq_ok hslot
      refine ⟨⟨hsuffixLength, hwritable⟩, ?_⟩
      rw [hinput]
      simp only [Spelling.bytes, List.append_assoc]
    | 2 =>
      obtain ⟨rfl, rfl⟩ := Prod.mk.inj (Except.ok.inj h)
      exact ⟨trivial, hinput⟩
    | _ + 3 => cases h
  · rintro ⟨hwritable, rfl⟩
    exact readSpelling_bytes hwritable rest

/-- Reading a node is reading its spelling. -/
theorem readNode_eq : readNode = Spelling.node <$> readSpelling := by
  have hchildren : ∀ n, readEntries n Children.empty = Children.ofList <$> readListed n := fun n => readEntries_eq n _
  rw [readNode, readSpelling, map_bind]
  congr 1
  funext tag
  rcases tag with _ | _ | _ | _
  · simp [readChildren, hchildren, Spelling.node]
  · simp [Spelling.node]
  · simp [Spelling.node]
  · rfl

theorem readNode_bytes (h : spelling.Writable) (rest : Bytes) :
    readNode (spelling.bytes ++ rest) = .ok (spelling.node, rest) := by
  rw [readNode_eq, map_eq_pure_bind, bind_apply (readSpelling_bytes h rest)]
  rfl

end Codec

/-- **The accepted byte strings** are the spellings, with anything behind. -/
theorem TrieNode.decode_eq_ok {input : Bytes} {node : TrieNode} :
    decode input = .ok node ↔
      ∃ spelling : Spelling, ∃ rest, spelling.Writable ∧ input = spelling.bytes ++ rest ∧ spelling.node = node := by
  constructor
  · intro h
    cases hread : readNode input with
    | error e =>
      rw [decode, StateT.run, hread] at h
      cases h
    | ok found =>
      rw [decode, StateT.run, hread] at h
      rw [readNode_eq, map_eq_pure_bind] at hread
      obtain ⟨spelling, rest, hspelling, hpure⟩ := bind_eq_ok hread
      obtain ⟨hwritable, hinput⟩ := readSpelling_eq_ok.1 hspelling
      have hnode : spelling.node = found.1 := congrArg Prod.fst (Except.ok.inj hpure)
      exact ⟨spelling, rest, hwritable, hinput, hnode.trans (Except.ok.inj h)⟩
  · rintro ⟨spelling, rest, hwritable, rfl, rfl⟩
    rw [decode, StateT.run, readNode_bytes hwritable rest]
    rfl

/-! ## The canonical spelling -/

namespace Children

variable {entries slots : List (UInt8 × Slot)} {children : Children}

theorem mem_slots_foldl {p : UInt8 × Slot} (h : p ∈ (entries.foldl (fun c q => c.insert q.1 q.2) children).slots) :
    p ∈ entries ∨ p ∈ children.slots := by
  induction entries generalizing children with
  | nil => exact .inr h
  | cons q entries ih =>
    rcases ih h with h | h
    · exact .inl (List.mem_cons_of_mem _ h)
    · rcases mem_insertSlot h with rfl | h
      · exact .inl List.mem_cons_self
      · exact .inr h

theorem mem_slots_ofList {p : UInt8 × Slot} (h : p ∈ (ofList entries).slots) : p ∈ entries :=
  (mem_slots_foldl h).resolve_right List.not_mem_nil

theorem length_insertSlot_le (index : UInt8) (slot : Slot) (slots : List (UInt8 × Slot)) :
    ((insertSlot index slot slots).flatMap encodeEntry).length ≤
      (encodeEntry (index, slot)).length + (slots.flatMap encodeEntry).length := by
  induction slots with
  | nil => exact Nat.le_of_eq (by simp [insertSlot])
  | cons p rest ih =>
    obtain ⟨i, s⟩ := p
    rw [insertSlot]
    split
    · simp only [List.flatMap_cons, List.length_append, Nat.le_refl]
    · split
      · simp only [List.flatMap_cons, List.length_append]
        omega
      · simp only [List.flatMap_cons, List.length_append]
        omega

theorem length_foldl_le (entries : List (UInt8 × Slot)) (children : Children) :
    ((entries.foldl (fun c q => c.insert q.1 q.2) children).slots.flatMap encodeEntry).length ≤
      (children.slots.flatMap encodeEntry).length + (entries.flatMap encodeEntry).length := by
  induction entries generalizing children with
  | nil => exact Nat.le_refl _
  | cons q entries ih =>
    have hrest := ih (children.insert q.1 q.2)
    have hinsert : ((children.insert q.1 q.2).slots.flatMap encodeEntry).length ≤
        (encodeEntry q).length + (children.slots.flatMap encodeEntry).length :=
      length_insertSlot_le q.1 q.2 children.slots
    rw [List.foldl_cons, List.flatMap_cons, List.length_append]
    omega

end Children

namespace TrieNode

/-- The spelling that encoding writes. -/
def spelling : TrieNode → Spelling
  | branch stem children value => .branch stem children.slots value
  | leaf suffix slot => .leaf suffix slot
  | empty => .empty

variable {node : TrieNode}

theorem bytes_spelling (node : TrieNode) : node.spelling.bytes = node.encode := by
  cases node <;> rfl

theorem Writable.spelling (h : node.Writable) : node.spelling.Writable := by
  cases node with
  | branch stem children value =>
    obtain ⟨hstem, hchildren, hvalue⟩ := h
    exact ⟨hstem, Nat.lt_of_le_of_lt children.length_slots_le (by decide), hchildren, hvalue⟩
  | leaf suffix slot => exact h
  | empty => exact h

theorem ascending_indices (node : TrieNode) : node.spelling.indices.Pairwise (· < ·) := by
  cases node with
  | branch stem children value => exact List.pairwise_map.2 children.ascending
  | leaf suffix slot => exact .nil
  | empty => exact .nil

end TrieNode

namespace Spelling

variable {s t : Spelling} {rest rest' : Bytes}

/-- Two spellings with the same bytes in front of anything are the same. -/
theorem unique (hs : s.Writable) (ht : t.Writable) (h : s.bytes ++ rest = t.bytes ++ rest') :
    s = t ∧ rest = rest' := by
  have hread := readSpelling_bytes hs rest
  rw [h, readSpelling_bytes ht rest'] at hread
  obtain ⟨rfl, rfl⟩ := Prod.mk.inj (Except.ok.inj hread)
  exact ⟨rfl, rfl⟩

theorem Writable.node (h : s.Writable) : s.node.Writable := by
  cases s with
  | branch stem entries value =>
    obtain ⟨hstem, -, hentries, hvalue⟩ := h
    exact ⟨hstem, fun entry hentry => hentries entry (Children.mem_slots_ofList hentry), hvalue⟩
  | leaf suffix slot => exact h
  | empty => exact h

theorem length_encode_le (s : Spelling) : s.node.encode.length ≤ s.bytes.length := by
  cases s with
  | branch stem entries value =>
    have hentries := Children.length_foldl_le entries Children.empty
    rw [Children.empty, List.flatMap_nil, List.length_nil, Nat.zero_add] at hentries
    simp only [node, bytes, TrieNode.encode, encodeChildren, Children.ofList, Children.empty, List.length_append,
      LittleEndian.length_encode]
    omega
  | leaf suffix slot => exact Nat.le_refl _
  | empty => exact Nat.le_refl _

theorem spelling_node (h : s.indices.Pairwise (· < ·)) : s.node.spelling = s := by
  cases s with
  | branch stem entries value =>
    have hslots : (Children.ofList entries).slots = entries := Children.slots_ofList_ascending (List.pairwise_map.1 h)
    rw [node, TrieNode.spelling, hslots]
  | leaf suffix slot => rfl
  | empty => rfl

/-- A spelling is the encoding of its node just if its indices ascend. -/
theorem bytes_eq_encode (h : s.Writable) : s.bytes = s.node.encode ↔ s.indices.Pairwise (· < ·) := by
  rw [← TrieNode.bytes_spelling]
  constructor
  · intro heq
    have hbytes : s.bytes ++ [] = s.node.spelling.bytes ++ [] := by rw [heq]
    rw [(unique h h.node.spelling hbytes).1]
    exact s.node.ascending_indices
  · intro hascending
    rw [spelling_node hascending]

end Spelling

end MerkleBuffer
