/-
Encoded trie nodes read back.

What was encoded reads back from the front of any input that starts with it, part
by part (`readNode_encode`). Lengths are written in eight bytes, so this holds of
nodes whose byte strings are shorter than 2^64 bytes (`TrieNode.Writable`), as they are
where the whole encoding is (`TrieNode.Fits`).

Every reader of the format is prompt: an input that ends inside of a node is short, and
no other fault is found in it (`decode_cut`).
-/
import MerkleBuffer.Proofs.Reader
import MerkleBuffer.Trie.Codec

namespace MerkleBuffer

namespace Children

theorem insertSlot_behind {index : UInt8} {slot : Slot} {slots : List (UInt8 × Slot)}
    (hlast : ∀ p ∈ slots, p.1 < index) : insertSlot index slot slots = slots ++ [(index, slot)] := by
  induction slots with
  | nil => rfl
  | cons p rest ih =>
    obtain ⟨hp, hrest⟩ := List.forall_mem_cons.1 hlast
    have hlt : ¬ index < p.1 := UInt8.not_lt.2 (UInt8.le_of_lt hp)
    have hne : index ≠ p.1 := (UInt8.ne_of_lt hp).symm
    rw [insertSlot, if_neg hlt, if_neg hne, ih hrest, List.cons_append]

theorem slots_insert_behind {c : Children} {index : UInt8} {slot : Slot} (hlast : ∀ p ∈ c.slots, p.1 < index) :
    (c.insert index slot).slots = c.slots ++ [(index, slot)] := insertSlot_behind hlast

theorem slots_foldl_ascending {entries : List (UInt8 × Slot)} {children : Children}
    (h : (children.slots ++ entries).Pairwise (·.1 < ·.1)) :
    (entries.foldl (fun c q => c.insert q.1 q.2) children).slots = children.slots ++ entries := by
  induction entries generalizing children with
  | nil => exact (List.append_nil _).symm
  | cons q entries ih =>
    have hlast : ∀ p ∈ children.slots, p.1 < q.1 := fun p hp =>
      (List.pairwise_append.1 h).2.2 p hp q List.mem_cons_self
    have hslots : (children.insert q.1 q.2).slots ++ entries = children.slots ++ q :: entries := by
      rw [slots_insert_behind hlast, List.append_assoc]
      rfl
    rw [List.foldl_cons, ih (by rwa [hslots]), hslots]

theorem slots_ofList_ascending {entries : List (UInt8 × Slot)} (h : entries.Pairwise (·.1 < ·.1)) :
    (ofList entries).slots = entries :=
  slots_foldl_ascending h

theorem length_le_of_ascending {slots : List (UInt8 × Slot)} {low : Nat} (h : slots.Pairwise (·.1 < ·.1))
    (hlow : ∀ p ∈ slots, low ≤ p.1.toNat) (hle : low ≤ 256) : slots.length + low ≤ 256 := by
  induction slots generalizing low with
  | nil => simpa using hle
  | cons p rest ih =>
    obtain ⟨hfirst, hrest⟩ := List.pairwise_cons.1 h
    have hp : p.1.toNat < 256 := p.1.toNat_lt
    have hlowp : low ≤ p.1.toNat := hlow p List.mem_cons_self
    have hlength : rest.length + (p.1.toNat + 1) ≤ 256 :=
      ih hrest (fun q hq => UInt8.lt_iff_toNat_lt.1 (hfirst q hq)) hp
    rw [List.length_cons]
    omega

theorem length_slots_le (c : Children) : c.slots.length ≤ 256 :=
  length_le_of_ascending c.ascending (fun _ _ => Nat.zero_le _) (Nat.zero_le _)

end Children

/-- A length that can be written. -/
abbrev Codec.maxLength : Nat := LittleEndian.capacity Codec.lengthWidth

/-- A slot that can be written: its value is shorter than 2^64 bytes. -/
def Slot.Writable : Slot → Prop
  | hash _ => True
  | inline value => value.length < Codec.maxLength

theorem Slot.Writable.of_length {slot : Slot} (h : (Codec.encodeSlot slot).length < Codec.maxLength) :
    slot.Writable := by
  cases slot with
  | hash target => trivial
  | inline value =>
    rw [Codec.encodeSlot, Codec.encodeBytes, List.length_append, List.length_append] at h
    exact Nat.lt_of_le_of_lt (by omega) h

namespace Codec

open Reader

/-! ## Whole encodings -/

theorem readNumber_encode {width n : Nat} (h : n < LittleEndian.capacity width) (rest : Bytes) :
    readNumber width (LittleEndian.encode width n ++ rest) = .ok (n, rest) := number_encode_append _ h rest

theorem readBytes_encode {bytes : Bytes} (h : bytes.length < maxLength) (rest : Bytes) :
    readBytes (encodeBytes bytes ++ rest) = .ok (bytes, rest) := by
  rw [readBytes, encodeBytes, List.append_assoc, bind_apply (readNumber_encode h _)]
  exact exact_append _ bytes rest

theorem readHash_encode (h : Hash) (rest : Bytes) : readHash (h.bytes ++ rest) = .ok (h, rest) := by
  have hsize : Hash.size = h.bytes.length := h.length_bytes.symm
  rw [readHash, hsize, bind_apply (exact_append _ h.bytes rest), Hash.ofBytes?_bytes]
  rfl

theorem readSlot_encode {slot : Slot} (h : slot.Writable) (rest : Bytes) :
    readSlot (encodeSlot slot ++ rest) = .ok (slot, rest) := by
  cases slot with
  | hash target =>
    rw [readSlot, encodeSlot, List.append_assoc, bind_apply (readNumber_encode (by decide) _)]
    exact bind_apply (readHash_encode target rest)
  | inline value =>
    rw [readSlot, encodeSlot, List.append_assoc, bind_apply (readNumber_encode (by decide) _)]
    exact bind_apply (readBytes_encode h rest)

theorem readEntry_encode {entry : UInt8 × Slot} (h : entry.2.Writable) (rest : Bytes) :
    readEntry (encodeEntry entry ++ rest) = .ok (entry, rest) := by
  have hindex : [entry.1] = LittleEndian.encode 1 entry.1.toNat := by
    simp [LittleEndian.encode]
  have hlt : entry.1.toNat < LittleEndian.capacity 1 := entry.1.toNat_lt
  rw [readEntry, encodeEntry, List.cons_append, ← List.singleton_append, hindex, bind_apply (readNumber_encode hlt _),
    bind_apply (readSlot_encode h rest), UInt8.ofNat_toNat]
  rfl

/-- `n` entries as they stand. -/
def readListed : Nat → NodeReader (List (UInt8 × Slot))
  | 0 => pure []
  | n + 1 => do
    let entry ← readEntry
    return entry :: (← readListed n)

theorem readListed_encode {entries : List (UInt8 × Slot)} (h : ∀ entry ∈ entries, entry.2.Writable)
    (rest : Bytes) :
    readListed entries.length (entries.flatMap encodeEntry ++ rest) = .ok (entries, rest) := by
  induction entries with
  | nil => rfl
  | cons entry entries ih =>
    obtain ⟨hentry, hentries⟩ := List.forall_mem_cons.1 h
    rw [List.length_cons, readListed, List.flatMap_cons, List.append_assoc, bind_apply (readEntry_encode hentry _)]
    exact bind_apply (ih hentries)

/-- Setting slots one by one as they are read is setting them all when they were read. -/
theorem readEntries_eq (n : Nat) (children : Children) :
    readEntries n children =
      (fun entries => entries.foldl (fun c p => c.insert p.1 p.2) children) <$> readListed n := by
  induction n generalizing children with
  | zero => rfl
  | succ n ih =>
    simp only [readEntries, readListed, ih, map_eq_pure_bind, bind_assoc, pure_bind, List.foldl_cons]

theorem readChildren_encode {children : Children} (h : ∀ entry ∈ children.slots, entry.2.Writable) (rest : Bytes) :
    readChildren (encodeChildren children ++ rest) = .ok (children, rest) := by
  have hlength : children.slots.length < maxLength := Nat.lt_of_le_of_lt children.length_slots_le (by decide)
  have hslots : Children.ofList children.slots = children :=
    Children.ext (Children.slots_ofList_ascending children.ascending)
  rw [readChildren, encodeChildren, List.append_assoc, bind_apply (readNumber_encode hlength _), readEntries_eq,
    map_eq_pure_bind, bind_apply (readListed_encode h rest)]
  exact congrArg (fun c => Except.ok (c, rest)) hslots

theorem readValue_encode {value : Option Bytes} (h : ∀ bytes ∈ value, bytes.length < maxLength) (rest : Bytes) :
    readValue (encodeValue value ++ rest) = .ok (value, rest) := by
  cases value with
  | none =>
    have hzero : 0 < LittleEndian.capacity 1 := by decide
    have hpresence : readNumber 1 (encodeValue none ++ rest) = .ok (0, rest) := readNumber_encode hzero rest
    rw [readValue, bind_apply hpresence]
    rfl
  | some bytes =>
    have hone : 1 < LittleEndian.capacity 1 := by decide
    have hpresence : readNumber 1 (encodeValue (some bytes) ++ rest) = .ok (1, encodeBytes bytes ++ rest) :=
      readNumber_encode hone _
    rw [readValue, bind_apply hpresence]
    exact bind_apply (readBytes_encode (h bytes rfl) rest)

theorem length_encodeSlot_le {entries : List (UInt8 × Slot)} {entry : UInt8 × Slot} (h : entry ∈ entries) :
    (encodeSlot entry.2).length ≤ (entries.flatMap encodeEntry).length := by
  obtain ⟨before, after, rfl⟩ := List.append_of_mem h
  simp only [List.flatMap_append, List.flatMap_cons, List.length_append, encodeEntry, List.length_cons]
  omega

/-! ## Input that ends too early -/

theorem prompt_readNumber (width : Nat) : Prompt .endOfInput (readNumber width) := .number width

theorem prompt_readBytes : Prompt .endOfInput readBytes :=
  (prompt_readNumber _).bind fun n => .exact n

theorem prompt_readHash : Prompt .endOfInput readHash :=
  (Prompt.exact _).bind fun bytes => by
    cases Hash.ofBytes? bytes with
    | none => exact .throw _
    | some h => exact .pure h

theorem prompt_readSlot : Prompt .endOfInput readSlot :=
  (prompt_readNumber _).bind fun tag => by
    match tag with
    | 0 => exact prompt_readHash.bind fun _ => .pure _
    | 1 => exact prompt_readBytes.bind fun _ => .pure _
    | _ + 2 => exact .throw _

theorem prompt_readEntry : Prompt .endOfInput readEntry :=
  (prompt_readNumber _).bind fun _ => prompt_readSlot.bind fun _ => .pure _

theorem prompt_readEntries (n : Nat) (children : Children) : Prompt .endOfInput (readEntries n children) := by
  induction n generalizing children with
  | zero => exact .pure children
  | succ n ih => exact prompt_readEntry.bind fun _ => ih _

theorem prompt_readChildren : Prompt .endOfInput readChildren :=
  (prompt_readNumber _).bind fun n => prompt_readEntries n _

theorem prompt_readValue : Prompt .endOfInput readValue :=
  (prompt_readNumber _).bind fun tag => by
    match tag with
    | 0 => exact .pure none
    | 1 => exact prompt_readBytes.bind fun _ => .pure _
    | _ + 2 => exact .throw _

theorem prompt_readNode : Prompt .endOfInput readNode :=
  (prompt_readNumber _).bind fun tag => by
    match tag with
    | 0 =>
      exact prompt_readBytes.bind fun _ => prompt_readChildren.bind fun _ => prompt_readValue.bind fun _ => .pure _
    | 1 => exact prompt_readBytes.bind fun _ => prompt_readSlot.bind fun _ => .pure _
    | 2 => exact .pure TrieNode.empty
    | _ + 3 => exact .throw _

end Codec

namespace TrieNode

open Codec Reader

variable {node : TrieNode}

/-- A node whose encoding is shorter than 2^64 bytes, as is everything that fits
into memory: then each length in it can be written in eight bytes. -/
def Fits (node : TrieNode) : Prop := node.encode.length < maxLength

/-- A node each of whose byte strings is shorter than 2^64 bytes. -/
def Writable : TrieNode → Prop
  | branch stem children value =>
    stem.length < maxLength ∧ (∀ entry ∈ children.slots, entry.2.Writable) ∧ ∀ bytes ∈ value, bytes.length < maxLength
  | leaf suffix slot => suffix.length < maxLength ∧ slot.Writable
  | empty => True

theorem Fits.writable (h : node.Fits) : node.Writable := by
  unfold Fits at h
  cases node with
  | branch stem children value =>
    simp only [encode, encodeBytes, encodeChildren, List.length_append] at h
    refine ⟨by omega, fun entry he => ?_, fun bytes hv => ?_⟩
    · have hle := length_encodeSlot_le he
      exact Slot.Writable.of_length (by omega)
    · obtain rfl : value = some bytes := hv
      simp only [encodeValue, encodeBytes, List.length_cons, List.length_append] at h
      omega
  | leaf suffix slot =>
    simp only [encode, encodeBytes, List.length_append] at h
    exact ⟨by omega, Slot.Writable.of_length (by omega)⟩
  | empty => trivial

/-- **What was encoded is read back**, and no more is read. -/
theorem readNode_encode (h : node.Writable) (rest : Bytes) : readNode (node.encode ++ rest) = .ok (node, rest) := by
  cases node with
  | branch stem children value =>
    obtain ⟨hstem, hchildren, hvalue⟩ := h
    rw [readNode, encode, List.append_assoc, List.append_assoc, List.append_assoc,
      bind_apply (readNumber_encode (by decide) _)]
    refine (bind_apply (readBytes_encode hstem _)).trans ?_
    refine (bind_apply (readChildren_encode hchildren _)).trans ?_
    exact bind_apply (readValue_encode hvalue rest)
  | leaf suffix slot =>
    obtain ⟨hsuffix, hslot⟩ := h
    rw [readNode, encode, List.append_assoc, List.append_assoc, bind_apply (readNumber_encode (by decide) _)]
    refine (bind_apply (readBytes_encode hsuffix _)).trans ?_
    exact bind_apply (readSlot_encode hslot rest)
  | empty =>
    rw [readNode, encode, bind_apply (readNumber_encode (by decide) _)]
    rfl

/-- **Decoding inverts encoding**, whatever follows the node. -/
theorem decode_encode_append (h : node.Writable) (rest : Bytes) : decode (node.encode ++ rest) = .ok node := by
  have hread : readNode.run (node.encode ++ rest) = .ok (node, rest) := readNode_encode h rest
  rw [decode, hread]
  rfl

theorem decode_encode (h : node.Fits) : decode node.encode = .ok node := by
  have hdecode := decode_encode_append h.writable []
  rwa [List.append_nil] at hdecode

/-- **Whatever is cut off an encoding is missed**, and nothing else is wrong with the
part that is left. -/
theorem decode_cut (h : node.Writable) {part : Bytes} (hpart : part <+: node.encode) (hne : part ≠ node.encode) :
    decode part = .error .endOfInput := by
  have hread := readNode_encode h []
  rw [List.append_nil] at hread
  have hcut : readNode.run part = .error .endOfInput := prompt_readNode.cut hread hpart hne
  rw [decode, hcut]
  rfl

end TrieNode

end MerkleBuffer
