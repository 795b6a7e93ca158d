/-
A codec to run the program with: Zstandard frames of raw blocks.

Any codec that reads back what it wrote will do for a store file (`FrameCodec`), and
what is proved of store files is proved for all of them. This one compresses nothing.
Values are written verbatim, in raw blocks. What is read may consist of several
frames, with or without a content size and a checksum; skippable frames are
passed over. Coded blocks with sequences or coded literals are refused, so not
every compressed frame is read. `decode_encode`: what was written reads back.
-/
import MerkleBuffer.Store.Frame.Content
import MerkleBuffer.Store.FrameCodec

namespace MerkleBuffer.Frame

/-- A block that holds its bytes verbatim. -/
def rawBlock (last : Bool) (content : Bytes) : Bytes :=
  LittleEndian.encode 3 (8 * content.length + if last then 1 else 0) ++ content

/-- Raw blocks over a byte string, of at most `limit + 1` bytes each. -/
def rawBlocks (limit : Nat) (content : Bytes) : Bytes :=
  if content.length ≤ limit + 1 then rawBlock true content
  else rawBlock false (content.take (limit + 1)) ++ rawBlocks limit (content.drop (limit + 1))
termination_by content.length
decreasing_by simp only [List.length_drop]; omega

/-- A frame over a byte string. The empty string has a frame that states its
size; all others state a window of two megabytes. -/
def encode (content : Bytes) : Bytes :=
  match content with
  | [] => magic ++ [0x20, 0x00] ++ rawBlock true []
  | content => magic ++ [0x00, 0x58] ++ rawBlocks (blockLimit - 1) content

/-! ## Reading -/

/-- How much is at hand behind the head of a frame: the input comes in parts of
one size, and a part is used up before the next one comes. -/
def atHand (total atFrame behindHead : Nat) : Nat :=
  inputSize - (total - atFrame) % inputSize - (atFrame - behindHead)

/-- A frame of an input with `total` bytes, and the memory after it. A frame to
be skipped is empty. -/
def readFrame (total : Nat) (m : Memory) : FrameReader (Bytes × Memory) := do
  let input ← get
  match kindOf? (input.take 4) with
  | none => throw .unknownDescriptor
  | some .skippable =>
    let _ ← readNumber 4
    let size ← readNumber 4
    let _ ← Reader.exact .incomplete size
    return ([], m)
  | some .content =>
    let _ ← readNumber 4
    let header ← readHeader
    match header.fault? with
    | some fault => throw fault
    | none => readBody m header (atHand total input.length (← get).length)

/-- All frames of an input with `total` bytes, of which there is at least one.
Each takes at least four bytes, so `fuel` may be the length of the input. -/
def readFrames (total : Nat) : Nat → Memory → FrameReader Bytes
  | 0, _ => throw .incomplete
  | fuel + 1, m => do
    let (content, m) ← readFrame total m
    if (← get).isEmpty then return content
    else return content ++ (← readFrames total fuel m)

/-- The value that a sequence of frames holds. -/
def decode (input : Bytes) : Except FrameFault Bytes :=
  ((readFrames input.length input.length .none).run input).map (·.1)

/-! ## Reading back -/

theorem readBlock_rawBlock {limit free : Nat} {content : Bytes} (last : Bool) (rest : Bytes)
    (hlimit : content.length ≤ limit) (hfree : content.length ≤ free)
    (hsize : 8 * content.length + 1 < LittleEndian.capacity 3) :
    readBlock ⟨true, limit⟩ free (rawBlock last content ++ rest) =
      .ok ((⟨last, .raw, content.length⟩, content), rest) := by
  have hfits : 8 * content.length + (if last then 1 else 0) < LittleEndian.capacity 3 := by split <;> omega
  have hnumber : readNumber 3 (LittleEndian.encode 3 (8 * content.length + if last then 1 else 0) ++
      (content ++ rest)) = _ := Reader.number_encode_append .incomplete hfits _
  have hdiv : (8 * content.length + if last then 1 else 0) / 8 = content.length := by split <;> omega
  have hkind : (8 * content.length + if last then 1 else 0) / 2 % 4 = 0 := by split <;> omega
  have hlast : decide ((8 * content.length + if last then 1 else 0) % 2 = 1) = last := by
    cases last <;> simp <;> omega
  have hhead : readBlockHead (rawBlock last content ++ rest) = .ok (⟨last, .raw, content.length⟩, content ++ rest) := by
    unfold readBlockHead rawBlock
    rw [List.append_assoc, Reader.bind_apply hnumber]
    simp only [hdiv, hkind, hlast]
    rfl
  have hcontent : readBlockContent ⟨true, limit⟩ free ⟨last, .raw, content.length⟩ (content ++ rest) = .ok (content, rest) := by
    have hroom : ¬ free < min content.length (content ++ rest).length := by omega
    unfold readBlockContent
    refine (Reader.bind_apply (show (get : FrameReader Bytes) (content ++ rest) = .ok (_, _) from rfl)).trans ?_
    simp only [if_neg hroom]
    exact Reader.exact_append FrameFault.incomplete content rest
  unfold readBlock
  rw [Reader.bind_apply hhead]
  have hstored : BlockHead.stored ⟨last, .raw, content.length⟩ = content.length := rfl
  simp only [hstored, true_and, if_neg (Nat.not_lt.2 hlimit)]
  by_cases hzero : content.length = 0
  · have hnil := List.eq_nil_of_length_eq_zero hzero
    subst hnil
    rfl
  · simp only [if_neg hzero]
    exact Reader.bind_apply hcontent

/-- Raw blocks are read up to the last one, if there is space for the next one
after each. -/
theorem readBlocks_rawBlocks {limit : Nat} (hlimit : 8 * (limit + 1) + 1 < LittleEndian.capacity 3) {content : Bytes}
    {fuel : Nat} {space : Space} (rest : Bytes) (hfuel : content.length < fuel)
    (hreserve : space.reserve = some (limit + 1)) (hspace : space.filled + (limit + 1) ≤ space.capacity) :
    ∃ last, readBlocks ⟨true, limit + 1⟩ fuel space (rawBlocks limit content ++ rest) = .ok ((content, last), rest) := by
  induction fuel generalizing content space with
  | zero => omega
  | succ fuel ih =>
    rw [rawBlocks]
    split
    · rename_i hshort
      exact ⟨_, Reader.bind_apply (readBlock_rawBlock true rest hshort (by unfold Space.free; omega) (by omega))⟩
    · rename_i hlong
      have htake : (content.take (limit + 1)).length = limit + 1 := by
        rw [List.length_take]; omega
      have hadvance : (space.advance (limit + 1)).filled + (limit + 1) ≤ space.capacity := by
        simp only [Space.advance, hreserve, Option.any_some, decide_eq_true_eq]
        split <;> omega
      obtain ⟨last, hrest⟩ := @ih (content.drop (limit + 1)) (space.advance (limit + 1))
        (by rw [List.length_drop]; omega) hreserve hadvance
      refine ⟨last, ?_⟩
      rw [List.append_assoc]
      refine (Reader.bind_apply (readBlock_rawBlock false _ (by omega) (by unfold Space.free; omega) (by omega))).trans ?_
      simp only [htake]
      refine (Reader.bind_apply hrest).trans ?_
      rw [Reader.pure_apply, List.take_append_drop]

theorem length_rawBlocks (limit : Nat) (content : Bytes) :
    content.length < (rawBlocks limit content).length := by
  fun_induction rawBlocks limit content with
  | case1 content _ => simp [rawBlock]
  | case2 content hlong ih =>
    simp only [rawBlock, List.length_append, LittleEndian.length_encode, List.length_take, List.length_drop] at ih ⊢
    omega

/-- The head that a written frame has, if it is not empty. -/
def plainHeader : Header := ⟨0, some 88, none, none⟩

theorem readHeader_plain (rest : Bytes) : readHeader (0x00 :: 0x58 :: rest) = .ok (plainHeader, rest) := by
  unfold readHeader
  rw [Reader.bind_apply (show readNumber 1 (0x00 :: 0x58 :: rest) = .ok (0, 0x58 :: rest) from rfl)]
  rfl

theorem decode_encode (content : Bytes) : decode (encode content) = .ok content := by
  cases content with
  | nil => rfl
  | cons b rest =>
    have hlength := length_rawBlocks (blockLimit - 1) (b :: rest)
    obtain ⟨last, hblocks⟩ := readBlocks_rawBlocks (by decide : 8 * (blockLimit - 1 + 1) + 1 < LittleEndian.capacity 3)
      [] hlength (by decide : ((Memory.none.next plainHeader).space plainHeader).reserve = some (blockLimit - 1 + 1))
      (by decide)
    rw [List.append_nil] at hblocks
    have hstep : readStepwise (Memory.none.next plainHeader) plainHeader (rawBlocks (blockLimit - 1) (b :: rest)) =
        .ok (b :: rest, []) := by
      unfold readStepwise
      rw [Reader.bind_apply
        (show (get : FrameReader Bytes) (rawBlocks (blockLimit - 1) (b :: rest)) = .ok (_, _) from rfl)]
      refine (Reader.bind_apply hblocks).trans ?_
      have hnone : ¬ (last.stored ≠ 0 ∧ plainHeader.contentSize?.any (· ≠ (b :: rest).length) = true) := by
        simp [plainHeader, Header.contentSize?, Header.statedSize?]
      simp only [if_neg hnone]
      rfl
    have hbody (n : Nat) : readBody .none plainHeader n (rawBlocks (blockLimit - 1) (b :: rest)) =
        .ok ((b :: rest, Memory.none.next plainHeader), []) := by
      unfold readBody
      rw [Reader.bind_apply
        (show (get : FrameReader Bytes) (rawBlocks (blockLimit - 1) (b :: rest)) = .ok (_, _) from rfl)]
      exact Reader.bind_apply hstep
    have hframe (total : Nat) : readFrame total .none (encode (b :: rest)) =
        .ok ((b :: rest, Memory.none.next plainHeader), []) := by
      unfold readFrame
      rw [Reader.bind_apply (show (get : FrameReader Bytes) (encode (b :: rest)) = .ok (_, _) from rfl)]
      refine (Reader.bind_apply (show readNumber 4 (encode (b :: rest)) =
        .ok (LittleEndian.decode magic, 0x00 :: 0x58 :: rawBlocks (blockLimit - 1) (b :: rest)) from rfl)).trans ?_
      rw [Reader.bind_apply (readHeader_plain _)]
      exact hbody (atHand total (encode (b :: rest)).length (rawBlocks (blockLimit - 1) (b :: rest)).length)
    have hframes (total : Nat) : readFrames total (encode (b :: rest)).length .none (encode (b :: rest)) =
        .ok (b :: rest, []) := by
      have hne : (encode (b :: rest)).length = (0x58 :: rawBlocks (blockLimit - 1) (b :: rest)).length + 4 + 1 := rfl
      rw [hne, readFrames]
      refine (Reader.bind_apply (hframe total)).trans ?_
      rfl
    unfold decode
    rw [StateT.run, hframes]
    rfl

theorem length_rawBlocks_le {limit : Nat} (hlimit : 768 ≤ limit + 1) (content : Bytes) :
    256 * (rawBlocks limit content).length ≤ 257 * content.length + 768 := by
  fun_induction rawBlocks limit content with
  | case1 content _ =>
    simp only [rawBlock, List.length_append, LittleEndian.length_encode]
    omega
  | case2 content hlong ih =>
    simp only [rawBlock, List.length_append, LittleEndian.length_encode, List.length_take, List.length_drop] at ih ⊢
    omega

theorem length_encode_le (content : Bytes) : (encode content).length ≤ content.length + content.length / 256 + 64 := by
  cases content with
  | nil => decide
  | cons b rest =>
    have hblocks := length_rawBlocks_le (show 768 ≤ blockLimit - 1 + 1 by decide) (b :: rest)
    have hmagic : magic.length = 4 := rfl
    simp only [encode, List.length_append, List.length_cons, List.length_nil, hmagic] at hblocks ⊢
    omega

/-- The codec that writes values verbatim. -/
instance verbatim : FrameCodec where
  encode := encode
  decode input := (decode input).mapError .frame
  decode_encode value := by
    rw [decode_encode]
    rfl

instance : FrameCodec.Bounded := ⟨length_encode_le⟩

end MerkleBuffer.Frame
