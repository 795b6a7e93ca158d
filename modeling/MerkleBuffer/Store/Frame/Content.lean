/-
What follows the head of a frame: its blocks, and a checksum if the head
announces one.

A frame that is at hand as a whole, and states a small size, is read at once.
All others are read block by block, and only then is the size of windows and
blocks limited.
-/
import MerkleBuffer.Store.Frame.Block
import MerkleBuffer.XxHash64

namespace MerkleBuffer.Frame

/-! ## Checksums -/

/-- The checksum of a frame: the low half of the hash of its content. -/
def checksum (content : Bytes) : Nat := (XxHash64.digest content).toNat % LittleEndian.capacity 4

/-- The content of a frame, once its checksum was read, if it has one. -/
def readChecksum (h : Header) (content : Bytes) : FrameReader Bytes := do
  if h.hasChecksum then
    if (← readNumber 4) ≠ checksum content then throw .wrongChecksum
  return content

/-! ## Frames at hand -/

/-- The most bytes of the input that are at hand together. -/
def inputSize : Nat := blockLimit + 3

/-- The most bytes of content that are handed on together. -/
def outputSize : Nat := 8 * 1024

/-- Whether the blocks of a frame, and its checksum if it has one, stand at the
front. -/
def isWhole (h : Header) (bytes : Bytes) : Bool :=
  let pass : FrameReader Unit := do
    skipBlocks bytes.length
    if h.hasChecksum then
      let _ ← readNumber 4
  (pass.run bytes).isOk

/-- Read what follows the head of a frame whose content is to have `size` bytes,
at once. -/
def readAtOnce (h : Header) (size : Nat) : FrameReader Bytes := do
  let (content, _) ← readBlocks ⟨false, h.blockSize⟩ (← get).length ⟨outputSize, 0, none⟩
  if content.length ≠ size then throw .corrupt
  readChecksum h content

/-! ## Frames block by block -/

/-- The memory for reading block by block: the bytes for a block, and for what
comes out. It is kept from frame to frame, and made anew only for a frame that
needs more. -/
structure Memory where
  block : Nat
  content : Nat
deriving DecidableEq, Repr

namespace Memory

def none : Memory := ⟨0, 0⟩

/-- The smallest window for which room is made. -/
def windowFloor : Nat := 1024

/-- The bytes behind and between blocks that copying may touch. -/
def margin : Nat := 64

/-- The memory for a frame: one block, and a window with two blocks more, or the
content if this is less. -/
def ofHeader (h : Header) : Memory where
  block := max h.blockSize 4
  content :=
    let ring := max h.windowSize windowFloor + 2 * h.blockSize + margin
    (h.contentSize?.map (min · ring)).getD ring

/-- The memory when a frame follows. -/
def next (m : Memory) (h : Header) : Memory :=
  let needed := ofHeader h
  if m.block < needed.block ∨ m.content < needed.content then needed else m

/-- The space for the content of a frame. It is used again from its start unless
there is space for all of the content. -/
def space (m : Memory) (h : Header) : Space where
  capacity := m.content
  filled := 0
  reserve := if h.contentSize?.any (· ≤ m.content) then Option.none else some h.blockSize

end Memory

/-- Read what follows the head of a frame block by block. Behind an empty block
the size of the content is not looked at. -/
def readStepwise (m : Memory) (h : Header) : FrameReader Bytes := do
  let (content, last) ← readBlocks ⟨true, h.blockSize⟩ (← get).length (m.space h)
  if last.stored ≠ 0 ∧ h.contentSize?.any (· ≠ content.length) then throw .corrupt
  readChecksum h content

/-! ## Either way -/

/-- The content size of a frame that is read at once: it is small, and blocks
and checksum are at hand. -/
def smallSize? (h : Header) (atHand : Bytes) : Option Nat :=
  h.contentSize?.filter fun size => size ≤ outputSize && isWhole h atHand

/-- What follows the head of a frame, of which `atHand` bytes are at hand, and
the memory after it. -/
def readBody (m : Memory) (h : Header) (atHand : Nat) : FrameReader (Bytes × Memory) := do
  match smallSize? h ((← get).take atHand) with
  | some size => return (← readAtOnce h size, m)
  | none =>
    if windowLimit < h.windowSize then throw .windowTooLarge
    return (← readStepwise (m.next h) h, m.next h)

end MerkleBuffer.Frame
