/-
The blocks of a frame: bytes that stand there verbatim, runs of one byte, and
coded blocks.

What comes out of the blocks takes up space. A frame that is read at once has
space for all of its content. A frame that is read block by block has space that
is used again from its start, and the size of its blocks is limited.
-/
import MerkleBuffer.Store.Frame.Literals

namespace MerkleBuffer.Frame

/-- The kinds of blocks. -/
inductive BlockKind where
  | raw
  | run
  | coded
deriving DecidableEq, Repr

/-- The head of a block. The size of a run is the size of what it stands for. -/
structure BlockHead where
  last : Bool
  kind : BlockKind
  size : Nat
deriving DecidableEq, Repr

/-- The bytes that follow the head of a block. -/
def BlockHead.stored (h : BlockHead) : Nat :=
  match h.kind with
  | .run => 1
  | _ => h.size

/-- The head of a block. -/
def readBlockHead : FrameReader BlockHead := do
  let header ← readNumber 3
  let last : Bool := header % 2 = 1
  match header / 2 % 4 with
  | 0 => return ⟨last, .raw, header / 8⟩
  | 1 => return ⟨last, .run, header / 8⟩
  | 2 => return ⟨last, .coded, header / 8⟩
  | _ => throw .corrupt

/-- Pass over the blocks of a frame. Each takes at least three bytes of the
input, so `fuel` may be its length. -/
def skipBlocks : Nat → FrameReader Unit
  | 0 => throw .incomplete
  | fuel + 1 => do
    let head ← readBlockHead
    let _ ← Reader.exact .incomplete head.stored
    if head.last then return () else skipBlocks fuel

/-- Space for the content of a frame. -/
structure Space where
  capacity : Nat
  /-- How much of it is in use -/
  filled : Nat
  /-- How much must be free after each block, if the space may be used from its
  start again -/
  reserve : Option Nat
deriving DecidableEq, Repr

namespace Space

/-- How much is free. -/
def free (s : Space) : Nat := s.capacity - s.filled

/-- The space after `size` more bytes came out. -/
def advance (s : Space) (size : Nat) : Space :=
  let filled := s.filled + size
  { s with filled := if s.reserve.any (s.capacity < filled + ·) then 0 else filled }

end Space

/-- The rules for the blocks of a frame. -/
structure BlockRules where
  /-- Whether the blocks are read one by one -/
  stepwise : Bool
  /-- The most bytes that a block may hold -/
  limit : Nat
deriving DecidableEq, Repr

/-- The content of a block, behind its head. -/
def readBlockContent (rules : BlockRules) (room : Nat) (head : BlockHead) : FrameReader Bytes := do
  match head.kind with
  | .raw =>
    if room < min head.size (← get).length then throw .noRoom
    Reader.exact .incomplete head.size
  | .run =>
    let byte ← readNumber 1
    if room < head.size then throw .noRoom
    if rules.stepwise ∧ rules.limit < head.size then throw .corrupt
    return List.replicate head.size (UInt8.ofNat byte)
  | .coded =>
    let stored ← Reader.exact .incomplete head.size
    match codedContent rules.limit room stored with
    | .ok content => return content
    | .error fault => throw fault

/-- A block: its head and its content. -/
def readBlock (rules : BlockRules) (room : Nat) : FrameReader (BlockHead × Bytes) := do
  let head ← readBlockHead
  if rules.stepwise ∧ rules.limit < head.stored then throw .corrupt
  if rules.stepwise ∧ head.stored = 0 then return (head, [])
  return (head, ← readBlockContent rules room head)

/-- The content of all blocks of a frame, and the head of the last one. Each
takes at least three bytes of the input, so `fuel` may be its length. -/
def readBlocks (rules : BlockRules) : Nat → Space → FrameReader (Bytes × BlockHead)
  | 0, _ => throw .incomplete
  | fuel + 1, space => do
    let (head, content) ← readBlock rules space.free
    if head.last then return (content, head)
    else
      let (rest, last) ← readBlocks rules fuel (space.advance content.length)
      return (content ++ rest, last)

end MerkleBuffer.Frame
