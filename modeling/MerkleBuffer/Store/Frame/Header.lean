/-
The head of a Zstandard frame: a magic number, a descriptor, and the fields
that the descriptor announces.
-/
import MerkleBuffer.Error
import MerkleBuffer.Reader

namespace MerkleBuffer.Frame

/-- A reader of frames. -/
abbrev FrameReader := Reader FrameFault

/-- A number in a fixed width. -/
def readNumber (width : Nat) : FrameReader Nat := Reader.number .incomplete width

/-- A number that is there if it has a width. -/
def readField (width : Nat) : FrameReader (Option Nat) :=
  if width = 0 then pure none else some <$> readNumber width

/-! ## Magic numbers -/

/-- The bytes a frame with content begins with. -/
def magic : Bytes := [0x28, 0xB5, 0x2F, 0xFD]

/-- The bytes a frame to be skipped begins with; the low half of the first one
is free. -/
def skippableMagic : Bytes := [0x50, 0x2A, 0x4D, 0x18]

/-- The kinds of frames. -/
inductive FrameKind where
  | content
  | skippable
deriving DecidableEq, Repr

/-- The kind of frame that begins like this, with at most four bytes. Where
there are fewer than four, they need only fit. -/
def kindOf? (start : Bytes) : Option FrameKind :=
  if start ++ magic.drop start.length = magic then some .content
  else if LittleEndian.decode (start ++ skippableMagic.drop start.length) / 16 = LittleEndian.decode skippableMagic / 16 then
    some .skippable
  else none

/-! ## Headers -/

/-- The most bytes a block may hold. -/
def blockLimit : Nat := 128 * 1024

/-- The largest window for which a reader makes room. -/
def windowLimit : Nat := 128 * 1024 * 1024 + 1

/-- The head of a frame: its descriptor and the fields that this announces. -/
structure Header where
  descriptor : Nat
  window : Option Nat
  dictionary : Option Nat
  contentField : Option Nat
deriving DecidableEq, Repr

namespace Header

/-- Whether a frame states its content size in place of a window. -/
def isSingle (descriptor : Nat) : Bool := descriptor / 32 % 2 = 1

/-- The widths of the fields behind a descriptor. -/
def windowWidth (descriptor : Nat) : Nat := if isSingle descriptor then 0 else 1

def dictionaryWidth (descriptor : Nat) : Nat :=
  match descriptor % 4 with
  | 0 => 0
  | 1 => 1
  | 2 => 2
  | _ => 4

def contentWidth (descriptor : Nat) : Nat :=
  match descriptor / 64 with
  | 0 => if isSingle descriptor then 1 else 0
  | 1 => 2
  | 2 => 4
  | _ => 8

/-- The number in the field for the content size, if there is one; a field of
two bytes counts from 256 on. -/
def statedSize? (h : Header) : Option Nat :=
  if h.descriptor / 64 = 1 then h.contentField.map (· + 256) else h.contentField

/-- The content size, if it is known. The largest number that the field can hold
says that it is not. -/
def contentSize? (h : Header) : Option Nat := h.statedSize?.filter (· + 1 ≠ UInt64.size)

/-- The exponent of the power of two that a window is made of. -/
def windowExponent (window : Nat) : Nat := window / 8 + 10

/-- The size of the window: a power of two and eighths of it, or what is stated
as the content size. -/
def windowSize (h : Header) : Nat :=
  match h.window with
  | some w => 1 <<< windowExponent w + (1 <<< windowExponent w) / 8 * (w % 8)
  | none => h.statedSize?.getD 0

/-- Whether a checksum follows the blocks. -/
def hasChecksum (h : Header) : Bool := h.descriptor / 4 % 2 = 1

/-- The most bytes that a block of the frame may hold. -/
def blockSize (h : Header) : Nat := min h.windowSize blockLimit

/-- What is wrong with a head in itself, if anything is: a reserved bit, a window
beyond all measure, or a dictionary, of which there is none. -/
def fault? (h : Header) : Option FrameFault :=
  if h.descriptor / 8 % 2 = 1 then some .unsupportedParameter
  else if h.window.any (31 < windowExponent ·) then some .windowTooLarge
  else if h.dictionary.getD 0 ≠ 0 then some .wrongDictionary
  else none

end Header

/-- The head of a frame, after its magic. -/
def readHeader : FrameReader Header := do
  let descriptor ← readNumber 1
  let window ← readField (Header.windowWidth descriptor)
  let dictionary ← readField (Header.dictionaryWidth descriptor)
  let contentField ← readField (Header.contentWidth descriptor)
  return { descriptor, window, dictionary, contentField }

end MerkleBuffer.Frame
