/-
Compression of the values in a store file.

A store file holds each value in a compressed frame. How the frames are made is left open:
the store relies only on getting back what it compressed. `Store.Frame` has one codec to run
it with.
-/
import MerkleBuffer.Error

namespace MerkleBuffer

/-- A compression of values: what is read may be any bytes, and what was written reads back. -/
class FrameCodec where
  encode : Bytes → Bytes
  decode : Bytes → Except IoFault Bytes
  decode_encode (value : Bytes) : decode (encode value) = .ok value

/-- Frames that are little longer than their values: by one byte in 256, and 64 more. -/
class FrameCodec.Bounded [FrameCodec] : Prop where
  length_encode_le (value : Bytes) : (encode value).length ≤ value.length + value.length / 256 + 64

end MerkleBuffer
