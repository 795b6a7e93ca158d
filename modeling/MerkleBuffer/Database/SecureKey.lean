/-
The store keys of preimages.

A preimage is stored under its hash behind a fixed start, 43 bytes in all, so no
such key can be taken for that of a node.
-/
import MerkleBuffer.Hash

namespace MerkleBuffer

/-- The bytes that the store key of a preimage starts with. -/
def secureKeyStart : Bytes := utf8 "secure-key-"

/-- The store key of the preimage of `h`. -/
def secureKey (h : Hash) : Bytes := secureKeyStart ++ h.bytes

end MerkleBuffer
