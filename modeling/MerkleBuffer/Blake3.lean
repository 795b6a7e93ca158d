/-
The BLAKE3 digest of a byte string, 32 bytes long.

The input is cut into chunks of 1024 bytes, each chunk into blocks of 64. The
blocks of a chunk are compressed in a row, and the chunks become the leaves of
a binary tree whose left subtrees are full. `digest` compresses the root with
the root flag set; `length_digest` says that the result has 32 bytes.
-/
import MerkleBuffer.Bytes

namespace MerkleBuffer.Blake3

/-- A chaining value: what one compression hands to the next. -/
abbrev Chain := Vector UInt32 8

/-- The sixteen words of a message block, or of the state that mixes it. -/
abbrev Block := Vector UInt32 16

/-- The chaining value every chunk and every inner node of the tree starts from. -/
def initialChain : Chain :=
  #v[0x6A09E667, 0xBB67AE85, 0x3C6EF372, 0xA54FF53A, 0x510E527F, 0x9B05688C, 0x1F83D9AB, 0x5BE0CD19]

/-- Where each word of a block moves to between two rounds. -/
def schedule : Vector (Fin 16) 16 :=
  #v[2, 6, 3, 10, 7, 0, 4, 13, 1, 11, 12, 5, 9, 14, 15, 8]

/-- The roles a compression can play; they are combined by bitwise or. -/
structure Flags where
  bits : UInt32

namespace Flags

def none : Flags := ⟨0⟩
def chunkStart : Flags := ⟨1⟩
def chunkEnd : Flags := ⟨2⟩
def parent : Flags := ⟨4⟩
def root : Flags := ⟨8⟩

/-- Both roles at once. -/
def or (a b : Flags) : Flags := ⟨a.bits ||| b.bits⟩

end Flags

/-- A word turned right by `n` bits, for `0 < n < 32`. -/
def turnRight (w n : UInt32) : UInt32 :=
  (w >>> n) ||| (w <<< (32 - n))

/-- Mix two message words into four words of the state. -/
def mix (v : Block) (a b c d : Fin 16) (x y : UInt32) : Block :=
  let v := v.set a (v[a] + v[b] + x)
  let v := v.set d (turnRight (v[d] ^^^ v[a]) 16)
  let v := v.set c (v[c] + v[d])
  let v := v.set b (turnRight (v[b] ^^^ v[c]) 12)
  let v := v.set a (v[a] + v[b] + y)
  let v := v.set d (turnRight (v[d] ^^^ v[a]) 8)
  let v := v.set c (v[c] + v[d])
  v.set b (turnRight (v[b] ^^^ v[c]) 7)

/-- One round: the four columns of the state, then its four diagonals. -/
def round (v m : Block) : Block :=
  let v := mix v 0 4 8 12 m[0] m[1]
  let v := mix v 1 5 9 13 m[2] m[3]
  let v := mix v 2 6 10 14 m[4] m[5]
  let v := mix v 3 7 11 15 m[6] m[7]
  let v := mix v 0 5 10 15 m[8] m[9]
  let v := mix v 1 6 11 12 m[10] m[11]
  let v := mix v 2 7 8 13 m[12] m[13]
  mix v 3 4 9 14 m[14] m[15]

/-- `n` rounds, with the message words rearranged after each. -/
def rounds : Nat → Block → Block → Block
  | 0, v, _ => v
  | n + 1, v, m => rounds n (round v m) (schedule.map fun i => m[i])

/-- A compression that is still to be done: the last one of a chunk or of an
inner node, kept open because the root of the tree is compressed with a flag of
its own. -/
structure Pending where
  chain : Chain
  block : Block
  counter : UInt64
  length : UInt32
  flags : Flags

/-- The chaining value a compression gives. -/
def Pending.compress (p : Pending) : Chain :=
  let v : Block := p.chain ++ #v[
    0x6A09E667, 0xBB67AE85, 0x3C6EF372, 0xA54FF53A,
    p.counter.toUInt32, (p.counter >>> 32).toUInt32, p.length, p.flags.bits]
  let w := rounds 7 v p.block
  Vector.ofFn fun i : Fin 8 => w[i.val] ^^^ w[i.val + 8]

/-- The little-endian words of a byte string, the last one filled up with zeros. -/
def words : Bytes → List UInt32
  | b0 :: b1 :: b2 :: b3 :: rest =>
    (b0.toUInt32 ||| (b1.toUInt32 <<< 8) ||| (b2.toUInt32 <<< 16) ||| (b3.toUInt32 <<< 24)) :: words rest
  | [] => []
  | rest => [UInt32.ofNat (LittleEndian.decode rest)]

/-- A message block: sixteen words, absent ones zero. -/
def block (bytes : Bytes) : Block :=
  let ws := (words bytes).toArray
  Vector.ofFn fun i : Fin 16 => ws.getD i 0

/-- A chunk, compressed but for its last block. -/
def chunk (counter : UInt64) (chain : Chain) (start : Flags) (bytes : Bytes) : Pending :=
  if 64 < bytes.length then
    let p : Pending := ⟨chain, block (bytes.take 64), counter, 64, start⟩
    chunk counter p.compress Flags.none (bytes.drop 64)
  else
    ⟨chain, block bytes, counter, UInt32.ofNat bytes.length, start.or Flags.chunkEnd⟩
termination_by bytes.length
decreasing_by simp only [List.length_drop]; omega

/-- Bytes that go to the left subtree: the largest number of chunks that is a
power of two and leaves something for the right. -/
def leftLength (n : Nat) : Nat :=
  1024 <<< ((n - 1) / 1024).log2

theorem leftLength_pos (n : Nat) : 0 < leftLength n := by
  have := Nat.two_pow_pos ((n - 1) / 1024).log2
  rw [leftLength, Nat.shiftLeft_eq]
  omega

theorem leftLength_lt {n : Nat} (h : 1024 < n) : leftLength n < n := by
  have hne : (n - 1) / 1024 ≠ 0 := by omega
  have := Nat.log2_self_le hne
  rw [leftLength, Nat.shiftLeft_eq]
  omega

/-- The tree over a byte string whose first chunk has number `counter`,
compressed but for its root. -/
def tree (counter : Nat) (bytes : Bytes) : Pending :=
  if _h : 1024 < bytes.length then
    let left := leftLength bytes.length
    let l := (tree counter (bytes.take left)).compress
    let r := (tree (counter + left / 1024) (bytes.drop left)).compress
    ⟨initialChain, l ++ r, 0, 64, Flags.parent⟩
  else
    chunk (UInt64.ofNat counter) initialChain Flags.chunkStart bytes
termination_by bytes.length
decreasing_by
  · have := leftLength_lt _h
    simp only [List.length_take]
    omega
  · have := leftLength_pos bytes.length
    simp only [List.length_drop]
    omega

/-- The digest of a byte string. -/
def digest (bytes : Bytes) : Bytes :=
  let top := tree 0 bytes
  let out := { top with counter := 0, flags := top.flags.or Flags.root }.compress
  out.toList.flatMap fun w => LittleEndian.encode 4 w.toNat

@[simp] theorem length_digest (bytes : Bytes) : (digest bytes).length = 32 := by
  simp [digest, List.length_flatMap, List.map_const']

end MerkleBuffer.Blake3
