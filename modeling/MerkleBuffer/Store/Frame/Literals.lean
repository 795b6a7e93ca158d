/-
Blocks that are coded: literals, and sequences that say how to copy from them.

Only blocks whose literals stand there verbatim, or as one byte that repeats,
and that have no sequences are read. Of the others the heads are looked at, so
that a block that breaks off or makes no sense is refused for the right reason.
-/
import MerkleBuffer.Store.Frame.Header

namespace MerkleBuffer.Frame

/-- The literals of a coded block, as its head announces them. -/
structure Literals where
  /-- The bytes of the head -/
  headSize : Nat
  /-- The number of literals -/
  size : Nat
  /-- The bytes in which they are stored -/
  stored : Nat
deriving DecidableEq, Repr

namespace Literals

/-- The low `width` bits of a number. -/
def lowBits (width n : Nat) : Nat := n % 1 <<< width

/-- The head of literals that stand there verbatim, or as one byte that repeats. -/
def ofPlain (repeats : Bool) (format head : Nat) : Literals :=
  let make (headSize size : Nat) : Literals := ⟨headSize, size, if repeats then 1 else size⟩
  match format with
  | 1 => make 2 (lowBits 16 head / 16)
  | 3 => make 3 (lowBits 24 head / 16)
  | _ => make 1 (lowBits 8 head / 8)

/-- The head of literals that are coded. -/
def ofCoded (format head : Nat) : Literals :=
  match format with
  | 2 => ⟨4, lowBits 14 (head / 16), lowBits 14 (head / 262144)⟩
  | 3 => ⟨5, lowBits 18 (head / 16), lowBits 18 (head / 4194304)⟩
  | _ => ⟨3, lowBits 10 (head / 16), lowBits 10 (head / 16384)⟩

/-- The fewest literals that may be coded in four streams. -/
def fourStreams : Nat := 6

/-- What is wrong with coded literals. No code is read, so something always is. -/
def codedFault (limit room : Nat) (block : Bytes) : FrameFault :=
  if block.length < 5 then .corrupt
  else
    let head := LittleEndian.decode (block.take 5)
    let format := head / 4 % 4
    let l := ofCoded format head
    if limit < l.size then .corrupt
    else if format ≠ 0 ∧ l.size < fourStreams then .wrongLiterals
    else if block.length < l.headSize + l.stored then .corrupt
    else if min limit room < l.size then .noRoom
    else .corrupt

end Literals

/-- The literals at the front of a coded block, and what follows them. -/
def readLiterals (limit room : Nat) (block : Bytes) : Except FrameFault (Bytes × Bytes) :=
  if block.length < 2 then .error .corrupt
  else
    let head := LittleEndian.decode (block.take 4)
    match head % 4 with
    | 2 => .error (Literals.codedFault limit room block)
    | 3 => .error .corruptDictionary
    | kind =>
      let repeats : Bool := kind = 1
      let l := Literals.ofPlain repeats (head / 4 % 4) head
      let stored := (block.drop l.headSize).take l.stored
      if block.length < l.headSize + (if repeats then 1 else 0) ∨ limit < l.size then .error .corrupt
      else if min limit room < l.size then .error .noRoom
      else if stored.length < l.stored then .error .corrupt
      else
        let literals := if repeats then List.replicate l.size (stored.headD 0) else stored
        .ok (literals, block.drop (l.headSize + l.stored))

/-- The number of sequences, in one to three bytes, and what follows it. -/
def sequenceCount? : Bytes → Option (Nat × Bytes)
  | [] => none
  | a :: rest =>
    if a < 128 then some (a.toNat, rest)
    else
      match rest with
      | [] => none
      | b :: rest =>
        if a < 255 then some ((a.toNat - 128) * 256 + b.toNat, rest)
        else
          match rest with
          | [] => none
          | c :: rest => some (b.toNat + 256 * c.toNat + 0x7F00, rest)

/-- What is wrong with the sequences of a coded block, if there are any. -/
def sequencesFault? (sequences : Bytes) : Option FrameFault :=
  match sequenceCount? sequences with
  | none => some .wrongSize
  | some (0, rest) => if rest.isEmpty then none else some .corrupt
  | some (_ + 1, rest) => if rest.isEmpty then some .wrongSize else some .corrupt

/-- The content of a coded block, of at most `limit` bytes, for which there is
some room. -/
def codedContent (limit room : Nat) (block : Bytes) : Except FrameFault Bytes :=
  if limit < block.length then .error .wrongSize
  else
    match readLiterals limit room block with
    | .error fault => .error fault
    | .ok (literals, sequences) =>
      match sequencesFault? sequences with
      | some fault => .error fault
      | none => .ok literals

end MerkleBuffer.Frame
