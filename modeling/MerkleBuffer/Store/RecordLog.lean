/-
The store file: a header and then records, in the order they were written.

A record holds the lengths of a key and of a frame, the key, and the frame with
the value. There is no index in the file; opening it reads all records and
builds one. A batch is appended in one write, so a write that was cut short
leaves an incomplete record at the end, and opening drops it. A key that is
already stored is not written again: the first value put under a key counts.
-/
import MerkleBuffer.Store.Basic
import MerkleBuffer.Store.FrameCodec
import Std.Data.ExtTreeMap

namespace MerkleBuffer

/-- A key and the frame that holds its value. -/
structure Record where
  key : Bytes
  frame : Bytes
deriving DecidableEq, Repr

namespace Record

/-- The bytes in front of the key: two for its length, four for that of the frame. -/
def headSize : Nat := 6

/-- The longest key a record can hold. -/
def maxKeyLength : Nat := 65535

/-- The longest frame a record can hold. -/
def maxFrameLength : Nat := 4294967295

/-- The record that stores a value. -/
def ofPut [FrameCodec] (p : Put) : Record := ⟨p.key, FrameCodec.encode p.value⟩

/-- The bytes a record takes. -/
def size (r : Record) : Nat := headSize + r.key.length + r.frame.length

def encode (r : Record) : Bytes :=
  LittleEndian.encode 2 r.key.length ++ LittleEndian.encode 4 r.frame.length ++ r.key ++ r.frame

/-- A whole record from the front of the input. -/
def read : Reader Unit Record := do
  let keyLength ← Reader.number () 2
  let frameLength ← Reader.number () 4
  let key ← Reader.exact () keyLength
  let frame ← Reader.exact () frameLength
  return ⟨key, frame⟩

/-- The whole records at the front of the input. Each takes at least six bytes,
so `fuel` may be the length of the input. -/
def readAll : Nat → Bytes → List Record
  | 0, _ => []
  | fuel + 1, input =>
    match read.run input with
    | .ok (r, rest) => r :: readAll fuel rest
    | .error () => []

/-- The records of a byte string, up to the first that is not whole. -/
def ofBytes (input : Bytes) : List Record := readAll input.length input

end Record

/-- Where a frame stands in a file. -/
structure Location where
  offset : Nat
  size : Nat
deriving DecidableEq, Repr

/-- Where the frame of a record stands that begins at `offset`. -/
def Record.location (r : Record) (offset : Nat) : Location :=
  ⟨offset + Record.headSize + r.key.length, r.frame.length⟩

/-- Where the value of each key stands. -/
abbrev Index := Std.ExtTreeMap Bytes Location

/-- Enter records that stand one behind the other from `offset` on; the last
record of a key counts. -/
def Index.addRecords (index : Index) (offset : Nat) : List Record → Index
  | [] => index
  | r :: rest => Index.addRecords (index.insert r.key (r.location offset)) (offset + r.size) rest

/-- An open store file: its contents, the end of its last record, and the index. -/
structure RecordLog where
  file : Bytes
  endOffset : Nat
  index : Index

namespace RecordLog

/-- The bytes a store file begins with. -/
def magic : Bytes := [84, 82, 73, 69, 78, 79, 68, 69]

/-- The version of the file format. -/
def version : Nat := 1

def headerSize : Nat := 64

/-- The head of a store file: the magic, the version, and zeros. -/
def header : Bytes :=
  magic ++ LittleEndian.encode 4 version ++ List.replicate (headerSize - 12) 0

@[simp] theorem length_header : header.length = headerSize := rfl

/-- A new store file. -/
def create : RecordLog := ⟨header, headerSize, ∅⟩

/-- What is wrong with the head of a file, if anything is. -/
def headerFault? (file : Bytes) : Option Error :=
  let head := file.take headerSize
  if head.length < headerSize then some (.invalidFile .truncatedHeader)
  else if head.take 8 ≠ magic then some (.invalidFile .badMagic)
  else
    let found := LittleEndian.decode ((head.drop 8).take 4)
    if found ≠ version then some (.version found version) else none

/-- Open a store file. What stands behind the last whole record is cut off. -/
def ofFile (file : Bytes) : Except Error RecordLog :=
  match headerFault? file with
  | some e => .error e
  | none =>
    let records := Record.ofBytes (file.drop headerSize)
    let endOffset := headerSize + total (records.map Record.size)
    .ok ⟨file.take endOffset, endOffset, Index.addRecords ∅ headerSize records⟩

/-- The number of keys. -/
def size (log : RecordLog) : Nat := log.index.size

/-- Whether a key is stored; the file is not read. -/
def contains (log : RecordLog) (key : Bytes) : Bool := log.index.contains key

/-- The bytes of the file at a location. -/
def readAt (log : RecordLog) (l : Location) : Except Error Bytes :=
  let found := (log.file.drop l.offset).take l.size
  if found.length = l.size then .ok found else .error (.io .endOfFile)

variable [FrameCodec]

/-- The value stored under a key. -/
def get (log : RecordLog) (key : Bytes) : Except Error (Option Bytes) :=
  match log.index[key]? with
  | none => .ok none
  | some l =>
    match log.readAt l with
    | .error e => .error e
    | .ok frame =>
      match FrameCodec.decode frame with
      | .ok value => .ok (some value)
      | .error fault => .error (.io fault)

/-- The records that some puts add to an index when they are written at
`offset`, and the index with them. A key that has a value gets no other. -/
def stage (index : Index) (offset : Nat) : List Put → Except Error (Index × List Record)
  | [] => .ok (index, [])
  | p :: rest =>
    if index.contains p.key then stage index offset rest
    else if Record.maxKeyLength < p.key.length then .error (.corruption (.keyTooLong p.key.length))
    else
      let r := Record.ofPut p
      if Record.maxFrameLength < r.frame.length then .error (.corruption (.valueTooLong p.value.length))
      else match stage (index.insert r.key (r.location offset)) (offset + r.size) rest with
      | .error e => .error e
      | .ok (index, records) => .ok (index, r :: records)

/-- Append puts in one write. -/
def append (log : RecordLog) (puts : List Put) : Except Error RecordLog :=
  match stage log.index log.endOffset puts with
  | .error e => .error e
  | .ok (index, records) =>
    let data := records.flatMap Record.encode
    .ok ⟨overwrite log.file log.endOffset data, log.endOffset + data.length, index⟩

instance : KeyValueStore RecordLog where
  get := get
  has log key := .ok (log.contains key)
  accept _ := .ok ()
  write := append
  size := size

end RecordLog

end MerkleBuffer
