/-
Store files that live on a volume.

An open store file keeps the end of its last record and its index; the contents
are read from the volume whenever they are needed.
-/
import MerkleBuffer.Store.RecordLog
import MerkleBuffer.Volume

namespace MerkleBuffer

/-- An open store file. -/
structure StoreFile where
  path : String
  file : Nat
  endOffset : Nat
  index : Index

namespace StoreFile

/-- The file with its contents. -/
def log (s : StoreFile) (v : Volume) : RecordLog := ⟨v.content s.file, s.endOffset, s.index⟩

/-- The open file and the volume after its contents became those of `log`. -/
def update (s : StoreFile) (v : Volume) (log : RecordLog) : StoreFile × Volume :=
  ({ s with endOffset := log.endOffset, index := log.index }, v.setContent s.file log.file)

/-- Make a new store file, in place of an older one. -/
def create (v : Volume) (path : String) : Except Error (StoreFile × Volume) :=
  match v.create (Path.ofString path) with
  | .error fault => .error (.io fault)
  | .ok (file, v) => .ok (update ⟨path, file, 0, ∅⟩ v RecordLog.create)

/-- Open a store file. -/
def openAt (v : Volume) (path : String) : Except Error (StoreFile × Volume) :=
  match v.openFile (Path.ofString path) with
  | .error fault => .error (.io fault)
  | .ok file =>
    match RecordLog.ofFile (v.content file) with
    | .error e => .error e
    | .ok log => .ok (update ⟨path, file, 0, ∅⟩ v log)

/-- Open a store file, or make one where there is nothing. -/
def openOrCreate (v : Volume) (path : String) : Except Error (StoreFile × Volume) :=
  if v.isPresent (Path.ofString path) then openAt v path else create v path

variable [FrameCodec]

/-- The value stored under a key. -/
def get (s : StoreFile) (v : Volume) (key : Bytes) : Except Error (Option Bytes) := (s.log v).get key

/-- Append puts in one write. -/
def write (s : StoreFile) (v : Volume) (puts : List Put) : Except Error (StoreFile × Volume) :=
  ((s.log v).append puts).map (s.update v)

end StoreFile

end MerkleBuffer
