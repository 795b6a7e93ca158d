/-
A small file tree: directories and files below one root.

A path starts at the root, or at the working directory. It leads to a file by
its name; an open file is known by a number that stays the same when the file is
written, cut, or removed from its directory. Requests fail for the reasons an
operating system gives.
-/
import MerkleBuffer.Error
import Std.Data.ExtTreeMap

namespace MerkleBuffer

/-- A path: the pieces of its text between slashes. -/
structure Path where
  pieces : List String
deriving DecidableEq, Repr

namespace Path

/-- Split a text at its slashes. -/
def split (text : List Char) : List (List Char) :=
  match text with
  | [] => [[]]
  | c :: rest =>
    match split rest with
    | [] => [[c]]
    | first :: others => if c = '/' then [] :: first :: others else (c :: first) :: others

/-- A path from its text. -/
def ofString (text : String) : Path := ⟨(split text.toList).map String.ofList⟩

/-- The text of a path. -/
def toString (p : Path) : String := String.intercalate "/" p.pieces

/-- Whether a slash stands in front, so that the path starts at the root. -/
def isAbsolute (p : Path) : Bool := 1 < p.pieces.length && p.pieces.head? = some ""

/-- Whether a slash stands behind. -/
def hasSlash (p : Path) : Bool := 1 < p.pieces.length && p.pieces.getLast? = some ""

/-- The components; an empty piece is none. -/
def parts (p : Path) : List String := p.pieces.filter (· ≠ "")

/-- The last component that is a name, if the path ends in one. A single dot
counts for nothing. -/
def fileName? (p : Path) : Option String :=
  match (p.parts.filter (· ≠ ".")).getLast? with
  | some ".." => none
  | last => last

/-- Whether a piece leads nowhere: it is empty, or a single dot. -/
def isIdle (piece : String) : Bool := piece = "" || piece = "."

/-- What leads to the last component, without idle pieces behind it. An idle
piece in front stays if there is nothing else. -/
def piecesAbove (p : Path) : List String :=
  let above := ((p.pieces.reverse.dropWhile isIdle).drop 1).dropWhile isIdle
  if above.isEmpty then (p.pieces.take 1).filter isIdle else above.reverse

/-- The path of another file beside the last component, or below it if it is no
name. -/
def withFileName (p : Path) (name : String) : Path :=
  if p.fileName?.isSome then ⟨p.piecesAbove ++ [name]⟩
  else ⟨(if p.pieces.getLast? = some "" then p.pieces.dropLast else p.pieces) ++ [name]⟩

/-- Whether a slash stands behind a name. -/
def asksForDirectory (p : Path) : Bool := p.hasSlash && p.parts.getLast?.any fun part => part ≠ "." && part ≠ ".."

/-- The most bytes that the text of a path may have. -/
def maxLength : Nat := 4095

/-- What is wrong with a path wherever it leads, if anything is. -/
def fault? (p : Path) : Option IoFault :=
  if p.pieces.any (·.toList.contains (Char.ofNat 0)) then some .zeroInPath
  else if maxLength < p.toString.utf8ByteSize then some (.os .nameTooLong)
  else if p.pieces = [""] then some (.os .notFound)
  else none

end Path

/-- What a name in a directory stands for. -/
inductive DirectoryEntry where
  | directory
  | file (id : Nat)
deriving DecidableEq, Repr

/-- A file tree. -/
structure Volume where
  /-- What stands at each place below the root -/
  entries : Std.ExtTreeMap (List String) DirectoryEntry
  /-- The contents of each file, by its number -/
  contents : Std.ExtTreeMap Nat Bytes
  /-- The number of the next new file -/
  nextFile : Nat
  /-- Where paths start that do not start at the root -/
  workingDirectory : List String

namespace Volume

/-- A root without anything below it, where all paths start. -/
def empty : Volume := ⟨∅, ∅, 0, []⟩

instance : Inhabited Volume := ⟨empty⟩

/-- The longest name of a directory entry, in bytes. -/
def maxNameLength : Nat := 255

/-- Where a path leads: to a place, and to what stands there, if anything. -/
structure Found where
  place : List String
  entry : Option DirectoryEntry

/-- Follow components from a directory. -/
def walk (v : Volume) (directory : List String) : List String → Except OsError Found
  | [] => .ok ⟨directory, some .directory⟩
  | part :: rest =>
    if part = "." then walk v directory rest
    else if part = ".." then walk v directory.dropLast rest
    else if maxNameLength < part.utf8ByteSize then .error .nameTooLong
    else
      let place := directory ++ [part]
      match v.entries[place]?, rest with
      | some .directory, rest => walk v place rest
      | some (.file id), [] => .ok ⟨place, some (.file id)⟩
      | some (.file _), _ :: _ => .error .notADirectory
      | none, [] => .ok ⟨place, none⟩
      | none, _ :: _ => .error .notFound

/-- The directory where a path starts. -/
def start (v : Volume) (path : Path) : List String := if path.isAbsolute then [] else v.workingDirectory

/-- Follow a path. Only a directory may stand before a slash. -/
def find (v : Volume) (path : Path) : Except IoFault Found :=
  match path.fault? with
  | some fault => .error fault
  | none =>
    match v.walk (v.start path) path.parts with
    | .error e => .error (.os e)
    | .ok found =>
      match found.entry with
      | some (.file _) => if path.hasSlash then .error (.os .notADirectory) else .ok found
      | _ => .ok found

/-- What becomes of a request to make a file where a slash stands behind a name,
once what leads there is known: a directory is asked for, and none is made this
way. -/
def refuseDirectory : Except OsError Found → OsError
  | .error e => e
  | .ok ⟨_, none⟩ => .notFound
  | .ok ⟨_, some (.file _)⟩ => .notADirectory
  | .ok ⟨_, some .directory⟩ => .isADirectory

/-- Follow a path on which a file may be made. -/
def findPlace (v : Volume) (path : Path) : Except IoFault Found :=
  if path.fault?.isNone ∧ path.asksForDirectory then
    .error (.os (refuseDirectory (v.walk (v.start path) path.parts.dropLast)))
  else v.find path

/-- Whether something stands at a path. -/
def isPresent (v : Volume) (path : Path) : Bool :=
  match v.find path with
  | .ok found => found.entry.isSome
  | .error _ => false

/-- The number of the file at a path. -/
def openFile (v : Volume) (path : Path) : Except IoFault Nat :=
  match v.find path with
  | .error fault => .error fault
  | .ok ⟨_, some (.file id)⟩ => .ok id
  | .ok ⟨_, some .directory⟩ => .error (.os .isADirectory)
  | .ok ⟨_, none⟩ => .error (.os .notFound)

/-- The contents of an open file. -/
def content (v : Volume) (id : Nat) : Bytes := v.contents.getD id []

/-- Replace the contents of an open file. -/
def setContent (v : Volume) (id : Nat) (data : Bytes) : Volume :=
  { v with contents := v.contents.insert id data }

/-- Make the file at a path empty, or make an empty file there. -/
def create (v : Volume) (path : Path) : Except IoFault (Nat × Volume) :=
  match v.findPlace path with
  | .error fault => .error fault
  | .ok ⟨_, some (.file id)⟩ => .ok (id, v.setContent id [])
  | .ok ⟨_, some .directory⟩ => .error (.os .isADirectory)
  | .ok ⟨place, none⟩ =>
    let made := { v with
      entries := v.entries.insert place (.file v.nextFile)
      nextFile := v.nextFile + 1 }
    .ok (v.nextFile, made.setContent v.nextFile [])

/-- The contents of the file at a path. -/
def read (v : Volume) (path : Path) : Except IoFault Bytes :=
  (v.openFile path).map v.content

/-- Write a whole file. -/
def write (v : Volume) (path : Path) (data : Bytes) : Except IoFault Volume :=
  match v.create path with
  | .error fault => .error fault
  | .ok (id, made) => .ok (made.setContent id data)

/-- Change the contents of the file at a path. -/
def update (v : Volume) (path : Path) (f : Bytes → Bytes) : Except IoFault Volume :=
  match v.openFile path with
  | .error fault => .error fault
  | .ok id => .ok (v.setContent id (f (v.content id)))

/-- Make the directories that lead from `above` along `parts`, as far as there
is nothing in their place. -/
def makeDirectories (v : Volume) (above : List String) : List String → Volume
  | [] => v
  | part :: rest =>
    if part = "." then makeDirectories v above rest
    else if part = ".." then makeDirectories v above.dropLast rest
    else
      let place := above ++ [part]
      let made := match v.entries[place]? with
        | none => { v with entries := v.entries.insert place .directory }
        | some _ => v
      makeDirectories made place rest

/-- An empty directory of this name below the root, where paths start. -/
def inDirectory (name : String) : Volume := { empty.makeDirectories [] [name] with workingDirectory := [name] }

/-- Take a file out of its directory. -/
def remove (v : Volume) (path : Path) : Except IoFault Volume :=
  match v.find path with
  | .error fault => .error fault
  | .ok ⟨place, some (.file _)⟩ => .ok { v with entries := v.entries.erase place }
  | .ok ⟨_, some .directory⟩ => .error (.os .isADirectory)
  | .ok ⟨_, none⟩ => .error (.os .notFound)

/-- The paths of all files below the working directory, in ascending order. -/
def files (v : Volume) : List String :=
  let depth := v.workingDirectory.length
  let paths := v.entries.toList.filterMap fun (place, entry) =>
    match entry with
    | .file _ => if place.take depth = v.workingDirectory then some (String.intercalate "/" (place.drop depth)) else none
    | .directory => none
  paths.mergeSort fun a b => decide (a ≤ b)

end Volume

end MerkleBuffer
