/-
The program. What a command line is about is laid out on a volume, the command
line is answered there, and the files that have changed are written.
-/
import MerkleBuffer.CommandLine.Run

namespace MerkleBuffer.CommandLine

/-- The contents of a file, if there is one to read. -/
def fileAt? (path : String) : IO (Option Bytes) := do
  try
    return some (← IO.FS.readBinFile path).toList
  catch _ =>
    return none

/-- Whether a directory stands at a path. -/
def isDirectory (path : String) : IO Bool := do
  try
    (← IO.FS.realPath path).isDir
  catch _ =>
    return false

/-- Lay out what a path leads to, from a directory on, and the directories on
the way. -/
def layOut (v : Volume) (directory : List String) : List String → IO Volume
  | [] => return v
  | part :: rest => do
    if part = "." then layOut v directory rest
    else if part = ".." then layOut v directory.dropLast rest
    else
      let place := directory ++ [part]
      let path := Path.toString ⟨"" :: place⟩
      if ← isDirectory path then
        layOut { v with entries := v.entries.insert place .directory } place rest
      else
        match ← fileAt? path with
        | none => return v
        | some data =>
          return { v with
            entries := v.entries.insert place (.file v.nextFile)
            contents := v.contents.insert v.nextFile data
            nextFile := v.nextFile + 1 }

/-- The files that a command line is about. -/
def filesOf (args : List String) : List Path :=
  match Request.ofArguments args with
  | some (.run i) => [Path.ofString i.database, Config.fileOf (Path.ofString i.database)]
  | _ => []

/-- The volume on which a command line is answered. -/
def volumeOf (files : List Path) : IO Volume := do
  let here := (Path.ofString (← IO.currentDir).toString).parts
  let mut v ← layOut { Volume.empty with workingDirectory := here } [] here
  for file in files do
    v ← layOut v (if file.isAbsolute then [] else here) file.parts
  return v

/-- Write the files that have changed. -/
def writeBack (before after : Volume) (files : List Path) : IO Unit := do
  for file in files do
    match before.read file, after.read file with
    | old, .ok data =>
      if old.toOption ≠ some data then
        IO.FS.writeBinFile file.toString (ByteArray.mk data.toArray)
    | _, .error _ => pure ()

end MerkleBuffer.CommandLine

open MerkleBuffer MerkleBuffer.CommandLine in
/-- Answer the command line. -/
def main (args : List String) : IO UInt32 := do
  let files := filesOf args
  let before ← volumeOf files
  let (reply, after) := answer before args
  writeBack before after files
  IO.print reply.out
  IO.eprint reply.err
  return reply.code.toUInt32
