/-
The file with the settings of a database, which stands beside its store file.

Without such a file the settings are the standard ones. Settings that are not in
order are neither saved nor loaded.
-/
import MerkleBuffer.Config.Json
import MerkleBuffer.Volume

namespace MerkleBuffer

namespace Config

/-- The name of a store file that was given none. -/
def defaultFileName : String := "nodes.triedb"

/-- The settings file of a store file. -/
def fileOf (database : Path) : Path :=
  database.withFileName ((database.fileName?.getD defaultFileName) ++ ".config")

/-- The settings as the text of a file. -/
def toText (c : Config) : Bytes := utf8 c.toJson.pretty

/-- The settings that the text of a file gives, if they are in order. -/
def ofText (text : Bytes) : Except Error Config :=
  if (ofUtf8? text).isNone then .error (.io .notText)
  else
    match ofJson text with
    | .error fault => .error (.json fault)
    | .ok c =>
      match c.fault? with
      | some fault => .error (.config fault)
      | none => .ok c

/-- The settings of a database. -/
def load (v : Volume) (database : Path) : Except Error Config :=
  let file := fileOf database
  if v.isPresent file then
    match v.read file with
    | .error fault => .error (.io fault)
    | .ok text => ofText text
  else .ok standard

/-- Save the settings of a database, in place of those saved before. -/
def save (c : Config) (v : Volume) (database : Path) : Except Error Volume :=
  match c.fault? with
  | some fault => .error (.config fault)
  | none => (v.write (fileOf database) c.toText).mapError .io

end Config

end MerkleBuffer
