/-
The commands on a volume, and their results.

A command opens the store file it was given, works on a database over it, and
leaves behind what was written, also when it fails. Its result is a JSON value;
one that reports something missing ends with exit code 1, as a failure does.
-/
import MerkleBuffer.CommandLine.Arguments
import MerkleBuffer.CommandLine.Failure
import MerkleBuffer.Database.Survey
import MerkleBuffer.Database.ValueTrie
import MerkleBuffer.Store.Frame
import MerkleBuffer.Store.StoreFile
import MerkleBuffer.Trie.Json

namespace MerkleBuffer.CommandLine

/-- The result of a command, and whether all is well with it. -/
structure Result where
  value : Json
  ok : Bool

namespace Result

def status (ok : Bool) : Json := .string (if ok then "ok" else "error")

/-- The result of a new store file. -/
def created (path : String) : Result :=
  ⟨.record [("status", status true), ("message", .string s!"Created node store at {path}")], true⟩

/-- The result of storing a trie of `count` nodes. -/
def inserted (root : Hash) (count : Nat) : Result :=
  ⟨.record [("status", status true), ("root", .string root.toHex), ("nodes", .number count)], true⟩

/-- The result of reading a node that is stored. -/
def node (h : Hash) (encoded : Bytes) : Result where
  value := .record [
    ("hash", .string h.toHex),
    ("size", .number encoded.length),
    ("encoded", .string (Hex.encode encoded)),
    ("node", match TrieNode.decode encoded with
      | .ok node => node.toJson
      | .error _ => .null)]
  ok := true

/-- The result of reading a node that is nowhere. -/
def notFound (h : Hash) : Result :=
  ⟨.record [("status", status false), ("message", .string s!"Node not found: {h.toHex}")], false⟩

/-- The result of a survey. -/
def surveyed (root : Hash) (survey : Survey) : Result where
  value := .record [
    ("status", status survey.isComplete),
    ("root", .string root.toHex),
    ("nodes", .number survey.found),
    ("missing", .array (survey.missing.map fun h => .string h.toHex))]
  ok := survey.isComplete

/-- The settings as a part of a result. -/
def configValue (c : Config) : Json :=
  .record (Setting.all.map fun s => (s.name, .number (c.get s).toNat))

/-- What is known of a store file without reading its nodes. -/
def stats (path : String) (log : RecordLog) (config : Config) : Result where
  value := .record [
    ("path", .string path),
    ("objects", .number log.size),
    ("file_size", .number log.file.length),
    ("config", configValue config)]
  ok := true

end Result

variable [FrameCodec]

/-- The outcome of a command and the volume after it. -/
abbrev Ran (α : Type) := Except Failure α × Volume

/-- Work on a database over the store file at a path, which is made if there is
none. -/
def onDatabase {α : Type} (v : Volume) (path : String)
    (work : Database RecordLog → Except Failure α × Database RecordLog) : Ran α :=
  match Config.load v (Path.ofString path) with
  | .error e => (.error (.error e), v)
  | .ok config =>
    match StoreFile.openOrCreate v path with
    | .error e => (.error (.opening path e), v)
    | .ok (file, v) =>
      match Database.withConfig (file.log v) config with
      | .error e => (.error (.error e), v)
      | .ok db =>
        let (result, after) := work db
        (result, (file.update v after.disk).2)

/-- A hash from an argument. -/
def hashOf (text : String) : Except Failure Hash :=
  (Hash.ofHex text).mapError fun _ => .invalidHash text

/-- Work on a database that starts from a hash given as an argument. -/
def fromHash {α : Type} (text : String) (work : Hash → Database RecordLog → Except Failure α × Database RecordLog)
    (db : Database RecordLog) : Except Failure α × Database RecordLog :=
  match hashOf text with
  | .error f => (.error f, db)
  | .ok h => work h db

/-- Make a store file and its settings file. Settings that are there stay. -/
def init (v : Volume) (path : String) : Ran Result :=
  match StoreFile.create v path with
  | .error e => (.error (.error e), v)
  | .ok (_, made) =>
    match Config.load made (Path.ofString path) with
    | .error e => (.error (.error e), made)
    | .ok config =>
      match config.save made (Path.ofString path) with
      | .error e => (.error (.error e), made)
      | .ok saved => (.ok (.created path), saved)

/-- Store a trie of values. -/
def insert (v : Volume) (path : String) (values : List String) : Ran Result :=
  if TrieNode.maxValues < values.length then (.error .tooManyValues, v)
  else onDatabase v path fun db =>
    match db.insertValues values with
    | (.ok root, after) => (.ok (.inserted root (values.length + 1)), after)
    | (.error e, after) => (.error (.error e), after)

/-- Read a node. -/
def get (v : Volume) (path : String) (hash : String) : Ran Result :=
  onDatabase v path <| fromHash hash fun h db =>
    match db.node h with
    | (.ok encoded, after) => (.ok (.node h encoded), after)
    | (.error e, after) => (if e.isNotFound then .ok (.notFound h) else .error (.error e), after)

/-- Ask whether every node below a root is stored. -/
def verify (v : Volume) (path : String) (root : String) : Ran Result :=
  onDatabase v path <| fromHash root fun h db =>
    match db.survey h with
    | (.ok survey, after) => (.ok (.surveyed h survey), after)
    | (.error e, after) => (.error (.error e), after)

/-- Describe a store file. -/
def stats (v : Volume) (path : String) : Ran Result :=
  match StoreFile.openAt v path with
  | .error e => (.error (.error e), v)
  | .ok (file, opened) =>
    match Config.load opened (Path.ofString path) with
    | .error e => (.error (.error e), opened)
    | .ok config => (.ok (.stats path (file.log opened) config), opened)

/-- Run a command. -/
def Command.run (v : Volume) (path : String) : Command → Ran Result
  | init => CommandLine.init v path
  | insert values => CommandLine.insert v path values
  | get hash => CommandLine.get v path hash
  | verify root => CommandLine.verify v path root
  | stats => CommandLine.stats v path

/-! ## Replies -/

/-- What a command line is answered with. -/
structure Reply where
  code : Nat
  out : String
  err : String
deriving DecidableEq, Repr

/-- A value in the format that was asked for, on lines of its own. -/
def Format.render (format : Format) (value : Json) : String :=
  (match format with
    | .json => value.compact
    | .text => value.pretty) ++ "\n"

/-- The reply to an outcome. -/
def Reply.ofOutcome (format : Format) : Except Failure Result → Reply
  | .ok result => ⟨if result.ok then 0 else 1, format.render result.value, ""⟩
  | .error f => ⟨1, "", f.report⟩

/-- How the program is called. -/
def usage : String :=
  "Usage: triedb [OPTIONS] <COMMAND>\n\n" ++
  "Commands:\n" ++
  "  init    Initialize a new node store\n" ++
  "  insert  Build a trie over the given values and commit it\n" ++
  "  get     Show a stored node\n" ++
  "  verify  Check that every node below a root is stored\n" ++
  "  stats   Show store statistics\n\n" ++
  "Options:\n" ++
  "  -d, --database <DATABASE>  Path to the node store file [default: nodes.triedb]\n" ++
  "  -f, --format <FORMAT>      Output format (json or text) [default: json]\n" ++
  "  -v, --verbose              Report more on standard error\n" ++
  "  -h, --help                 Print help\n" ++
  "  -V, --version              Print version\n"

/-- The name and the version of the program. -/
def versionText : String := "triedb 0.1.0\n"

/-- Answer a command line. -/
def answer (v : Volume) (args : List String) : Reply × Volume :=
  match Request.ofArguments args with
  | none => (⟨2, "", usage⟩, v)
  | some .version => (⟨0, versionText, ""⟩, v)
  | some .help => (⟨0, usage, ""⟩, v)
  | some (.run i) =>
    let (outcome, after) := i.command.run v i.database
    (.ofOutcome i.format outcome, after)

end MerkleBuffer.CommandLine
