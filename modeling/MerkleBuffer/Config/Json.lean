/-
Settings as JSON texts.

They are written as an object, the settings in their order. Read is an object in
which each setting stands at most once among any other members, or a list with
the values of the first settings; those that are not given have their standard
value. `Config.ofJson` does not ask whether the settings are in order.
-/
import MerkleBuffer.Config.Basic
import MerkleBuffer.Json.Skip
import MerkleBuffer.Json.Value

namespace MerkleBuffer

/-- One of the settings. -/
inductive Setting where
  | cleanCacheSize
  | cleanCacheShards
  | idealBatchSize
  | preimageFlushThreshold
deriving DecidableEq, Repr

namespace Setting

/-- All settings, in their order. -/
def all : List Setting := [cleanCacheSize, cleanCacheShards, idealBatchSize, preimageFlushThreshold]

def name : Setting → String
  | cleanCacheSize => "clean_cache_size"
  | cleanCacheShards => "clean_cache_shards"
  | idealBatchSize => "ideal_batch_size"
  | preimageFlushThreshold => "preimage_flush_threshold"

/-- The setting of a name, given in UTF-8. -/
def ofName? (name : Bytes) : Option Setting := all.find? fun s => utf8 s.name = name

end Setting

namespace Config

def get (c : Config) : Setting → UInt64
  | .cleanCacheSize => c.cleanCacheSize
  | .cleanCacheShards => c.cleanCacheShards
  | .idealBatchSize => c.idealBatchSize
  | .preimageFlushThreshold => c.preimageFlushThreshold

def set (c : Config) (s : Setting) (value : UInt64) : Config :=
  match s with
  | .cleanCacheSize => { c with cleanCacheSize := value }
  | .cleanCacheShards => { c with cleanCacheShards := value }
  | .idealBatchSize => { c with idealBatchSize := value }
  | .preimageFlushThreshold => { c with preimageFlushThreshold := value }

/-- Values for some of the settings. -/
abbrev Given := List (Setting × UInt64)

/-- Settings of which some are given and the others standard. -/
def ofGiven (given : Given) : Config := given.foldl (fun c g => c.set g.1 g.2) standard

/-- The settings with their names, in their order. -/
def toJson (c : Config) : Json :=
  .object (Setting.all.map fun s => (s.name, .number (c.get s).toNat))

open JsonReader

/-- A fault for a value that is of another kind than the one wanted, given its
first byte. Scalars are read first, and may have faults of their own. -/
def wrongKind {α : Type} (wanted : String) (b : UInt8) (rest : Bytes) : Except JsonStop α :=
  let refuse (found : JsonFound) (rest : Bytes) : Except JsonStop α := stop (.wrongKind found wanted) rest
  if b = Ascii.ofChar 'n' then do refuse .null (← skipWord (utf8 "ull") rest)
  else if b = Ascii.ofChar 't' then do refuse (.bool true) (← skipWord (utf8 "rue") rest)
  else if b = Ascii.ofChar 'f' then do refuse (.bool false) (← skipWord (utf8 "alse") rest)
  else if b = Ascii.minus then do
    let (n, rest) ← readNumber true rest
    refuse n.found rest
  else if Ascii.isDigit b then do
    let (n, rest) ← readNumber false (b :: rest)
    refuse n.found rest
  else if b = Ascii.quote then do
    let (text, rest) ← readString rest
    refuse (.string ((ofUtf8? text).getD "")) rest
  else if b = Ascii.openBracket then refuse .list (b :: rest)
  else if b = Ascii.openBrace then refuse .object (b :: rest)
  else stop .expectedValue rest

/-- What the value of a setting is called. -/
def valueKind : String := "usize"

/-- What settings as a whole are called. -/
def wholeKind : String := "struct DatabaseConfig"

/-- The value of a setting from a number. -/
def ofNumber (n : JsonNumber) (rest : Bytes) : Except JsonStop (UInt64 × Bytes) :=
  match n with
  | .natural value => .ok (UInt64.ofNat value, rest)
  | .negative value => stop (.wrongValue (.integer value) valueKind) rest
  | .floating sign value => stop (.wrongKind (.floating sign value) valueKind) rest

/-- The value of a setting: a natural number below 2^64. -/
def readValue : JsonReader UInt64 := fun input =>
  match skipBlanks input with
  | [] => stop .endInValue []
  | b :: rest =>
    if b = Ascii.minus then do
      let (n, rest) ← readNumber true rest
      ofNumber n rest
    else if Ascii.isDigit b then do
      let (n, rest) ← readNumber false (b :: rest)
      ofNumber n rest
    else wrongKind valueKind b rest

/-! ## Members of an object -/

/-- The place of a fault in a member that should not be there: in front of what
follows its name, or behind the end of the object. -/
def behindName (rest : Bytes) : Bytes :=
  match skipBlanks rest with
  | Ascii.closeBrace :: rest => rest
  | rest => rest

/-- A member, behind the opening quote of its name. Other members than the
settings are skipped. -/
def readMember (given : Given) : JsonReader Given := fun input => do
  let (name, rest) ← readString input
  match Setting.ofName? name with
  | none => return (given, ← skipValue (← skipColon rest))
  | some s =>
    if given.any (·.1 = s) then stop (.duplicateField s.name) (behindName rest)
    else
      let (value, rest) ← readValue (← skipColon rest)
      return (given ++ [(s, value)], rest)

/-- The members that follow others, up to the end of the object. Each takes at
least one byte, so `fuel` may be the length of the text. -/
def readMembers : Nat → Given → JsonReader Given
  | 0, _, _ => stop .endInObject []
  | fuel + 1, given, input =>
    match skipBlanks input with
    | [] => stop .endInObject []
    | Ascii.closeBrace :: rest => .ok (given, rest)
    | Ascii.comma :: rest =>
      match skipBlanks rest with
      | [] => stop .endInValue []
      | Ascii.quote :: rest => do
        let (given, rest) ← readMember given rest
        readMembers fuel given rest
      | Ascii.closeBrace :: rest => stop .trailingComma rest
      | _ :: rest => stop .keyNotString rest
    | _ :: rest => stop .expectedCommaOrBrace rest

/-- An object, behind its opening brace. -/
def readObject : JsonReader Given := fun input =>
  match skipBlanks input with
  | [] => stop .endInObject []
  | Ascii.closeBrace :: rest => .ok ([], rest)
  | Ascii.quote :: rest => do
    let (given, rest) ← readMember [] rest
    readMembers rest.length given rest
  | _ :: rest => stop .keyNotString rest

/-! ## Items of a list -/

/-- The end of a list. -/
def closeList (input : Bytes) : Except JsonStop Bytes :=
  match skipBlanks input with
  | [] => stop .endInList []
  | Ascii.closeBracket :: rest => .ok rest
  | Ascii.comma :: rest =>
    match skipBlanks rest with
    | Ascii.closeBracket :: rest => stop .trailingComma rest
    | rest => stopAt .trailingCharacters rest
  | _ :: rest => stop .trailingCharacters rest

/-- The items that follow others, for the settings that are left. -/
def readItems : List Setting → JsonReader Given
  | [], input => do return ([], ← closeList input)
  | s :: settings, input =>
    match skipBlanks input with
    | [] => stop .endInList []
    | Ascii.closeBracket :: rest => .ok ([], rest)
    | Ascii.comma :: rest =>
      match skipBlanks rest with
      | [] => stop .endInValue []
      | Ascii.closeBracket :: rest => stop .trailingComma rest
      | _ => do
        let (value, rest) ← readValue rest
        let (given, rest) ← readItems settings rest
        return ((s, value) :: given, rest)
    | _ :: rest => stop .expectedCommaOrBracket rest

/-- A list, behind its opening bracket. -/
def readList : JsonReader Given := fun input =>
  match skipBlanks input with
  | [] => stop .endInList []
  | Ascii.closeBracket :: rest => .ok ([], rest)
  | _ => do
    let (value, rest) ← readValue input
    let (given, rest) ← readItems (Setting.all.drop 1) rest
    return ((.cleanCacheSize, value) :: given, rest)

/-! ## Texts -/

/-- The settings that a text gives. -/
def readText (text : Bytes) : Except JsonStop Given := do
  let (given, rest) ←
    match skipBlanks text with
    | [] => stop .endInValue []
    | b :: rest =>
      if b = Ascii.openBracket then readList rest
      else if b = Ascii.openBrace then readObject rest
      else wrongKind wholeKind b rest
  if (skipBlanks rest).isEmpty then return given else stopAt .trailingCharacters (skipBlanks rest)

/-- The settings in a JSON text, in order or not. -/
def ofJson (text : Bytes) : Except JsonFault Config :=
  match readText text with
  | .ok given => .ok (ofGiven given)
  | .error s => .error ⟨s.reason, Position.behind (text.take (text.length - s.rest.length))⟩

end Config

end MerkleBuffer
