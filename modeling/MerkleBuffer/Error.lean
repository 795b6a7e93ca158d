/-
The ways in which an operation can fail, as causes, and their wording.

Three kinds of failure reach a caller of the database: a hash that no tier can
resolve, a failure of the store, and misuse of the meta-root. The others come
from store files and settings.
-/
import MerkleBuffer.ByteSize
import MerkleBuffer.Config.Basic
import MerkleBuffer.Json.Fault
import MerkleBuffer.Trie.Codec

namespace MerkleBuffer

/-- What the operating system can answer to a request on a file. -/
inductive OsError where
  | notFound
  | notADirectory
  | isADirectory
  | nameTooLong
deriving DecidableEq, Repr

namespace OsError

/-- The number of the error. -/
def code : OsError → Nat
  | notFound => 2
  | notADirectory => 20
  | isADirectory => 21
  | nameTooLong => 36

/-- What the error says, without its number. -/
def text : OsError → String
  | notFound => "No such file or directory"
  | notADirectory => "Not a directory"
  | isADirectory => "Is a directory"
  | nameTooLong => "File name too long"

end OsError

/-- What can be wrong with a compressed frame. -/
inductive FrameFault where
  | unknownDescriptor
  | unsupportedParameter
  | windowTooLarge
  | wrongDictionary
  | corruptDictionary
  | wrongLiterals
  | wrongSize
  | corrupt
  /-- More comes out of a frame than there is room for -/
  | noRoom
  | wrongChecksum
  | incomplete
deriving DecidableEq, Repr

/-- The wording of each fault. -/
def FrameFault.message : FrameFault → String
  | .unknownDescriptor => "Unknown frame descriptor"
  | .unsupportedParameter => "Unsupported frame parameter"
  | .windowTooLarge => "Frame requires too much memory for decoding"
  | .wrongDictionary => "Dictionary mismatch"
  | .corruptDictionary => "Dictionary is corrupted"
  | .wrongLiterals => "Header of Literals' block doesn't respect format specification"
  | .wrongSize => "Src size is incorrect"
  | .corrupt => "Data corruption detected"
  | .noRoom => "Destination buffer is too small"
  | .wrongChecksum => "Restored data doesn't match checksum"
  | .incomplete => "incomplete frame"

/-- Why a store could not be read or written. -/
inductive IoFault where
  | os (error : OsError)
  /-- No path holds a zero character -/
  | zeroInPath
  /-- A store that was told to fail gives this reason -/
  | refused (reason : String)
  | endOfFile
  | frame (fault : FrameFault)
  | notText
deriving DecidableEq, Repr

/-- The wording of each fault. -/
def IoFault.message : IoFault → String
  | .os error => s!"{error.text} (os error {error.code})"
  | .zeroInPath => "file name contained an unexpected NUL byte"
  | .refused reason => reason
  | .endOfFile => "failed to fill whole buffer"
  | .frame fault => fault.message
  | .notText => "stream did not contain valid UTF-8"

/-- What was looked for and is nowhere. -/
inductive Missing where
  | node (hash : Hash)
  | metaRoot
deriving DecidableEq, Repr

def Missing.message : Missing → String
  | .node hash => hash.toHex
  | .metaRoot => "the meta-root has no encoding"

/-- What the meta-root cannot be used for. -/
inductive MetaRootMisuse where
  | insert
  | reference
  | dereference
  | commit
deriving DecidableEq, Repr

def MetaRootMisuse.message : MetaRootMisuse → String
  | .insert => "cannot insert a node under the zero hash"
  | .reference => "the meta-root cannot be referenced"
  | .dereference => "the meta-root cannot be dereferenced"
  | .commit => "the meta-root cannot be committed"

/-- Data of a store that cannot be right. -/
inductive Corruption where
  | keyTooLong (length : Nat)
  | valueTooLong (length : Nat)
  /-- A link of the buffer leads to a hash that is not staged -/
  | missingNode (hash : Hash)
  /-- A visitor of a batch found fault with it -/
  | reported (reason : String)
deriving DecidableEq, Repr

def Corruption.message : Corruption → String
  | .keyTooLong length => s!"Key too long: {length} bytes"
  | .valueTooLong length => s!"Value too long: {length} bytes"
  | .missingNode hash => s!"flush list references missing node {hash.toHex}"
  | .reported reason => reason

/-- Why a file is not a store. -/
inductive InvalidFile where
  | truncatedHeader
  | badMagic
deriving DecidableEq, Repr

def InvalidFile.message : InvalidFile → String
  | .truncatedHeader => "Truncated header"
  | .badMagic => "Invalid magic bytes"

/-- The failure of an operation. -/
inductive Error where
  | notFound (what : Missing)
  | io (fault : IoFault)
  | metaRoot (misuse : MetaRootMisuse)
  | encoding (fault : DecodeError)
  | json (fault : JsonFault)
  | corruption (fault : Corruption)
  | invalidFile (fault : InvalidFile)
  | version (found expected : Nat)
  | config (fault : ConfigFault)
deriving DecidableEq, Repr

namespace Error

/-- Whether a lookup found nothing, which is a normal outcome. -/
def isNotFound : Error → Bool
  | notFound _ => true
  | _ => false

/-- The wording of a failure. -/
def message : Error → String
  | notFound what => s!"node not found: {what.message}"
  | io fault => s!"store I/O failed: {fault.message}"
  | metaRoot misuse => s!"meta-root misuse: {misuse.message}"
  | encoding fault => s!"node encoding failed: {fault.message}"
  | json fault => s!"invalid JSON: {fault.message}"
  | corruption fault => s!"corrupt store data: {fault.message}"
  | invalidFile fault => s!"not a node store file: {fault.message}"
  | version found expected => s!"unsupported store version {found}, expected {expected}"
  | config fault => s!"invalid configuration: {fault.message}"

/-- What lies behind a failure, where another layer reported it first. -/
def cause? : Error → Option String
  | io fault => some fault.message
  | encoding fault => some fault.message
  | json fault => some fault.message
  | _ => none

end Error

end MerkleBuffer
