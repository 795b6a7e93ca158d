/-
Getting past JSON values that are not wanted.

The reader keeps the lists and objects it is inside of on a stack of its own, so
values may be nested to any depth.
-/
import MerkleBuffer.Json.Number

namespace MerkleBuffer

/-- What a value can stand in. -/
inductive JsonFrame where
  | list
  | object
deriving DecidableEq, Repr

namespace JsonFrame

def closer : JsonFrame → UInt8
  | list => Ascii.closeBracket
  | object => Ascii.closeBrace

/-- The text ended before the closer. -/
def ended : JsonFrame → JsonReason
  | list => .endInList
  | object => .endInObject

/-- Something else stood in place of a comma or the closer. -/
def unclosed : JsonFrame → JsonReason
  | list => .expectedCommaOrBracket
  | object => .expectedCommaOrBrace

/-- The frame that a byte opens. -/
def opened? (b : UInt8) : Option JsonFrame :=
  if b = Ascii.openBracket then some list
  else if b = Ascii.openBrace then some object
  else none

end JsonFrame

namespace JsonReader

/-- Get past the colon behind a name. -/
def skipColon (input : Bytes) : Except JsonStop Bytes :=
  match skipBlanks input with
  | [] => stop .endInObject []
  | Ascii.colon :: rest => .ok rest
  | _ :: rest => stop .expectedColon rest

/-- Get to the next value in a frame: in an object, past a name and its colon. -/
def skipName : JsonFrame → Bytes → Except JsonStop Bytes
  | .list, input => .ok input
  | .object, input =>
    match skipBlanks input with
    | [] => stop .endInObject []
    | Ascii.quote :: rest => do skipColon (← skipString rest)
    | _ :: rest => stop .keyNotString rest

/-- Get past what may follow a value: the closers of frames that end with it,
and a comma. The frames that are still open are returned; if there are any, a
value follows. -/
def skipClosers : List JsonFrame → JsonReader (List JsonFrame)
  | [], input => .ok ([], input)
  | frame :: outer, input =>
    match skipBlanks input with
    | [] => stop frame.ended []
    | b :: rest =>
      if b = Ascii.comma then do return (frame :: outer, ← skipName frame rest)
      else if b = frame.closer then skipClosers outer rest
      else stop frame.unclosed rest

/-- Get past a value that is neither list nor object, given its first byte. -/
def skipScalar (b : UInt8) (rest : Bytes) : Except JsonStop Bytes :=
  if b = Ascii.ofChar 'n' then skipWord (utf8 "ull") rest
  else if b = Ascii.ofChar 't' then skipWord (utf8 "rue") rest
  else if b = Ascii.ofChar 'f' then skipWord (utf8 "alse") rest
  else if b = Ascii.minus then skipNumber rest
  else if Ascii.isDigit b then skipNumber (b :: rest)
  else if b = Ascii.quote then skipString rest
  else stop .expectedValue rest

/-- Get past a value, or past the opening of one that has others inside. The
frames that are open then are returned; if there are any, a value follows. -/
def skipStep (frames : List JsonFrame) : JsonReader (List JsonFrame) := fun input =>
  match skipBlanks input with
  | [] => stop .endInValue []
  | b :: rest =>
    match JsonFrame.opened? b with
    | none => do skipClosers frames (← skipScalar b rest)
    | some frame =>
      match skipBlanks rest with
      | [] => stop frame.ended []
      | c :: after =>
        if c = frame.closer then skipClosers frames after
        else do return (frame :: frames, ← skipName frame (c :: after))

/-- Get past the value that follows, and out of all frames. Each step takes at
least one byte, so `fuel` may be the length of the text. -/
def skipFrames : Nat → List JsonFrame → Bytes → Except JsonStop Bytes
  | 0, _, _ => stop .endInValue []
  | fuel + 1, frames, input => do
    let (frames, rest) ← skipStep frames input
    if frames.isEmpty then return rest else skipFrames fuel frames rest

/-- Get past a value. -/
def skipValue (input : Bytes) : Except JsonStop Bytes := skipFrames (input.length + 1) [] input

end JsonReader

end MerkleBuffer
