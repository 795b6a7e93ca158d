/-
The 64-bit xxHash of a byte string, with seed zero.

Words of eight bytes are mixed into four lanes in turn. The lanes are put
together, and the words and bytes that fill no round of lanes go in one by one.
-/
import MerkleBuffer.Bytes

namespace MerkleBuffer.XxHash64

def prime1 : UInt64 := 0x9E3779B185EBCA87
def prime2 : UInt64 := 0xC2B2AE3D27D4EB4F
def prime3 : UInt64 := 0x165667B19E3779F9
def prime4 : UInt64 := 0x85EBCA77C2B2AE63
def prime5 : UInt64 := 0x27D4EB2F165667C5

/-- A word turned left by `n` bits, for `0 < n < 64`. -/
def turnLeft (w n : UInt64) : UInt64 := (w <<< n) ||| (w >>> (64 - n))

/-- Mix a word into a lane. -/
def mix (lane word : UInt64) : UInt64 := turnLeft (lane + word * prime2) 31 * prime1

/-- The words of a byte string, and the bytes behind them that fill none. -/
def words : Bytes → List UInt64 × Bytes
  | a :: b :: c :: d :: e :: f :: g :: h :: rest =>
    let (ws, tail) := words rest
    (UInt64.ofNat (LittleEndian.decode [a, b, c, d, e, f, g, h]) :: ws, tail)
  | bytes => ([], bytes)

/-- Four lanes, each of which takes every fourth word. -/
structure Lanes where
  first : UInt64
  second : UInt64
  third : UInt64
  fourth : UInt64

namespace Lanes

/-- The lanes before any word. -/
def initial : Lanes := ⟨prime1 + prime2, prime2, 0, 0 - prime1⟩

/-- Mix words into the lanes as long as there is one for each; the others are
left. -/
def mixAll (l : Lanes) : List UInt64 → Lanes × List UInt64
  | a :: b :: c :: d :: rest => mixAll ⟨mix l.first a, mix l.second b, mix l.third c, mix l.fourth d⟩ rest
  | rest => (l, rest)

/-- The lanes put together. -/
def join (l : Lanes) : UInt64 :=
  let sum := turnLeft l.first 1 + turnLeft l.second 7 + turnLeft l.third 12 + turnLeft l.fourth 18
  [l.first, l.second, l.third, l.fourth].foldl (fun h lane => (h ^^^ mix 0 lane) * prime1 + prime4) sum

end Lanes

/-- Put in a word that fills no round of lanes. -/
def addWord (h word : UInt64) : UInt64 := turnLeft (h ^^^ mix 0 word) 27 * prime1 + prime4

/-- Put in a byte that fills no word. -/
def addByte (h : UInt64) (byte : UInt8) : UInt64 := turnLeft (h ^^^ byte.toUInt64 * prime5) 11 * prime1

/-- Put in the bytes that fill no word: four of them together, if there are as
many. -/
def addBytes (h : UInt64) : Bytes → UInt64
  | a :: b :: c :: d :: rest =>
    let half := UInt64.ofNat (LittleEndian.decode [a, b, c, d])
    rest.foldl addByte (turnLeft (h ^^^ half * prime1) 23 * prime2 + prime3)
  | rest => rest.foldl addByte h

/-- Let every bit act on every other. -/
def finish (h : UInt64) : UInt64 :=
  let h := (h ^^^ (h >>> 33)) * prime2
  let h := (h ^^^ (h >>> 29)) * prime3
  h ^^^ (h >>> 32)

/-- The hash of a byte string. -/
def digest (bytes : Bytes) : UInt64 :=
  let (ws, rest) := words bytes
  let (lanes, ws) := Lanes.initial.mixAll ws
  let start := if bytes.length < 32 then prime5 else lanes.join
  finish (addBytes (ws.foldl addWord (start + UInt64.ofNat bytes.length)) rest)

end MerkleBuffer.XxHash64
