/-
A store that fails on demand and keeps a journal of what it wrote.

It stands in front of another store. Reads, puts and writes can be told to
fail; a write that fails stores nothing. The journal lists the batches that
were written, the empty ones left out.
-/
import MerkleBuffer.Store.Basic

namespace MerkleBuffer

/-- A store with the failures that lie ahead of it. -/
structure Faulty (σ : Type) where
  store : σ
  /-- Writes that still succeed; all, if there is no number -/
  writesLeft : Option Nat
  failPuts : Bool
  failReads : Bool
  /-- The puts of each batch that was written, in order -/
  journal : List (List Put)

namespace Faulty

variable {σ : Type}

/-- A store that does not fail. -/
def reliable (store : σ) : Faulty σ := ⟨store, none, false, false, []⟩

def injected (what : String) : Error := .io (.refused s!"injected {what} failure")

/-- A write that succeeds uses up one of those that are left. -/
def spend : Option Nat → Option Nat
  | none => none
  | some n => some (n - 1)

instance [KeyValueStore σ] : KeyValueStore (Faulty σ) where
  get s key := if s.failReads then .error (injected "read") else KeyValueStore.get s.store key
  has s key := if s.failReads then .error (injected "read") else KeyValueStore.has s.store key
  accept s := if s.failPuts then .error (injected "put") else KeyValueStore.accept s.store
  write s puts :=
    if s.writesLeft = some 0 then .error (injected "write")
    else
      match KeyValueStore.write s.store puts with
      | .error e => .error e
      | .ok store => .ok { s with
          store
          writesLeft := spend s.writesLeft
          journal := if puts.isEmpty then s.journal else s.journal ++ [puts] }
  size s := KeyValueStore.size s.store

end Faulty

end MerkleBuffer
