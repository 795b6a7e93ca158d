/-
Stores of keys and values, and the batches that are written to them.

The database asks little of a store: point reads, and batches that are written
in one step or not at all. A batch keeps its puts after it was written, so that
its owner can act on exactly the keys that are now stored.
-/
import MerkleBuffer.Error

namespace MerkleBuffer

/-- A value to be stored under a key. -/
structure Put where
  key : Bytes
  value : Bytes
deriving DecidableEq, Repr

/-- The bytes of the values of some puts. -/
def valueBytes (puts : List Put) : Nat := total (puts.map (·.value.length))

/-- Puts queued for a store, in order, with the bytes of their values. -/
structure Batch where
  puts : List Put
  valueSize : Nat
  valueSize_eq : valueSize = valueBytes puts

namespace Batch

/-- A batch without puts. -/
def empty : Batch := ⟨[], 0, rfl⟩

instance : Inhabited Batch := ⟨empty⟩

/-- Queue a put behind the others. -/
def push (b : Batch) (p : Put) : Batch where
  puts := b.puts ++ [p]
  valueSize := b.valueSize + p.value.length
  valueSize_eq := by simp [valueBytes, b.valueSize_eq]

/-- Hand the queued puts to a visitor in order, until it refuses one. The state
is what the visitor made of those it accepted. -/
def replay {α : Type} (b : Batch) (visit : α → Put → Except Error α) (state : α) : α × Except Error Unit :=
  go state b.puts
where
  go (state : α) : List Put → α × Except Error Unit
    | [] => (state, .ok ())
    | p :: rest =>
      match visit state p with
      | .ok next => go next rest
      | .error e => (state, .error e)

end Batch

/-- A store of keys and values. -/
class KeyValueStore (σ : Type) where
  /-- The value stored under a key -/
  get : σ → Bytes → Except Error (Option Bytes)
  /-- Whether a key is stored -/
  has : σ → Bytes → Except Error Bool
  /-- Whether puts can be queued at all -/
  accept : σ → Except Error Unit
  /-- Write puts in one step; a write that fails stores nothing -/
  write : σ → List Put → Except Error σ
  /-- The number of keys -/
  size : σ → Nat

/-- A store of one of two kinds. -/
instance {σ τ : Type} [KeyValueStore σ] [KeyValueStore τ] : KeyValueStore (σ ⊕ τ) where
  get
    | .inl s, key => KeyValueStore.get s key
    | .inr s, key => KeyValueStore.get s key
  has
    | .inl s, key => KeyValueStore.has s key
    | .inr s, key => KeyValueStore.has s key
  accept
    | .inl s => KeyValueStore.accept s
    | .inr s => KeyValueStore.accept s
  write
    | .inl s, puts => (KeyValueStore.write s puts).map .inl
    | .inr s, puts => (KeyValueStore.write s puts).map .inr
  size
    | .inl s => KeyValueStore.size s
    | .inr s => KeyValueStore.size s

end MerkleBuffer
