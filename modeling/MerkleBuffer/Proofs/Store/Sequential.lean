/-
Stores in which it does not matter how puts are spread over batches.

A batch that is written in two pieces, one behind the other, leaves the same store, and
fails if one of the pieces does. A store in memory is of this kind, and so is a store
file: what the second piece adds stands where the first one ended.
-/
import MerkleBuffer.Proofs.Store.RecordLog
import MerkleBuffer.Store.Memory

namespace MerkleBuffer

/-- A store that takes every put, and in which a batch can be cut in two. -/
class SequentialStore (σ : Type) [KeyValueStore σ] : Prop where
  accept (s : σ) : KeyValueStore.accept s = .ok ()
  write_append (s : σ) (ps qs : List Put) :
    KeyValueStore.write s (ps ++ qs) = (KeyValueStore.write s ps).bind (KeyValueStore.write · qs)

instance : SequentialStore MemoryStore where
  accept _ := rfl
  write_append _ _ _ := congrArg Except.ok List.foldl_append

theorem overwrite_cons (bytes : Bytes) (offset : Nat) (x : UInt8) (data : Bytes) :
    overwrite bytes offset (x :: data) = bytes.take offset ++ List.replicate (offset - bytes.length) 0 ++ x :: data
      ++ bytes.drop (offset + (x :: data).length) := rfl

theorem overwrite_append (bytes : Bytes) (offset : Nat) (a b : Bytes) :
    overwrite (overwrite bytes offset a) (offset + a.length) b = overwrite bytes offset (a ++ b) := by
  cases a with
  | nil => rfl
  | cons x a =>
    cases b with
    | nil => rw [List.append_nil, overwrite]
    | cons y b =>
      rw [List.cons_append, overwrite_cons bytes offset x a, overwrite_cons bytes offset x (a ++ y :: b)]
      generalize hfront : bytes.take offset ++ List.replicate (offset - bytes.length) 0 = front
      have hlength : front.length = offset := by
        rw [← hfront, List.length_append, List.length_take, List.length_replicate]
        omega
      have hwritten : (front ++ x :: a).length = offset + (x :: a).length := by rw [List.length_append, hlength]
      have hgap : offset + (x :: a).length - (front ++ x :: a ++ bytes.drop (offset + (x :: a).length)).length = 0 := by
        rw [List.length_append, hwritten]
        omega
      have hrest : offset + (x :: a).length + (y :: b).length = offset + (x :: (a ++ y :: b)).length := by
        simp only [List.length_cons, List.length_append]
        omega
      rw [overwrite_cons, hgap, List.take_left' hwritten, ← List.drop_drop, List.drop_left' hwritten, List.drop_drop,
        hrest]
      simp

namespace RecordLog

theorem stage_append [FrameCodec] (index : Index) (offset : Nat) (ps qs : List Put) :
    stage index offset (ps ++ qs) = (stage index offset ps).bind fun x =>
      (stage x.1 (offset + (x.2.flatMap Record.encode).length) qs).map fun y => (y.1, x.2 ++ y.2) := by
  induction ps generalizing index offset with
  | nil =>
    show stage index offset qs = (stage index (offset + 0) qs).map fun y => (y.1, y.2)
    cases stage index offset qs <;> rfl
  | cons p rest ih =>
    rw [List.cons_append, stage, stage]
    split
    · exact ih index offset
    split
    · rfl
    dsimp only
    split
    · rfl
    rw [ih]
    cases stage (index.insert (Record.ofPut p).key ((Record.ofPut p).location offset))
        (offset + (Record.ofPut p).size) rest with
    | error e => rfl
    | ok x =>
      have hoffset : offset + ((Record.ofPut p :: x.2).flatMap Record.encode).length =
          offset + (Record.ofPut p).size + (x.2.flatMap Record.encode).length := by
        rw [List.flatMap_cons, List.length_append, Record.length_encode, Nat.add_assoc]
      simp only [Except.bind, hoffset]
      cases stage x.1 (offset + (Record.ofPut p).size + (x.2.flatMap Record.encode).length) qs <;> rfl

end RecordLog

instance [FrameCodec] : SequentialStore RecordLog where
  accept _ := rfl
  write_append s ps qs := by
    show RecordLog.append s (ps ++ qs) = (RecordLog.append s ps).bind (RecordLog.append · qs)
    unfold RecordLog.append
    rw [RecordLog.stage_append]
    cases RecordLog.stage s.index s.endOffset ps with
    | error e => rfl
    | ok x =>
      simp only [Except.bind]
      cases RecordLog.stage x.1 (s.endOffset + (x.2.flatMap Record.encode).length) qs with
      | error e => rfl
      | ok y =>
        simp only [Except.map, List.flatMap_append, List.length_append, overwrite_append, Nat.add_assoc]

end MerkleBuffer
