/-
What stores have in common.

A lawful store is told by the puts that were written to it: it answers with the
value that was put under a key, as long as all puts of the key agree, and it
knows no other keys. Which of several values would count is left open, since
stores differ in this.
-/
import MerkleBuffer.Proofs.Store.RecordLog
import MerkleBuffer.Store.Faulty
import MerkleBuffer.Store.Memory

namespace MerkleBuffer

/-- A store that answers with what was put. -/
class LawfulStore (σ : Type) [KeyValueStore σ] where
  /-- The store holds these puts, and no others -/
  Holds : σ → List Put → Prop
  holds_write {s t : σ} {ps qs : List Put} : Holds s ps → KeyValueStore.write s qs = .ok t → Holds t (ps ++ qs)
  get_none {s : σ} {ps : List Put} {key : Bytes} : Holds s ps → (∀ p ∈ ps, p.key ≠ key) →
    KeyValueStore.get s key = .ok none
  get_some {s : σ} {ps : List Put} {p : Put} : Holds s ps → p ∈ ps → (∀ q ∈ ps, q.key = p.key → q.value = p.value) →
    KeyValueStore.get s p.key = .ok (some p.value)

/-- `t` is the store `s` after some puts were written to it, batch by batch. -/
inductive Wrote {σ : Type} [KeyValueStore σ] (s : σ) : List Put → σ → Prop
  | nothing : Wrote s [] s
  | batch {ps qs : List Put} {t u : σ} (before : Wrote s ps t) (write : KeyValueStore.write t qs = .ok u) :
      Wrote s (ps ++ qs) u

namespace Wrote

variable {σ : Type} [KeyValueStore σ] {s t u : σ} {ps qs : List Put}

theorem trans (hps : Wrote s ps t) (hqs : Wrote t qs u) : Wrote s (ps ++ qs) u := by
  induction hqs with
  | nothing => rwa [List.append_nil]
  | batch _ hwrite ih =>
    rw [← List.append_assoc]
    exact ih.batch hwrite

theorem holds [LawfulStore σ] (hw : Wrote s qs t) (hs : LawfulStore.Holds s ps) :
    LawfulStore.Holds t (ps ++ qs) := by
  induction hw with
  | nothing => rwa [List.append_nil]
  | batch _ hwrite ih =>
    rw [← List.append_assoc]
    exact LawfulStore.holds_write ih hwrite

end Wrote

/-! ## In memory -/

namespace MemoryStore

variable {s : MemoryStore} {ps : List Put} {key value : Bytes}

theorem get?_put (s : MemoryStore) (p : Put) (key : Bytes) :
    (s.put p).get? key = if p.key = key then some p.value else s.get? key := by
  unfold get? put
  rw [Std.ExtTreeMap.getElem?_insert]
  simp only [Std.LawfulEqCmp.compare_eq_iff_eq]

theorem get?_putAll_of_ne (hne : ∀ p ∈ ps, p.key ≠ key) : (s.putAll ps).get? key = s.get? key := by
  induction ps generalizing s with
  | nil => rfl
  | cons p rest ih =>
    have hrest : ((s.put p).putAll rest).get? key = (s.put p).get? key :=
      ih fun q hq => hne q (List.mem_cons_of_mem _ hq)
    rw [get?_put, if_neg (hne p List.mem_cons_self)] at hrest
    exact hrest

theorem get?_putAll (hput : (∃ p ∈ ps, p.key = key) ∨ s.get? key = some value)
    (hagree : ∀ p ∈ ps, p.key = key → p.value = value) : (s.putAll ps).get? key = some value := by
  induction ps generalizing s with
  | nil => exact hput.resolve_left fun ⟨_, hp, _⟩ => (nomatch hp)
  | cons p rest ih =>
    have hrest : (∃ q ∈ rest, q.key = key) ∨ (s.put p).get? key = some value := by
      rw [get?_put]
      by_cases hp : p.key = key
      · rw [if_pos hp, hagree p List.mem_cons_self hp]
        exact .inr rfl
      · rw [if_neg hp]
        refine hput.imp_left fun ⟨q, hq, hkey⟩ => ⟨q, (List.mem_cons.1 hq).resolve_left ?_, hkey⟩
        rintro rfl
        exact hp hkey
    exact ih hrest fun q hq => hagree q (List.mem_cons_of_mem _ hq)

instance : LawfulStore MemoryStore where
  Holds s ps := s = empty.putAll ps
  holds_write {s t ps qs} hs hw := by
    have ht : s.putAll qs = t := Except.ok.inj hw
    rw [← ht, hs, putAll, putAll, putAll, List.foldl_append]
  get_none {s ps key} hs hne := by
    have hget : s.get? key = none := by
      rw [hs, get?_putAll_of_ne hne]
      simp [get?, empty]
    exact congrArg Except.ok hget
  get_some {s ps p} hs hp hagree := by
    have hget : s.get? p.key = some p.value := by
      rw [hs]
      exact get?_putAll (.inl ⟨p, hp, rfl⟩) hagree
    exact congrArg Except.ok hget

theorem holds_empty : LawfulStore.Holds empty [] := rfl

end MemoryStore

/-! ## In a file -/

namespace RecordLog

variable [FrameCodec] {ps : List Put}

/-- The records of some puts: one for the first put of each key. -/
def recordsOf (ps : List Put) : List Record := (firstPuts [] ps).map Record.ofPut

theorem keys_recordsOf (ps : List Put) : (recordsOf ps).map (·.key) = (firstPuts [] ps).map (·.key) := by
  rw [recordsOf, List.map_map]
  rfl

theorem mem_keys_recordsOf {k : Bytes} : k ∈ (recordsOf ps).map (·.key) ↔ k ∈ ps.map (·.key) := by
  rw [keys_recordsOf, mem_keys_firstPuts]
  simp

theorem nodup_recordsOf (ps : List Put) : ((recordsOf ps).map (·.key)).Nodup := by
  rw [keys_recordsOf]
  exact (nodup_firstPuts [] ps).1

theorem recordsOf_append (ps qs : List Put) :
    recordsOf (ps ++ qs) = recordsOf ps ++ (firstPuts ((recordsOf ps).map (·.key)) qs).map Record.ofPut := by
  have hseen : firstPuts (ps.map (·.key) ++ []) qs = firstPuts ((recordsOf ps).map (·.key)) qs :=
    firstPuts_congr (fun k => by rw [mem_keys_recordsOf, List.append_nil]) qs
  rw [recordsOf, firstPuts_append, hseen, List.map_append]
  rfl

instance : LawfulStore RecordLog where
  Holds log ps := log = ofRecords (recordsOf ps) ∧ ∀ r ∈ recordsOf ps, r.Fits
  holds_write {s t ps qs} hs hw := by
    obtain ⟨rfl, hfits⟩ := hs
    obtain ⟨rfl, hfits'⟩ := append_ofRecords hw
    rw [recordsOf_append]
    exact ⟨rfl, fun r hr => (List.mem_append.1 hr).elim (hfits r) (hfits' r)⟩
  get_none {s ps key} hs hne := by
    obtain ⟨rfl, -⟩ := hs
    refine get_ofRecords_of_not_mem ?_
    rw [mem_keys_recordsOf]
    intro hkey
    obtain ⟨p, hp, heq⟩ := List.mem_map.1 hkey
    exact hne p hp heq
  get_some {s ps p} hs hp hagree := by
    obtain ⟨rfl, -⟩ := hs
    obtain ⟨r, hr, hkey⟩ := List.mem_map.1 (mem_keys_recordsOf.2 (List.mem_map.2 ⟨p, hp, rfl⟩))
    obtain ⟨q, hq, rfl⟩ := List.mem_map.1 hr
    have hvalue : q.value = p.value := hagree q ((firstPuts_sublist [] ps).subset hq) hkey
    have hget := get_ofRecords (nodup_recordsOf ps) hr rfl
    rw [hkey, hvalue] at hget
    exact hget

theorem holds_create : LawfulStore.Holds create [] := ⟨ofRecords_nil.symm, by simp [recordsOf, firstPuts]⟩

end RecordLog

/-! ## With failures -/

theorem Faulty.write_eq_ok {σ : Type} [KeyValueStore σ] {s t : Faulty σ} {qs : List Put}
    (hw : KeyValueStore.write s qs = .ok t) : ∃ store, KeyValueStore.write s.store qs = .ok store ∧
      t = { s with
        store
        writesLeft := spend s.writesLeft
        journal := if qs.isEmpty then s.journal else s.journal ++ [qs] } := by
  simp only [KeyValueStore.write] at hw
  split at hw
  · cases hw
  split at hw
  · cases hw
  · next store hinner => exact ⟨store, hinner, (Except.ok.inj hw).symm⟩

/-- Failed writes take nothing away from the store behind them. -/
instance {σ : Type} [KeyValueStore σ] [LawfulStore σ] : LawfulStore (Faulty σ) where
  Holds s ps := s.failReads = false ∧ LawfulStore.Holds s.store ps
  holds_write {s t ps qs} hs hw := by
    obtain ⟨store, hinner, rfl⟩ := Faulty.write_eq_ok hw
    exact ⟨hs.1, LawfulStore.holds_write hs.2 hinner⟩
  get_none {s ps key} hs hne := by
    simp only [KeyValueStore.get, hs.1]
    exact LawfulStore.get_none hs.2 hne
  get_some {s ps p} hs hp hagree := by
    simp only [KeyValueStore.get, hs.1]
    exact LawfulStore.get_some hs.2 hp hagree

end MerkleBuffer
