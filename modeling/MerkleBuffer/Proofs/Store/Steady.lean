/-
What a write does to a store, whatever the store held before.

A lawful store is told by all puts since it was empty. A store file that was opened
may hold anything, also values that cannot be read, so a steady store is told by one
write alone: keys that are not put read as before, and a key that has no value yet
reads as the one that is put. Every store file that can be made or opened is sound in
this sense (`RecordLog.InUse.sound`).
-/
import MerkleBuffer.Proofs.Store.Lawful
import MerkleBuffer.Proofs.Store.Recovery

namespace MerkleBuffer

/-- A store whose sound states stay sound, and in which a write settles the keys that
are put, as long as these have no value yet or the one that is put. -/
class SteadyStore (σ : Type) [KeyValueStore σ] where
  Sound : σ → Prop
  sound_write {s t : σ} {qs : List Put} : Sound s → KeyValueStore.write s qs = .ok t → Sound t
  get_of_not_put {s t : σ} {qs : List Put} {key : Bytes} : Sound s → KeyValueStore.write s qs = .ok t →
    (∀ q ∈ qs, q.key ≠ key) → KeyValueStore.get t key = KeyValueStore.get s key
  get_of_put {s t : σ} {qs : List Put} {q : Put} : Sound s → KeyValueStore.write s qs = .ok t → q ∈ qs →
    (∀ p ∈ qs, p.key = q.key → p.value = q.value) →
    KeyValueStore.get s q.key = .ok none ∨ KeyValueStore.get s q.key = .ok (some q.value) →
    KeyValueStore.get t q.key = .ok (some q.value)

namespace SteadyStore

variable {σ : Type} [KeyValueStore σ] [SteadyStore σ] {s t : σ} {qs : List Put}

theorem sound_wrote (hs : Sound s) (hw : Wrote s qs t) : Sound t := by
  induction hw with
  | nothing => exact hs
  | batch _ hwrite ih => exact sound_write ih hwrite

theorem get_of_not_wrote (hs : Sound s) (hw : Wrote s qs t) {key : Bytes} (hne : ∀ q ∈ qs, q.key ≠ key) :
    KeyValueStore.get t key = KeyValueStore.get s key := by
  induction hw with
  | nothing => rfl
  | batch before hwrite ih =>
    rw [get_of_not_put (sound_wrote hs before) hwrite fun q hq => hne q (List.mem_append_right _ hq),
      ih fun q hq => hne q (List.mem_append_left _ hq)]

/-- Puts of a key that agree leave their value there, however they were spread over
batches. -/
theorem get_of_wrote (hs : Sound s) (hw : Wrote s qs t) {q : Put} (hq : q ∈ qs)
    (hagree : ∀ p ∈ qs, p.key = q.key → p.value = q.value)
    (hget : KeyValueStore.get s q.key = .ok none ∨ KeyValueStore.get s q.key = .ok (some q.value)) :
    KeyValueStore.get t q.key = .ok (some q.value) := by
  induction hw generalizing q with
  | nothing => cases hq
  | @batch ps rs mid u before hwrite ih =>
    have hmid := sound_wrote hs before
    have hagree₁ : ∀ p ∈ ps, p.key = q.key → p.value = q.value := fun p hp => hagree p (List.mem_append_left _ hp)
    have hagree₂ : ∀ p ∈ rs, p.key = q.key → p.value = q.value := fun p hp => hagree p (List.mem_append_right _ hp)
    -- before the last batch the key has its value if it was put, and reads as at first if not
    have hbefore : KeyValueStore.get mid q.key = .ok none ∧ (∀ p ∈ ps, p.key ≠ q.key) ∨
        KeyValueStore.get mid q.key = .ok (some q.value) := by
      by_cases hput : ∃ p ∈ ps, p.key = q.key
      · obtain ⟨p, hp, hkey⟩ := hput
        have hvalue := hagree₁ p hp hkey
        have hread := ih hp (by rwa [hkey, hvalue]) (by rwa [hkey, hvalue])
        rw [hkey, hvalue] at hread
        exact .inr hread
      · have hne : ∀ p ∈ ps, p.key ≠ q.key := fun p hp hkey => hput ⟨p, hp, hkey⟩
        rw [get_of_not_wrote hs before hne]
        exact hget.imp_left fun hnone => ⟨hnone, hne⟩
    by_cases hlast : ∃ p ∈ rs, p.key = q.key
    · obtain ⟨p, hp, hkey⟩ := hlast
      have hvalue := hagree₂ p hp hkey
      have hread := get_of_put hmid hwrite hp (by rwa [hkey, hvalue])
        (by rw [hkey, hvalue]; exact hbefore.imp_left And.left)
      rwa [hkey, hvalue] at hread
    · have hne : ∀ p ∈ rs, p.key ≠ q.key := fun p hp hkey => hlast ⟨p, hp, hkey⟩
      rw [get_of_not_put hmid hwrite hne]
      refine hbefore.resolve_left fun hnone => ?_
      exact (List.mem_append.1 hq).elim (fun hq => hnone.2 q hq rfl) fun hq => hne q hq rfl

end SteadyStore

/-! ## In memory -/

instance : SteadyStore MemoryStore where
  Sound _ := True
  sound_write _ _ := trivial
  get_of_not_put {s t qs key} _ hw hne := by
    obtain rfl : s.putAll qs = t := Except.ok.inj hw
    exact congrArg Except.ok (MemoryStore.get?_putAll_of_ne hne)
  get_of_put {s t qs q} _ hw hq hagree _ := by
    obtain rfl : s.putAll qs = t := Except.ok.inj hw
    exact congrArg Except.ok (MemoryStore.get?_putAll (.inl ⟨q, hq, rfl⟩) hagree)

/-! ## In a file -/

namespace Index

variable {index : Index} {offset : Nat} {rs : List Record} {key : Bytes} {l : Location}

theorem location_addRecords (h : (index.addRecords offset rs)[key]? = some l) :
    index[key]? = some l ∨ l.offset + l.size ≤ offset + total (rs.map Record.size) := by
  induction rs generalizing index offset with
  | nil => exact .inl h
  | cons r rest ih =>
    rw [addRecords] at h
    rw [List.map_cons, total_cons]
    rcases ih h with h | h
    · rw [getElem?_insert] at h
      split at h
      · obtain rfl := Option.some.inj h
        right
        simp only [Record.location, Record.size]
        omega
      · exact .inl h
    · right
      omega

end Index

namespace RecordLog

variable {log after : RecordLog} {puts : List Put} {key : Bytes}

/-- A store file that ends with its last record, and in which every location of the
index lies. -/
structure Sound (log : RecordLog) : Prop where
  ended : log.file.length = log.endOffset
  within (key : Bytes) (l : Location) : log.index[key]? = some l → l.offset + l.size ≤ log.endOffset

theorem contains_iff_mem_keys : log.contains key = true ↔ key ∈ log.index.keys := by
  rw [contains, Std.ExtTreeMap.contains_iff_mem, Std.ExtTreeMap.mem_keys]

theorem contains_eq_false_iff : log.contains key = false ↔ key ∉ log.index.keys := by
  rw [Bool.eq_false_iff, ne_eq, contains_iff_mem_keys]

/-- What an append makes of a sound store file: its records stand behind all others, one
for the first put of each new key. -/
theorem Sound.append_eq [FrameCodec] (hs : log.Sound) (happend : log.append puts = .ok after) :
    ∃ rs, rs = (firstPuts log.index.keys puts).map Record.ofPut ∧
      after.file = log.file ++ rs.flatMap Record.encode ∧
      after.endOffset = log.endOffset + total (rs.map Record.size) ∧
      after.index = log.index.addRecords log.endOffset rs := by
  obtain ⟨hfile, hend, hindex, -⟩ := append_eq_ok hs.ended (fun _ => contains_iff_mem_keys) happend rfl
  exact ⟨_, rfl, hfile, hend, hindex⟩

theorem Sound.append [FrameCodec] (hs : log.Sound) (happend : log.append puts = .ok after) : after.Sound := by
  obtain ⟨rs, -, hfile, hend, hindex⟩ := hs.append_eq happend
  constructor
  · rw [hfile, hend, List.length_append, hs.ended, Record.length_flatMap_encode]
  · intro k l hl
    rw [hindex] at hl
    rw [hend]
    rcases Index.location_addRecords hl with hl | hl
    · have hle := hs.within k l hl
      omega
    · exact hl

theorem Sound.readAt_append (hs : log.Sound) {data : Bytes} (hfile : after.file = log.file ++ data) {l : Location}
    (hl : log.index[key]? = some l) : after.readAt l = log.readAt l := by
  have hle := hs.within key l hl
  rw [← hs.ended] at hle
  have hdrop : (log.file ++ data).drop l.offset = log.file.drop l.offset ++ data :=
    List.drop_append_of_le_length (by omega)
  rw [readAt, readAt, hfile, hdrop, List.take_append_of_le_length (by rw [List.length_drop]; omega)]

theorem Sound.get_append [FrameCodec] (hs : log.Sound) {data : Bytes} (hfile : after.file = log.file ++ data)
    (hindex : after.index[key]? = log.index[key]?) : after.get key = log.get key := by
  rw [RecordLog.get, RecordLog.get, hindex]
  cases hl : log.index[key]? with
  | none => rfl
  | some l =>
    dsimp only
    rw [hs.readAt_append hfile hl]

/-- A key that is put, but not as a new one, reads as before, and so does one that is
not put at all. -/
theorem Sound.get_of_not_new [FrameCodec] (hs : log.Sound) (happend : log.append puts = .ok after)
    (hne : ∀ q ∈ firstPuts log.index.keys puts, q.key ≠ key) : after.get key = log.get key := by
  obtain ⟨rs, hrs, hfile, -, hindex⟩ := hs.append_eq happend
  refine hs.get_append hfile ?_
  rw [hindex]
  refine Index.getElem?_addRecords_of_ne fun r hr heq => ?_
  obtain ⟨q, hq, rfl⟩ := List.mem_map.1 (hrs ▸ hr)
  exact hne q hq heq

theorem Sound.get_new [FrameCodec] (hs : log.Sound) (happend : log.append puts = .ok after) {q : Put}
    (hq : q ∈ firstPuts log.index.keys puts) : after.get q.key = .ok (some q.value) := by
  obtain ⟨rs, hrs, hfile, -, hindex⟩ := hs.append_eq happend
  have hnodup : (rs.map (·.key)).Nodup := by
    rw [hrs, List.map_map]
    exact (nodup_firstPuts log.index.keys puts).1
  rw [← hs.ended] at hindex
  exact get_of_addRecords hfile hindex hnodup (hrs ▸ List.mem_map.2 ⟨q, hq, rfl⟩) rfl

/-- A key in the index has a value, or cannot be read. -/
theorem get_ne_none [FrameCodec] (hkey : key ∈ log.index) : log.get key ≠ .ok none := by
  obtain ⟨l, hl⟩ := Option.isSome_iff_exists.1 (Std.ExtTreeMap.mem_iff_isSome_getElem?.1 hkey)
  intro hnone
  rw [RecordLog.get, hl] at hnone
  dsimp only at hnone
  split at hnone
  · cases hnone
  · split at hnone <;> cases hnone

instance [FrameCodec] : SteadyStore RecordLog where
  Sound := Sound
  sound_write hs hw := hs.append hw
  get_of_not_put hs hw hne := Sound.get_of_not_new hs hw fun q hq => hne q ((firstPuts_sublist _ _).subset hq)
  get_of_put {s t qs q} hs hw hq hagree hget := by
    rcases key_mem_firstPuts s.index.keys hq with hold | hnew
    · -- the key is in the index, so it has the value already
      have hstays : t.get q.key = s.get q.key := Sound.get_of_not_new hs hw fun p hp heq =>
        (nodup_firstPuts s.index.keys qs).2 q.key (List.mem_map.2 ⟨p, hp, heq⟩) hold
      exact hstays.trans (hget.resolve_left (RecordLog.get_ne_none (Std.ExtTreeMap.mem_keys.1 hold)))
    · obtain ⟨p, hp, hkey⟩ := List.mem_map.1 hnew
      have hread : t.get p.key = .ok (some p.value) := Sound.get_new hs hw hp
      rwa [hkey, hagree p ((firstPuts_sublist _ qs).subset hp) hkey] at hread

/-! ### How a store file comes about -/

/-- The store files that are in use: new ones, ones that were opened, and what batches
that were written make of them. -/
inductive InUse [FrameCodec] : RecordLog → Prop
  | create : InUse create
  | opened {file : Bytes} {log : RecordLog} (hopen : ofFile file = .ok log) : InUse log
  | append {log after : RecordLog} {puts : List Put} (before : InUse log) (happend : log.append puts = .ok after) :
      InUse after

/-- Opening cuts the file behind its last record, whatever it holds. -/
theorem sound_ofFile {file : Bytes} (hopen : ofFile file = .ok log) : log.Sound := by
  have hlength := le_length_of_ofFile hopen
  unfold ofFile at hopen
  split at hopen
  · cases hopen
  · obtain rfl := Except.ok.inj hopen
    have htotal := Record.total_ofBytes_le (file.drop headerSize)
    rw [List.length_drop] at htotal
    constructor
    · simp only [List.length_take]
      omega
    · intro k l hl
      refine (Index.location_addRecords hl).resolve_left fun hnone => ?_
      simp at hnone

/-- **Every store file in use is sound.** -/
theorem InUse.sound [FrameCodec] (h : log.InUse) : log.Sound := by
  induction h with
  | create => exact ⟨rfl, fun k l hl => by simp [RecordLog.create] at hl⟩
  | opened hopen => exact sound_ofFile hopen
  | append _ happend ih => exact ih.append happend

end RecordLog

/-! ## With failures -/

/-- Writes that fail change nothing; a store whose reads fail is not sound. -/
instance {σ : Type} [KeyValueStore σ] [SteadyStore σ] : SteadyStore (Faulty σ) where
  Sound s := s.failReads = false ∧ SteadyStore.Sound s.store
  sound_write {s t qs} hs hw := by
    obtain ⟨hreads, hstore⟩ := hs
    obtain ⟨store, hinner, rfl⟩ := Faulty.write_eq_ok hw
    exact ⟨hreads, SteadyStore.sound_write hstore hinner⟩
  get_of_not_put {s t qs key} hs hw hne := by
    obtain ⟨hreads, hstore⟩ := hs
    obtain ⟨store, hinner, rfl⟩ := Faulty.write_eq_ok hw
    simp only [KeyValueStore.get, hreads]
    exact SteadyStore.get_of_not_put hstore hinner hne
  get_of_put {s t qs q} hs hw hq hagree hget := by
    obtain ⟨hreads, hstore⟩ := hs
    obtain ⟨store, hinner, rfl⟩ := Faulty.write_eq_ok hw
    simp only [KeyValueStore.get, hreads] at hget ⊢
    exact SteadyStore.get_of_put hstore hinner hq hagree hget

end MerkleBuffer
