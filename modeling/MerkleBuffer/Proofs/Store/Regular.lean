/-
Which value a store answers with, and what can be written to it.

A regular store looks at each key on its own. Of the values that were put under
the key it picks one, and putting that last value once more changes nothing. So
puts that agree leave the same store behind in whatever order they are written,
and however often (`get_congr`). Of a store in memory the last value counts, of a
store file the first.
-/
import MerkleBuffer.Proofs.Store.Lawful

namespace MerkleBuffer

/-- The values that some puts give to a key, in their order. -/
def valuesOf (key : Bytes) (ps : List Put) : List Bytes := (ps.filter (·.key = key)).map (·.value)

/-- No key is put with two different values. -/
def Agree (ps : List Put) : Prop := ∀ p ∈ ps, ∀ q ∈ ps, p.key = q.key → p = q

/-- A store in which each key is settled on its own. -/
class RegularStore (σ : Type) [KeyValueStore σ] [LawfulStore σ] where
  /-- Which of the values put under a key counts -/
  pick : List Bytes → Option Bytes
  pick_again (values : List Bytes) (value : Bytes) : pick (values ++ [value, value]) = pick (values ++ [value])
  get_eq {s : σ} {ps : List Put} (key : Bytes) : LawfulStore.Holds s ps →
    KeyValueStore.get s key = .ok (pick (valuesOf key ps))
  /-- Whether a put can be written where its key is not stored yet -/
  Fits : Put → Prop
  exists_fits {s : σ} {ps : List Put} {p : Put} : LawfulStore.Holds s ps → p ∈ ps → ∃ q ∈ ps, q.key = p.key ∧ Fits q
  accepts (s : σ) : KeyValueStore.accept s = .ok ()
  write_ok {s : σ} {ps qs : List Put} : LawfulStore.Holds s ps →
    (∀ q ∈ qs, Fits q ∨ ∃ p ∈ ps, p.key = q.key) → ∃ t, KeyValueStore.write s qs = .ok t

section Values

variable {key : Bytes} {ps qs : List Put} {p : Put}

theorem valuesOf_append (key : Bytes) (ps qs : List Put) :
    valuesOf key (ps ++ qs) = valuesOf key ps ++ valuesOf key qs := by
  rw [valuesOf, List.filter_append, List.map_append]
  rfl

theorem valuesOf_cons (key : Bytes) (p : Put) (ps : List Put) :
    valuesOf key (p :: ps) = if p.key = key then p.value :: valuesOf key ps else valuesOf key ps := by
  by_cases hp : p.key = key <;> simp [valuesOf, hp]

theorem mem_valuesOf {value : Bytes} : value ∈ valuesOf key ps ↔ ∃ p ∈ ps, p.key = key ∧ p.value = value := by
  simp [valuesOf, and_assoc]

theorem valuesOf_eq_nil : valuesOf key ps = [] ↔ ∀ p ∈ ps, p.key ≠ key := by
  simp [valuesOf]

theorem Agree.value_eq (ha : Agree ps) (hp : p ∈ ps) : ∀ value ∈ valuesOf p.key ps, value = p.value := by
  intro value hv
  obtain ⟨q, hq, hkey, rfl⟩ := mem_valuesOf.1 hv
  rw [ha q hq p hp hkey]

theorem Agree.mono (ha : Agree ps) (hsub : ∀ p ∈ qs, p ∈ ps) : Agree qs := fun p hp q hq =>
  ha p (hsub p hp) q (hsub q hq)

end Values

namespace RegularStore

variable {σ : Type} [KeyValueStore σ] [LawfulStore σ] [RegularStore σ] {s t u : σ} {ps qs rs : List Put}

theorem pick_append (values : List Bytes) {same : List Bytes} {value : Bytes} (hne : same ≠ [])
    (hsame : ∀ v ∈ same, v = value) : pick σ (values ++ same) = pick σ (values ++ [value]) := by
  induction same generalizing values with
  | nil => exact absurd rfl hne
  | cons v rest ih =>
    obtain ⟨rfl, hrest⟩ := List.forall_mem_cons.1 hsame
    by_cases hnil : rest = []
    · rw [hnil]
    · have hmore := ih (values ++ [v]) hnil hrest
      rw [List.append_assoc, List.append_assoc] at hmore
      exact hmore.trans (pick_again values v)

/-- **Puts that agree settle a store whatever their order**, and whether they are
repeated or not. -/
theorem get_congr (hs : LawfulStore.Holds s ps) (hqs : Wrote s qs t) (hrs : Wrote s rs u)
    (hmem : ∀ p, p ∈ qs ↔ p ∈ rs) (ha : Agree qs) (key : Bytes) :
    KeyValueStore.get t key = KeyValueStore.get u key := by
  rw [get_eq key (hqs.holds hs), get_eq key (hrs.holds hs), valuesOf_append, valuesOf_append]
  have ha' : Agree rs := ha.mono fun p hp => (hmem p).2 hp
  by_cases hput : ∃ p ∈ qs, p.key = key
  · obtain ⟨p, hp, rfl⟩ := hput
    have hnil : ∀ {l : List Put}, p ∈ l → valuesOf p.key l ≠ [] := fun hl hnil => valuesOf_eq_nil.1 hnil p hl rfl
    rw [pick_append _ (hnil hp) (ha.value_eq hp), pick_append _ (hnil ((hmem p).1 hp)) (ha'.value_eq ((hmem p).1 hp))]
  · have hnone : ∀ {l : List Put}, (∀ p, p ∈ l → p ∈ qs) → valuesOf key l = [] := fun hl =>
      valuesOf_eq_nil.2 fun p hp hkey => hput ⟨p, hl p hp, hkey⟩
    rw [hnone fun _ hp => hp, hnone fun p hp => (hmem p).2 hp]

end RegularStore

/-! ## In memory -/

namespace MemoryStore

theorem get?_putAll_eq (s : MemoryStore) (ps : List Put) (key : Bytes) :
    (s.putAll ps).get? key = (valuesOf key ps).getLast?.or (s.get? key) := by
  induction ps generalizing s with
  | nil => rfl
  | cons p rest ih =>
    have hrest : (s.putAll (p :: rest)).get? key = ((s.put p).putAll rest).get? key := rfl
    rw [hrest, ih, get?_put, valuesOf_cons]
    split
    · cases valuesOf key rest with
      | nil => rfl
      | cons v vs => rw [List.getLast?_cons_cons, List.getLast?_eq_some_getLast (List.cons_ne_nil v vs)]; rfl
    · rfl

instance : RegularStore MemoryStore where
  pick := List.getLast?
  pick_again values value := by simp
  get_eq {s ps} key hs := by
    have hnone : empty.get? key = none := by simp [get?, empty]
    have hget : s.get? key = (valuesOf key ps).getLast? := by
      rw [hs, get?_putAll_eq, hnone, Option.or_none]
    exact congrArg Except.ok hget
  Fits _ := True
  exists_fits _ hp := ⟨_, hp, rfl, trivial⟩
  accepts _ := rfl
  write_ok _ _ := ⟨_, rfl⟩

end MemoryStore

/-! ## In a file -/

namespace RecordLog

variable {ps : List Put} {key : Bytes}

theorem stage_ok [FrameCodec] {index : Index} {seen : List Bytes} (offset : Nat)
    (hseen : ∀ k, index.contains k = true ↔ k ∈ seen) (hfits : ∀ p ∈ firstPuts seen ps, (Record.ofPut p).Fits) :
    ∃ r, stage index offset ps = .ok r := by
  induction ps generalizing index offset seen with
  | nil => exact ⟨_, rfl⟩
  | cons p rest ih =>
    rw [firstPuts] at hfits
    rw [stage]
    by_cases hp : p.key ∈ seen
    · rw [if_pos hp] at hfits
      rw [if_pos ((hseen p.key).2 hp)]
      exact ih offset hseen hfits
    · rw [if_neg hp] at hfits
      rw [if_neg (mt (hseen p.key).1 hp)]
      obtain ⟨⟨hkey, hframe⟩, hrest⟩ := List.forall_mem_cons.1 hfits
      have hkey' : ¬ Record.maxKeyLength < p.key.length := Nat.not_lt.2 hkey
      obtain ⟨r, hr⟩ := ih (offset + (Record.ofPut p).size)
        (Index.contains_insert_iff hseen (Record.ofPut p).key ((Record.ofPut p).location offset)) hrest
      simp only [hkey', Nat.not_lt.2 hframe, if_false, hr]
      exact ⟨_, rfl⟩

theorem append_ok [FrameCodec] {rs : List Record} (hfits : ∀ p ∈ firstPuts (rs.map (·.key)) ps, (Record.ofPut p).Fits) :
    ∃ after, (ofRecords rs).append ps = .ok after := by
  obtain ⟨r, hr⟩ := stage_ok (ofRecords rs).endOffset (fun _ => contains_ofRecords) hfits
  exact ⟨_, by rw [append, hr]⟩

/-- The value that is put first under a key comes first among all its values. -/
theorem head?_valuesOf {seen : List Bytes} {q : Put} (hq : q ∈ firstPuts seen ps) :
    (valuesOf q.key ps).head? = some q.value := by
  induction ps generalizing seen with
  | nil => cases hq
  | cons p rest ih =>
    rw [valuesOf_cons]
    have hskip : ∀ seen', p.key ∈ seen' → q ∈ firstPuts seen' rest →
        (if p.key = q.key then p.value :: valuesOf q.key rest else valuesOf q.key rest).head? = some q.value := by
      intro seen' hseen hq
      have hne : p.key ≠ q.key := fun heq =>
        (nodup_firstPuts seen' rest).2 q.key (List.mem_map.2 ⟨q, hq, rfl⟩) (heq ▸ hseen)
      rw [if_neg hne]
      exact ih hq
    rw [firstPuts] at hq
    split at hq
    · next hseen => exact hskip seen hseen hq
    · rcases List.mem_cons.1 hq with rfl | hq
      · rw [if_pos rfl]
        rfl
      · exact hskip _ List.mem_cons_self hq

/-- A store file answers with the first value of a key. -/
theorem get_recordsOf [FrameCodec] (ps : List Put) (key : Bytes) :
    (ofRecords (recordsOf ps)).get key = .ok (valuesOf key ps).head? := by
  by_cases hput : key ∈ (recordsOf ps).map (·.key)
  · obtain ⟨r, hr, rfl⟩ := List.mem_map.1 hput
    obtain ⟨q, hq, rfl⟩ := List.mem_map.1 hr
    have hhead : (valuesOf (Record.ofPut q).key ps).head? = some q.value := head?_valuesOf hq
    rw [hhead]
    exact get_ofRecords (nodup_recordsOf ps) hr rfl
  · have hnone : valuesOf key ps = [] := valuesOf_eq_nil.2 fun p hp heq =>
      hput (mem_keys_recordsOf.2 (List.mem_map.2 ⟨p, hp, heq⟩))
    rw [hnone]
    exact get_ofRecords_of_not_mem hput

instance [FrameCodec] : RegularStore RecordLog where
  pick := List.head?
  pick_again values value := by cases values <;> rfl
  get_eq {s ps} key hs := by
    rw [hs.1]
    exact get_recordsOf ps key
  Fits p := (Record.ofPut p).Fits
  exists_fits {s ps p} hs hp := by
    obtain ⟨r, hr, hkey⟩ := List.mem_map.1 (mem_keys_recordsOf.2 (List.mem_map.2 ⟨p, hp, rfl⟩))
    obtain ⟨q, hq, rfl⟩ := List.mem_map.1 hr
    exact ⟨q, (firstPuts_sublist [] ps).subset hq, hkey, hs.2 _ hr⟩
  accepts _ := rfl
  write_ok {s ps qs} hs hqs := by
    obtain ⟨rfl, -⟩ := hs
    refine append_ok fun q hq => ?_
    refine (hqs q ((firstPuts_sublist _ qs).subset hq)).resolve_right fun ⟨p, hp, hkey⟩ => ?_
    have hstored : q.key ∈ (recordsOf ps).map (·.key) := mem_keys_recordsOf.2 (List.mem_map.2 ⟨p, hp, hkey⟩)
    exact (nodup_firstPuts _ qs).2 q.key (List.mem_map.2 ⟨q, hq, rfl⟩) hstored

end RecordLog

/-! ## With failures -/

namespace Faulty

variable {σ : Type} [KeyValueStore σ] {s t : Faulty σ} {ps : List Put}

/-- What was written to a store that can fail was written to the store behind it,
and stands in the journal. -/
theorem wrote_store (hw : Wrote s ps t) : Wrote s.store ps t.store ∧ t.failPuts = s.failPuts ∧
    ∃ batches, t.journal = s.journal ++ batches ∧ batches.flatten = ps := by
  induction hw with
  | nothing => exact ⟨.nothing, rfl, [], by simp, rfl⟩
  | @batch ps qs t u _ hwrite ih =>
    obtain ⟨hstore, hputs, batches, hjournal, hflatten⟩ := ih
    obtain ⟨store, hinner, rfl⟩ := write_eq_ok hwrite
    refine ⟨hstore.batch hinner, hputs, ?_⟩
    by_cases hempty : qs = []
    · exact ⟨batches, by simp [hempty, hjournal], by simp [hempty, hflatten]⟩
    · exact ⟨batches ++ [qs], by simp [hempty, hjournal], by simp [hflatten]⟩

end Faulty

end MerkleBuffer
