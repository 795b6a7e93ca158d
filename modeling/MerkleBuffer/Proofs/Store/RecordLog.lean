/-
A store file as the list of its records.

`RecordLog.ofRecords rs` is the open store file that holds `rs` and nothing else.
A key reads as the value in its record (`get_ofRecords`), and appending puts adds
a record for each put that is the first of its key (`append_ofRecords`), in the
order of the puts.
-/
import MerkleBuffer.Store.RecordLog
import Mathlib.Tactic.Tauto

namespace MerkleBuffer

/-! ## The first put of each key -/

/-- The puts whose keys are not in `seen` and were not put before. -/
def firstPuts (seen : List Bytes) : List Put → List Put
  | [] => []
  | p :: rest => if p.key ∈ seen then firstPuts seen rest else p :: firstPuts (p.key :: seen) rest

section FirstPuts

variable {seen seen' : List Bytes} {ps : List Put} {p : Put}

theorem firstPuts_congr (hseen : ∀ k, k ∈ seen ↔ k ∈ seen') (ps : List Put) :
    firstPuts seen ps = firstPuts seen' ps := by
  induction ps generalizing seen seen' with
  | nil => rfl
  | cons p rest ih =>
    have hcons : ∀ k, k ∈ p.key :: seen ↔ k ∈ p.key :: seen' := fun k => by simp [hseen]
    simp only [firstPuts, hseen, ih hseen, ih hcons]

theorem firstPuts_append (seen : List Bytes) (ps qs : List Put) :
    firstPuts seen (ps ++ qs) = firstPuts seen ps ++ firstPuts (ps.map (·.key) ++ seen) qs := by
  induction ps generalizing seen with
  | nil => rfl
  | cons p rest ih =>
    simp only [List.cons_append, firstPuts, List.map_cons]
    split
    · next hp =>
      rw [ih]
      congr 1
      refine firstPuts_congr (fun k => ?_) qs
      have hk : k = p.key → k ∈ seen := fun heq => heq ▸ hp
      simp only [List.mem_append, List.mem_cons]
      tauto
    · rw [ih, List.cons_append]
      congr 2
      refine firstPuts_congr (fun k => ?_) qs
      simp only [List.mem_append, List.mem_cons]
      tauto

theorem firstPuts_sublist (seen : List Bytes) (ps : List Put) : (firstPuts seen ps).Sublist ps := by
  induction ps generalizing seen with
  | nil => exact .slnil
  | cons p rest ih =>
    rw [firstPuts]
    split
    · exact (ih seen).cons p
    · exact (ih _).cons_cons p

/-- A key is put first at most once, and not if it was seen before. -/
theorem nodup_firstPuts (seen : List Bytes) (ps : List Put) :
    ((firstPuts seen ps).map (·.key)).Nodup ∧ ∀ k ∈ (firstPuts seen ps).map (·.key), k ∉ seen := by
  induction ps generalizing seen with
  | nil => simp [firstPuts]
  | cons p rest ih =>
    rw [firstPuts]
    split
    · exact ih seen
    · next hp =>
      obtain ⟨hnodup, hnot⟩ := ih (p.key :: seen)
      refine ⟨List.nodup_cons.2 ⟨fun hm => hnot _ hm List.mem_cons_self, hnodup⟩, ?_⟩
      exact List.forall_mem_cons.2 ⟨hp, fun k hk hm => hnot k hk (List.mem_cons_of_mem _ hm)⟩

theorem key_mem_firstPuts (seen : List Bytes) (hp : p ∈ ps) :
    p.key ∈ seen ∨ p.key ∈ (firstPuts seen ps).map (·.key) := by
  induction ps generalizing seen with
  | nil => cases hp
  | cons q rest ih =>
    rw [firstPuts]
    split
    · next hq =>
      rcases List.mem_cons.1 hp with rfl | hp
      · exact .inl hq
      · exact ih seen hp
    · rw [List.map_cons]
      rcases List.mem_cons.1 hp with rfl | hp
      · exact .inr List.mem_cons_self
      · rcases ih (q.key :: seen) hp with hs | hf
        · exact (List.mem_cons.1 hs).elim (fun heq => .inr (heq ▸ List.mem_cons_self)) .inl
        · exact .inr (List.mem_cons_of_mem _ hf)

theorem mem_keys_firstPuts {k : Bytes} : k ∈ (firstPuts seen ps).map (·.key) ↔ k ∉ seen ∧ k ∈ ps.map (·.key) := by
  constructor
  · exact fun hk => ⟨(nodup_firstPuts seen ps).2 k hk, ((firstPuts_sublist seen ps).map _).subset hk⟩
  · rintro ⟨hseen, hk⟩
    obtain ⟨p, hp, rfl⟩ := List.mem_map.1 hk
    exact (key_mem_firstPuts seen hp).resolve_left hseen

end FirstPuts

/-! ## Records and the index -/

namespace Record

/-- A record whose lengths can be written in its head. -/
structure Fits (r : Record) : Prop where
  key : r.key.length ≤ maxKeyLength
  frame : r.frame.length ≤ maxFrameLength

/-- With a codec whose frames are little longer than their values, a put fits that is not too long itself. -/
theorem fits_ofPut [FrameCodec] [FrameCodec.Bounded] {p : Put} (hkey : p.key.length ≤ maxKeyLength)
    (hvalue : p.value.length + p.value.length / 256 + 64 ≤ maxFrameLength) : (ofPut p).Fits :=
  ⟨hkey, Nat.le_trans (FrameCodec.Bounded.length_encode_le p.value) hvalue⟩

@[simp] theorem length_encode (r : Record) : r.encode.length = r.size := by
  simp only [encode, size, headSize, List.length_append, LittleEndian.length_encode]

/-- What reading the record gives. -/
def value [FrameCodec] (r : Record) : Except Error (Option Bytes) :=
  match FrameCodec.decode r.frame with
  | .ok value => .ok (some value)
  | .error fault => .error (.io fault)

theorem value_of_frame [FrameCodec] {r : Record} {v : Bytes} (hframe : r.frame = FrameCodec.encode v) :
    r.value = .ok (some v) := by
  rw [value, hframe, FrameCodec.decode_encode]

theorem length_flatMap_encode (rs : List Record) : (rs.flatMap encode).length = total (rs.map size) := by
  induction rs with
  | nil => rfl
  | cons r rest ih => rw [List.flatMap_cons, List.length_append, length_encode, ih, List.map_cons, total_cons]

end Record

namespace Index

variable {index : Index} {offset : Nat} {r : Record} {rs xs ys : List Record} {key : Bytes}

theorem getElem?_insert (index : Index) (key k : Bytes) (l : Location) :
    (index.insert key l)[k]? = if key = k then some l else index[k]? := by
  rw [Std.ExtTreeMap.getElem?_insert]
  simp only [Std.LawfulEqCmp.compare_eq_iff_eq]

theorem addRecords_append (index : Index) (offset : Nat) (xs ys : List Record) :
    index.addRecords offset (xs ++ ys) =
      (index.addRecords offset xs).addRecords (offset + total (xs.map Record.size)) ys := by
  induction xs generalizing index offset with
  | nil => rfl
  | cons r rest ih =>
    rw [List.cons_append, addRecords, addRecords, ih, List.map_cons, total_cons, Nat.add_assoc]

theorem getElem?_addRecords_of_ne (hne : ∀ r ∈ rs, r.key ≠ key) :
    (index.addRecords offset rs)[key]? = index[key]? := by
  induction rs generalizing index offset with
  | nil => rfl
  | cons r rest ih =>
    rw [addRecords, ih fun x hx => hne x (List.mem_cons_of_mem _ hx), getElem?_insert,
      if_neg (hne r List.mem_cons_self)]

theorem getElem?_addRecords (hys : ∀ x ∈ ys, x.key ≠ r.key) :
    (index.addRecords offset (xs ++ r :: ys))[r.key]? =
      some (r.location (offset + total (xs.map Record.size))) := by
  rw [addRecords_append, addRecords, getElem?_addRecords_of_ne hys, getElem?_insert, if_pos rfl]

theorem contains_addRecords : (index.addRecords offset rs).contains key = true ↔
    index.contains key = true ∨ key ∈ rs.map (·.key) := by
  induction rs generalizing index offset with
  | nil => simp [addRecords]
  | cons r rest ih =>
    rw [addRecords, ih, Std.ExtTreeMap.contains_insert, Bool.or_eq_true, beq_iff_eq,
      Std.LawfulEqCmp.compare_eq_iff_eq,
      List.map_cons, List.mem_cons]
    tauto

theorem contains_insert_iff {seen : List Bytes} (hseen : ∀ k, index.contains k = true ↔ k ∈ seen) (key : Bytes)
    (l : Location) (k : Bytes) : (index.insert key l).contains k = true ↔ k ∈ key :: seen := by
  rw [Std.ExtTreeMap.contains_insert, Bool.or_eq_true, beq_iff_eq, Std.LawfulEqCmp.compare_eq_iff_eq, hseen,
    List.mem_cons, eq_comm]

end Index

/-! ## Files of records -/

namespace RecordLog

variable {rs : List Record} {r : Record} {key value : Bytes} {log after : RecordLog}

/-- The open store file that holds some records and nothing else. -/
def ofRecords (rs : List Record) : RecordLog where
  file := header ++ rs.flatMap Record.encode
  endOffset := headerSize + total (rs.map Record.size)
  index := Index.addRecords ∅ headerSize rs

theorem ofRecords_nil : ofRecords [] = create := rfl

/-- More records make a longer file with the same start. -/
theorem file_ofRecords_initial (xs ys : List Record) : (ofRecords xs).file <+: (ofRecords (xs ++ ys)).file :=
  ⟨ys.flatMap Record.encode, by simp only [ofRecords, List.flatMap_append, List.append_assoc]⟩

theorem contains_ofRecords : (ofRecords rs).contains key = true ↔ key ∈ rs.map (·.key) := by
  rw [contains, ofRecords, Index.contains_addRecords]
  simp

theorem get_ofRecords_of_not_mem [FrameCodec] (hkey : key ∉ rs.map (·.key)) : (ofRecords rs).get key = .ok none := by
  have hne : ∀ r ∈ rs, r.key ≠ key := fun r hr heq => hkey (List.mem_map.2 ⟨r, hr, heq⟩)
  have hnone : (ofRecords rs).index[key]? = none := by
    rw [ofRecords, Index.getElem?_addRecords_of_ne hne]
    simp
  rw [get, hnone]

theorem readAt_location {before after : Bytes} (hfile : log.file = before ++ (r.encode ++ after)) :
    log.readAt (r.location before.length) = .ok r.frame := by
  have hsplit : log.file = (before ++ (LittleEndian.encode 2 r.key.length ++ LittleEndian.encode 4 r.frame.length ++
      r.key)) ++ (r.frame ++ after) := by
    rw [hfile, Record.encode]
    simp
  have hoffset : (r.location before.length).offset =
      (before ++ (LittleEndian.encode 2 r.key.length ++ LittleEndian.encode 4 r.frame.length ++ r.key)).length := by
    simp only [Record.location, Record.headSize, List.length_append, LittleEndian.length_encode]
    omega
  rw [readAt, hsplit, hoffset, List.drop_left]
  have htake : (r.frame ++ after).take r.frame.length = r.frame := List.take_left
  simp only [Record.location, htake, if_true]

/-- Of the records at the end of a file the last one of a key is read. -/
theorem get_of_last [FrameCodec] {before : Bytes} {index : Index} {xs ys : List Record}
    (hfile : log.file = before ++ (xs ++ r :: ys).flatMap Record.encode)
    (hindex : log.index = index.addRecords before.length (xs ++ r :: ys)) (hys : r.key ∉ ys.map (·.key)) :
    log.get r.key = r.value := by
  have hne : ∀ x ∈ ys, x.key ≠ r.key := fun x hx heq => hys (List.mem_map.2 ⟨x, hx, heq⟩)
  have hplace : log.index[r.key]? = some (r.location (before ++ xs.flatMap Record.encode).length) := by
    rw [hindex, List.length_append, Record.length_flatMap_encode]
    exact Index.getElem?_addRecords hne
  have hsplit : log.file = (before ++ xs.flatMap Record.encode) ++ (r.encode ++ ys.flatMap Record.encode) := by
    rw [hfile]
    simp
  have hread := readAt_location hsplit
  rw [get, hplace]
  simp only [hread]
  rfl

/-- **A record reads back** from the end of a file, if no other that was entered with
it has its key. -/
theorem get_of_addRecords [FrameCodec] {before : Bytes} {index : Index}
    (hfile : log.file = before ++ rs.flatMap Record.encode) (hindex : log.index = index.addRecords before.length rs)
    (hnodup : (rs.map (·.key)).Nodup) (hr : r ∈ rs) (hframe : r.frame = FrameCodec.encode value) :
    log.get r.key = .ok (some value) := by
  obtain ⟨xs, ys, rfl⟩ := List.append_of_mem hr
  have hys : r.key ∉ ys.map (·.key) := by
    rw [List.map_append, List.map_cons] at hnodup
    exact (List.nodup_cons.1 (List.nodup_append.1 hnodup).2.1).1
  rw [get_of_last hfile hindex hys, Record.value_of_frame hframe]

theorem get_ofRecords [FrameCodec] (hnodup : (rs.map (·.key)).Nodup) (hr : r ∈ rs)
    (hframe : r.frame = FrameCodec.encode value) : (ofRecords rs).get r.key = .ok (some value) := by
  have hfile : (ofRecords rs).file = header ++ rs.flatMap Record.encode := rfl
  exact get_of_addRecords hfile rfl hnodup hr hframe

theorem length_file_ofRecords (rs : List Record) : (ofRecords rs).file.length = (ofRecords rs).endOffset := by
  simp only [ofRecords, List.length_append, length_header, Record.length_flatMap_encode]

/-! ## Appending -/

variable [FrameCodec]

/-- Puts become records in their order, those left out whose keys are stored. -/
theorem stage_eq_ok {index index' : Index} {offset : Nat} {ps : List Put} {seen : List Bytes}
    (hseen : ∀ k, index.contains k = true ↔ k ∈ seen) (hs : stage index offset ps = .ok (index', rs)) :
    rs = (firstPuts seen ps).map Record.ofPut ∧ (∀ r ∈ rs, r.Fits) ∧ index' = index.addRecords offset rs := by
  induction ps generalizing index offset seen rs with
  | nil =>
    obtain ⟨rfl, rfl⟩ := Prod.mk.inj (Except.ok.inj hs)
    exact ⟨rfl, by simp, rfl⟩
  | cons p rest ih =>
    rw [stage] at hs
    rw [firstPuts]
    split at hs
    · next hp =>
      rw [if_pos ((hseen _).1 hp)]
      exact ih hseen hs
    next hp =>
    rw [if_neg fun hm => hp ((hseen _).2 hm)]
    split at hs
    · cases hs
    next hkey =>
    dsimp only at hs
    split at hs
    · cases hs
    next hframe =>
    split at hs
    · cases hs
    next hrest =>
    obtain ⟨rfl, rfl⟩ := Prod.mk.inj (Except.ok.inj hs)
    obtain ⟨heq, hfits, hindex⟩ := ih (Index.contains_insert_iff hseen p.key _) hrest
    have hfit : (Record.ofPut p).Fits := ⟨Nat.not_lt.1 hkey, Nat.not_lt.1 hframe⟩
    exact ⟨by rw [heq, List.map_cons], List.forall_mem_cons.2 ⟨hfit, hfits⟩, hindex⟩

/-- **Appending adds the first puts of new keys**, behind all records that there
are. -/
theorem append_eq_ok {seen : List Bytes} {ps : List Put} (hend : log.file.length = log.endOffset)
    (hseen : ∀ k, log.contains k = true ↔ k ∈ seen) (ha : log.append ps = .ok after)
    (hrs : rs = (firstPuts seen ps).map Record.ofPut) :
    after.file = log.file ++ rs.flatMap Record.encode ∧
      after.endOffset = log.endOffset + total (rs.map Record.size) ∧
      after.index = log.index.addRecords log.endOffset rs ∧ ∀ r ∈ rs, r.Fits := by
  unfold append at ha
  split at ha
  · cases ha
  · next index records hs =>
    obtain ⟨rfl, hfits, rfl⟩ := stage_eq_ok hseen hs
    obtain rfl := Except.ok.inj ha
    subst hrs
    refine ⟨?_, by simp only [Record.length_flatMap_encode], rfl, hfits⟩
    simp only [← hend, overwrite_length]

theorem append_ofRecords {ps : List Put} (ha : (ofRecords rs).append ps = .ok log) :
    log = ofRecords (rs ++ (firstPuts (rs.map (·.key)) ps).map Record.ofPut) ∧
      ∀ r ∈ (firstPuts (rs.map (·.key)) ps).map Record.ofPut, r.Fits := by
  obtain ⟨hfile, hend, hindex, hfits⟩ :=
    append_eq_ok (length_file_ofRecords rs) (fun _ => contains_ofRecords) ha rfl
  obtain ⟨file, endOffset, index⟩ := log
  obtain rfl := hfile
  obtain rfl := hend
  obtain rfl := hindex
  refine ⟨?_, hfits⟩
  simp only [ofRecords, List.flatMap_append, List.append_assoc, List.map_append, total_append, Nat.add_assoc,
    Index.addRecords_append]

end RecordLog

end MerkleBuffer
