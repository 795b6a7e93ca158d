/-
A store file over its whole life.

A store file that only ever was created, written to and opened again holds the
records of the puts that were written, and nothing else (`LawfulStore.Holds`). Such a
file is found again as it is, whenever it is opened (`Holds.ofFile`), a batch can
be written if the records fit of those puts that are the first of their keys
(`Holds.append_ok_iff`), and there is one key in the index for each that was put
(`Holds.size`).
-/
import MerkleBuffer.Proofs.Store.Recovery
import MerkleBuffer.Proofs.Store.Regular
import Mathlib.Data.Finset.Card

namespace MerkleBuffer

section FirstPuts

variable {seen : List Bytes} {ps : List Put}

theorem firstPuts_of_nodup (hnodup : (ps.map (·.key)).Nodup) (hnew : ∀ p ∈ ps, p.key ∉ seen) :
    firstPuts seen ps = ps := by
  induction ps generalizing seen with
  | nil => rfl
  | cons p rest ih =>
    obtain ⟨hp, hrest⟩ := List.forall_mem_cons.1 hnew
    rw [List.map_cons, List.nodup_cons] at hnodup
    rw [firstPuts, if_neg hp, ih hnodup.2 fun q hq hmem => ?_]
    rcases List.mem_cons.1 hmem with heq | hmem
    · exact hnodup.1 (List.mem_map.2 ⟨q, hq, heq⟩)
    · exact hrest q hq hmem

end FirstPuts

namespace Index

variable {index : Index} {offset : Nat} {rs : List Record}

theorem size_addRecords (hnodup : (rs.map (·.key)).Nodup) (hnew : ∀ r ∈ rs, r.key ∉ index) :
    (index.addRecords offset rs).size = index.size + rs.length := by
  induction rs generalizing index offset with
  | nil => rfl
  | cons r rest ih =>
    obtain ⟨hr, hrest⟩ := List.forall_mem_cons.1 hnew
    rw [List.map_cons, List.nodup_cons] at hnodup
    have hnew' : ∀ x ∈ rest, x.key ∉ index.insert r.key (r.location offset) := by
      intro x hx hmem
      rw [Std.ExtTreeMap.mem_insert, Std.LawfulEqCmp.compare_eq_iff_eq] at hmem
      rcases hmem with heq | hmem
      · exact hnodup.1 (List.mem_map.2 ⟨x, hx, heq.symm⟩)
      · exact hrest x hx hmem
    have hcontains : ¬ index.contains r.key = true := mt Std.ExtTreeMap.contains_iff_mem.1 hr
    rw [addRecords, ih hnodup.2 hnew', Std.ExtTreeMap.size_insert, if_neg hcontains, List.length_cons]
    omega

end Index

namespace Record

theorem within_of_total_le {n : Nat} {rs : List Record} (h : total (rs.map size) ≤ n) : within n rs = rs := by
  induction rs generalizing n with
  | nil => rfl
  | cons r rest ih =>
    rw [List.map_cons, total_cons] at h
    rw [within, if_pos (by omega), ih (by omega)]

end Record

namespace RecordLog

variable {log after : RecordLog} {ps qs : List Put} {key : Bytes}

namespace Holds

variable [FrameCodec]

theorem get (h : LawfulStore.Holds log ps) (key : Bytes) : log.get key = .ok (valuesOf key ps).head? :=
  RegularStore.get_eq key h

theorem contains (h : LawfulStore.Holds log ps) : log.contains key = true ↔ key ∈ ps.map (·.key) := by
  rw [h.1, contains_ofRecords, mem_keys_recordsOf]

theorem size (h : LawfulStore.Holds log ps) : log.size = (ps.map (·.key)).toFinset.card := by
  have hkeys : (ps.map (·.key)).toFinset = ((recordsOf ps).map (·.key)).toFinset :=
    Finset.ext fun k => by rw [List.mem_toFinset, List.mem_toFinset, mem_keys_recordsOf]
  have hsize : (ofRecords (recordsOf ps)).size = 0 + (recordsOf ps).length :=
    Index.size_addRecords (nodup_recordsOf ps) (by simp)
  rw [hkeys, List.toFinset_card_of_nodup (nodup_recordsOf ps), List.length_map, h.1, hsize, Nat.zero_add]

theorem length_file (h : LawfulStore.Holds log ps) : log.file.length = log.endOffset := by
  rw [h.1, length_file_ofRecords]

/-- Opening finds the index and the end that appending has kept up to date. -/
theorem ofFile (h : LawfulStore.Holds log ps) : RecordLog.ofFile log.file = .ok log := by
  obtain ⟨rfl, hfits⟩ := h
  have hend : headerSize ≤ (ofRecords (recordsOf ps)).endOffset := Nat.le_add_right _ _
  have hopen := ofFile_take hfits (n := (ofRecords (recordsOf ps)).file.length)
    (by rwa [length_file_ofRecords])
  have htotal : total ((recordsOf ps).map Record.size) ≤ (ofRecords (recordsOf ps)).file.length - headerSize := by
    rw [length_file_ofRecords]
    exact Nat.le_of_eq (Nat.add_sub_cancel_left _ _).symm
  rwa [List.take_length, Record.within_of_total_le htotal] at hopen

/-- **A batch can be written if the records of its first puts fit**; a put whose key is
stored already, or stands further ahead in the batch, is left out and may be of any size. -/
theorem append_ok_iff (h : LawfulStore.Holds log ps) : (∃ after, log.append qs = .ok after) ↔
    ∀ q ∈ firstPuts (ps.map (·.key)) qs, (Record.ofPut q).Fits := by
  obtain ⟨rfl, -⟩ := h
  have hseen : firstPuts (ps.map (·.key)) qs = firstPuts ((recordsOf ps).map (·.key)) qs :=
    firstPuts_congr (fun k => mem_keys_recordsOf.symm) qs
  rw [hseen]
  constructor
  · rintro ⟨after, happend⟩ q hq
    exact (append_ofRecords happend).2 _ (List.mem_map.2 ⟨q, hq, rfl⟩)
  · exact append_ok

theorem append_create (h : LawfulStore.Holds log ps) : create.append ps = .ok log := by
  have hfits : ∀ p ∈ firstPuts [] ps, (Record.ofPut p).Fits := fun p hp => h.2 _ (List.mem_map.2 ⟨p, hp, rfl⟩)
  obtain ⟨after, happend⟩ := (append_ok_iff holds_create).2 hfits
  have hafter : LawfulStore.Holds after ([] ++ ps) := LawfulStore.holds_write holds_create happend
  rw [happend, hafter.1, h.1]
  rfl

theorem append_of_too_long (h : LawfulStore.Holds log ps) {q : Put} (hq : q ∈ qs)
    (hlong : Record.maxKeyLength < q.key.length) : ∃ e, log.append qs = .error e := by
  cases happend : log.append qs with
  | error e => exact ⟨e, rfl⟩
  | ok after =>
    have hafter : LawfulStore.Holds after (ps ++ qs) := LawfulStore.holds_write h happend
    have hkey : q.key ∈ (recordsOf (ps ++ qs)).map (·.key) :=
      mem_keys_recordsOf.2 (List.mem_map.2 ⟨q, List.mem_append_right _ hq, rfl⟩)
    obtain ⟨r, hr, heq⟩ := List.mem_map.1 hkey
    have hfit := (hafter.2 r hr).key
    rw [heq] at hfit
    omega

end Holds

end RecordLog

end MerkleBuffer
