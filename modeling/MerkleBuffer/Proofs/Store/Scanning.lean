/-
Opening a store file with more behind its records.

A scan reads whole records whatever comes behind them (`Record.ofBytes_append`), and goes
on with that, so it finds the longest chain of records at the front of any bytes
(`Record.longestChain_ofBytes`). Every store file in use is a head and whole records
(`InUse.ofHead`), so if it is opened with some more bytes at its end, what it held is found
again, and behind it the records that these bytes begin with (`InUse.ofFile_append`).
-/
import MerkleBuffer.Proofs.Store.Steady

namespace MerkleBuffer

namespace Record

variable {r : Record} {rs : List Record} {input rest : Bytes}

theorem size_pos (r : Record) : 0 < r.size := by
  rw [size, headSize]
  omega

theorem encode_ne_nil (r : Record) : r.encode ≠ [] := by
  intro hnil
  have hlength := r.length_encode
  rw [hnil, List.length_nil] at hlength
  exact Nat.ne_of_lt r.size_pos hlength

theorem fits_of_read (h : read input = .ok (r, rest)) : r.Fits := by
  obtain ⟨keyLength, afterKeyLength, hkeyLength, h⟩ := Reader.bind_eq_ok h
  obtain ⟨frameLength, afterFrameLength, hframeLength, h⟩ := Reader.bind_eq_ok h
  obtain ⟨key, afterKey, hkey, h⟩ := Reader.bind_eq_ok h
  obtain ⟨frame, afterFrame, hframe, h⟩ := Reader.bind_eq_ok h
  obtain ⟨rfl, rfl⟩ := Prod.mk.inj (Except.ok.inj h)
  obtain ⟨rfl, -⟩ := Reader.exact_eq_ok hframe
  obtain ⟨rfl, -⟩ := Reader.exact_eq_ok hkey
  exact ⟨Nat.le_of_lt_succ (Reader.number_lt hkeyLength), Nat.le_of_lt_succ (Reader.number_lt hframeLength)⟩

theorem fits_of_readAll {fuel : Nat} : ∀ r ∈ readAll fuel input, r.Fits := by
  induction fuel generalizing input with
  | zero => exact List.forall_mem_nil _
  | succ fuel ih =>
    rw [readAll]
    split
    · next hread => exact List.forall_mem_cons.2 ⟨fits_of_read hread, ih⟩
    · exact List.forall_mem_nil _

/-- All fuel that is enough gives the same records. -/
theorem readAll_congr {fuel fuel' : Nat} (h : input.length ≤ fuel) (h' : input.length ≤ fuel') :
    readAll fuel input = readAll fuel' input := by
  have hnil : ∀ n, readAll n [] = [] := fun n => by cases n <;> rfl
  induction fuel generalizing input fuel' with
  | zero =>
    obtain rfl := List.eq_nil_of_length_eq_zero (Nat.le_zero.1 h)
    rw [hnil, hnil]
  | succ fuel ih =>
    cases fuel' with
    | zero =>
      obtain rfl := List.eq_nil_of_length_eq_zero (Nat.le_zero.1 h')
      rw [hnil, hnil]
    | succ fuel' =>
      rw [readAll, readAll]
      split
      · next r rest hread =>
        have hlength : input.length = r.size + rest.length := by
          rw [read_eq_ok hread, List.length_append, length_encode]
        have hpos := r.size_pos
        have hsame : readAll fuel rest = readAll fuel' rest := ih (by omega) (by omega)
        rw [hsame]
      · rfl

theorem ofBytes_encode_append (hfit : r.Fits) (rest : Bytes) : ofBytes (r.encode ++ rest) = r :: ofBytes rest := by
  have hpos := r.size_pos
  have hlength : (r.encode ++ rest).length = r.size + rest.length := by rw [List.length_append, length_encode]
  obtain ⟨fuel, hfuel⟩ : ∃ fuel, (r.encode ++ rest).length = fuel + 1 := Nat.exists_eq_succ_of_ne_zero (by omega)
  have hread : read.run (r.encode ++ rest) = _ := read_encode hfit rest
  have hrest : readAll fuel rest = ofBytes rest := readAll_congr (by omega) (Nat.le_refl _)
  rw [ofBytes, hfuel, readAll, hread]
  simp only [hrest]

theorem ofBytes_append (hfits : ∀ r ∈ rs, r.Fits) (rest : Bytes) :
    ofBytes (rs.flatMap encode ++ rest) = rs ++ ofBytes rest := by
  induction rs with
  | nil => rfl
  | cons r rs ih =>
    obtain ⟨hfit, hfits⟩ := List.forall_mem_cons.1 hfits
    rw [List.flatMap_cons, List.append_assoc, ofBytes_encode_append hfit, ih hfits, List.cons_append]

/-- Records that stand one behind the other at the front of the input. -/
structure Chain (rs : List Record) (input : Bytes) : Prop where
  fits : ∀ r ∈ rs, r.Fits
  stands : rs.flatMap encode <+: input

/-- A chain that all other chains at the front of the input are first parts of. -/
structure LongestChain (rs : List Record) (input : Bytes) : Prop extends Chain rs input where
  longest (others : List Record) : Chain others input → others <+: rs

/-- **A scan finds the longest chain**, whatever the input is. -/
theorem longestChain_ofBytes (input : Bytes) : LongestChain (ofBytes input) input where
  fits := fits_of_readAll
  stands := readAll_initial _ _
  longest others hothers := by
    obtain ⟨rest, rfl⟩ := hothers.stands
    rw [ofBytes_append hothers.fits]
    exact List.prefix_append _ _

/-- Of the first part of some records, the whole ones are read. -/
theorem ofBytes_initial (hfits : ∀ r ∈ rs, r.Fits) (hinput : input <+: rs.flatMap encode) : ofBytes input <+: rs := by
  rw [List.prefix_iff_eq_take.1 hinput, ofBytes, readAll_take hfits (Nat.le_refl _)]
  exact within_initial _ rs

end Record

namespace RecordLog

variable {log : RecordLog} {key : Bytes} {rs : List Record}

theorem exists_last (hkey : key ∈ rs.map (·.key)) :
    ∃ xs r ys, rs = xs ++ r :: ys ∧ r.key = key ∧ r.key ∉ ys.map (·.key) := by
  induction rs with
  | nil => cases hkey
  | cons r rest ih =>
    by_cases hrest : key ∈ rest.map (·.key)
    · obtain ⟨xs, last, ys, rfl, hlast⟩ := ih hrest
      exact ⟨r :: xs, last, ys, rfl, hlast⟩
    · obtain rfl : key = r.key := (List.mem_cons.1 hkey).resolve_right hrest
      exact ⟨[], r, rest, rfl, rfl, hrest⟩

/-- A store file that is a head and whole records. -/
structure OfHead (head : Bytes) (rs : List Record) (log : RecordLog) : Prop where
  faultless : headerFault? head = none
  length_head : head.length = headerSize
  fits : ∀ r ∈ rs, r.Fits
  file : log.file = head ++ rs.flatMap Record.encode
  endOffset : log.endOffset = headerSize + total (rs.map Record.size)
  index : log.index = Index.addRecords ∅ headerSize rs

theorem headerFault?_append {head : Bytes} (hlength : head.length = headerSize) (rest : Bytes) :
    headerFault? (head ++ rest) = headerFault? head := by
  rw [headerFault?, headerFault?, List.take_left' hlength, ← hlength, List.take_length]

theorem ofHead_ofFile {file : Bytes} (hopen : ofFile file = .ok log) :
    OfHead (file.take headerSize) (Record.ofBytes (file.drop headerSize)) log := by
  have hlength := le_length_of_ofFile hopen
  have hhead : (file.take headerSize).length = headerSize := List.length_take_of_le hlength
  unfold ofFile at hopen
  split at hopen
  · cases hopen
  · next hfault =>
    obtain rfl := Except.ok.inj hopen
    refine ⟨?_, hhead, Record.fits_of_readAll, ?_, rfl, rfl⟩
    · rw [← headerFault?_append hhead (file.drop headerSize), List.take_append_drop]
      exact hfault
    · have hinitial : (Record.ofBytes (file.drop headerSize)).flatMap Record.encode <+: file.drop headerSize :=
        Record.readAll_initial _ _
      show file.take (headerSize + total _) = _
      rw [List.take_add, ← Record.length_flatMap_encode, ← List.prefix_iff_eq_take.1 hinitial]

variable [FrameCodec]

/-- Every store file in use is a head and whole records. -/
theorem InUse.ofHead (h : log.InUse) : ∃ head rs, OfHead head rs log := by
  induction h with
  | create => exact ⟨header, [], by decide, rfl, by simp, rfl, rfl, rfl⟩
  | opened hopen => exact ⟨_, _, ofHead_ofFile hopen⟩
  | append before happend ih =>
    obtain ⟨head, rs, hlog⟩ := ih
    obtain ⟨hfile, hend, hindex, hfits⟩ :=
      append_eq_ok before.sound.ended (fun _ => contains_iff_mem_keys) happend rfl
    refine ⟨head, _, hlog.faultless, hlog.length_head, List.forall_mem_append.2 ⟨hlog.fits, hfits⟩, ?_, ?_, ?_⟩
    · rw [hfile, hlog.file, List.append_assoc, List.flatMap_append]
    · rw [hend, hlog.endOffset, List.map_append, total_append, Nat.add_assoc]
    · rw [hindex, hlog.index, hlog.endOffset, Index.addRecords_append]

/-- Opening a store file with more bytes behind its records adds what records are found
there. -/
theorem InUse.ofFile_append (h : log.InUse) (data : Bytes) : ofFile (log.file ++ data) = .ok
    ⟨log.file ++ (Record.ofBytes data).flatMap Record.encode,
      log.endOffset + total ((Record.ofBytes data).map Record.size),
      log.index.addRecords log.endOffset (Record.ofBytes data)⟩ := by
  obtain ⟨head, rs, hlog⟩ := h.ofHead
  have hfile : log.file ++ data = head ++ (rs.flatMap Record.encode ++ data) := by rw [hlog.file, List.append_assoc]
  have hrecords : Record.ofBytes ((log.file ++ data).drop headerSize) = rs ++ Record.ofBytes data := by
    rw [hfile, List.drop_left' hlog.length_head, Record.ofBytes_append hlog.fits]
  have hfault : headerFault? (log.file ++ data) = none := by
    rw [hfile, headerFault?_append hlog.length_head, hlog.faultless]
  have hinitial : (Record.ofBytes data).flatMap Record.encode <+: data := Record.readAll_initial _ _
  have htotal : headerSize + total ((rs ++ Record.ofBytes data).map Record.size) =
      log.file.length + ((Record.ofBytes data).flatMap Record.encode).length := by
    rw [List.map_append, total_append, hlog.file, List.length_append, hlog.length_head, Record.length_flatMap_encode,
      Record.length_flatMap_encode, Nat.add_assoc]
  rw [ofFile, hfault]
  simp only [hrecords]
  congr 2
  · rw [htotal, List.take_length_add_append, ← List.prefix_iff_eq_take.1 hinitial]
  · rw [List.map_append, total_append, hlog.endOffset, Nat.add_assoc]
  · rw [Index.addRecords_append, hlog.index, hlog.endOffset]

/-- **A store file in use is found again as it is.** -/
theorem InUse.reopens (h : log.InUse) : ofFile log.file = .ok log := by
  have hmore := h.ofFile_append []
  have hnone : Record.ofBytes [] = [] := rfl
  simpa [hnone, Index.addRecords] using hmore

/-- **What is found when a store file is opened with more bytes behind its records**: the
last of the records that they begin with, for each key that has one. -/
theorem InUse.reopen (h : log.InUse) (data : Bytes) : ∃ reopened, ofFile (log.file ++ data) = .ok reopened ∧
    (∀ key, reopened.contains key = true ↔
      log.contains key = true ∨ key ∈ (Record.ofBytes data).map (·.key)) ∧
    (∀ xs r ys, Record.ofBytes data = xs ++ r :: ys → r.key ∉ ys.map (·.key) → reopened.get r.key = r.value) ∧
    ∀ key, key ∉ (Record.ofBytes data).map (·.key) → reopened.get key = log.get key := by
  refine ⟨_, h.ofFile_append data, fun key => Index.contains_addRecords, fun xs r ys hsplit hys => ?_,
    fun key hkey => ?_⟩
  · rw [hsplit]
    exact get_of_last rfl (by rw [h.sound.ended]) hys
  · refine h.sound.get_append rfl (Index.getElem?_addRecords_of_ne fun r hr heq => ?_)
    exact hkey (List.mem_map.2 ⟨r, hr, heq⟩)

end RecordLog

end MerkleBuffer
