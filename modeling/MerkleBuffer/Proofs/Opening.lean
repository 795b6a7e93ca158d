/-
Opening any bytes at all.

A file opens as a store file if its head is in order, whatever stands behind it. The
lengths in a record may lead anywhere, so what counts is the longest chain of records
right behind the head: it is what the index is built from, the file is cut to its end, and
no read leaves the file. A store file that was opened is found again as it is, and so is
one that a batch was written to.
-/
import MerkleBuffer.Proofs.Store.Attempts
import MerkleBuffer.Store.Frame

namespace MerkleBuffer

namespace RecordLog

/-- Bytes that begin with the head of a store file. The four bytes behind the version may
be any, and so may the rest of the head. -/
structure WellHeaded (file : Bytes) : Prop where
  length : headerSize ≤ file.length
  magic : file.take 8 = RecordLog.magic
  version : (file.drop 8).take 4 = LittleEndian.encode 4 RecordLog.version

/-- What opening makes of a file with the records `rs` behind its head. -/
structure Scanned [FrameCodec] (file : Bytes) (rs : List Record) (log : RecordLog) : Prop where
  chain : Record.LongestChain rs (file.drop headerSize)
  endOffset : log.endOffset = headerSize + total (rs.map Record.size)
  /-- The file is cut to the end of the records -/
  file : log.file = file.take log.endOffset
  length_file : log.file.length = log.endOffset
  /-- The index leads to the last record of each key -/
  index (key : Bytes) (l : Location) : log.index[key]? = some l ↔ ∃ xs r ys, rs = xs ++ r :: ys ∧ r.key = key ∧
    key ∉ ys.map (·.key) ∧ l = r.location (headerSize + total (xs.map Record.size))
  /-- and nowhere else than into the file -/
  inside (key : Bytes) (l : Location) : log.index[key]? = some l →
    headerSize ≤ l.offset ∧ l.offset + l.size ≤ log.file.length
  get (xs ys : List Record) (r : Record) : rs = xs ++ r :: ys → r.key ∉ ys.map (·.key) → log.get r.key = r.value

/-- What a batch adds to a store file: its new keys, each with the value that was put
first, and nothing else. -/
structure Extended [FrameCodec] (log : RecordLog) (puts : List Put) (after : RecordLog) : Prop where
  file : log.file <+: after.file
  contains (key : Bytes) : after.contains key = true ↔ log.contains key = true ∨ key ∈ puts.map (·.key)
  index_stored (key : Bytes) : log.contains key = true → after.index[key]? = log.index[key]?
  get_stored (key : Bytes) : log.contains key = true → after.get key = log.get key
  get_new (key : Bytes) : key ∈ puts.map (·.key) → log.contains key = false →
    after.get key = .ok (valuesOf key puts).head?

variable {file : Bytes} {log after : RecordLog} {puts : List Put} {rs : List Record} {key : Bytes} {l : Location}

/-! ## The head -/

theorem decode_eq_version_iff {bytes : Bytes} (hlength : bytes.length = 4) :
    LittleEndian.decode bytes = version ↔ bytes = LittleEndian.encode 4 version := by
  constructor
  · intro hdecode
    have hencode := LittleEndian.encode_decode bytes
    rw [hlength, hdecode] at hencode
    exact hencode.symm
  · rintro rfl
    exact LittleEndian.decode_encode 4 version (by decide)

theorem headerFault?_eq_none_iff : headerFault? file = none ↔ WellHeaded file := by
  have hmagic : (file.take headerSize).take 8 = file.take 8 := by simp [List.take_take, headerSize]
  have hversion : ((file.take headerSize).drop 8).take 4 = (file.drop 8).take 4 := by
    simp [List.drop_take, List.take_take, headerSize]
  unfold headerFault?
  dsimp only
  rw [hmagic, hversion, List.length_take]
  by_cases hlength : headerSize ≤ file.length
  · have hfour : ((file.drop 8).take 4).length = 4 := by
      simp only [List.length_take, List.length_drop]
      simp only [headerSize] at hlength
      omega
    rw [if_neg (by omega)]
    constructor
    · intro hnone
      split at hnone
      · cases hnone
      next hm =>
      split at hnone
      · cases hnone
      next hv =>
      exact ⟨hlength, Classical.not_not.1 hm, (decode_eq_version_iff hfour).1 (Classical.not_not.1 hv)⟩
    · intro hhead
      rw [if_neg (not_not_intro hhead.magic),
        if_neg (not_not_intro ((decode_eq_version_iff hfour).2 hhead.version))]
  · rw [if_pos (by omega)]
    exact ⟨nofun, fun hhead => absurd hhead.length hlength⟩

/-- **A file opens exactly if its head is in order.** -/
theorem ofFile_eq_ok_iff : (∃ log, ofFile file = .ok log) ↔ WellHeaded file := by
  rw [← headerFault?_eq_none_iff, ofFile]
  cases headerFault? file with
  | none => exact ⟨fun _ => rfl, fun _ => ⟨_, rfl⟩⟩
  | some e => simp

/-! ## The records -/

/-- A key is in the index that was built from some records if one of them has it, and leads
to the last that does. -/
theorem getElem?_addRecords_iff {offset : Nat} : (Index.addRecords ∅ offset rs)[key]? = some l ↔
    ∃ xs r ys, rs = xs ++ r :: ys ∧ r.key = key ∧ key ∉ ys.map (·.key) ∧
      l = r.location (offset + total (xs.map Record.size)) := by
  have hlast : ∀ {xs ys : List Record} {r : Record}, r.key ∉ ys.map (·.key) →
      (Index.addRecords ∅ offset (xs ++ r :: ys))[r.key]? =
        some (r.location (offset + total (xs.map Record.size))) := fun hys =>
    Index.getElem?_addRecords fun x hx heq => hys (List.mem_map.2 ⟨x, hx, heq⟩)
  constructor
  · intro hl
    by_cases hkey : key ∈ rs.map (·.key)
    · obtain ⟨xs, r, ys, rfl, rfl, hys⟩ := exists_last hkey
      rw [hlast hys] at hl
      exact ⟨xs, r, ys, rfl, rfl, hys, (Option.some.inj hl).symm⟩
    · rw [Index.getElem?_addRecords_of_ne fun r hr heq => hkey (List.mem_map.2 ⟨r, hr, heq⟩)] at hl
      simp at hl
  · rintro ⟨xs, r, ys, rfl, rfl, hys, rfl⟩
    exact hlast hys

variable [FrameCodec]

theorem OfHead.get_last {head : Bytes} {xs ys : List Record} {r : Record} (h : OfHead head (xs ++ r :: ys) log)
    (hys : r.key ∉ ys.map (·.key)) : log.get r.key = r.value := by
  have hindex : log.index = Index.addRecords ∅ head.length (xs ++ r :: ys) := by
    rw [h.length_head]
    exact h.index
  exact get_of_last h.file hindex hys

/-- **What opening finds.** -/
theorem scanned_ofFile (hopen : ofFile file = .ok log) : Scanned file (Record.ofBytes (file.drop headerSize)) log := by
  have hhead := ofHead_ofFile hopen
  have hs := sound_ofFile hopen
  constructor
  case chain => exact Record.longestChain_ofBytes _
  case endOffset => exact hhead.endOffset
  case file =>
    unfold ofFile at hopen
    split at hopen
    · cases hopen
    · obtain rfl := Except.ok.inj hopen
      rfl
  case length_file => exact hs.ended
  case index =>
    intro key l
    rw [hhead.index]
    exact getElem?_addRecords_iff
  case inside =>
    intro key l hl
    rw [hs.ended]
    refine ⟨?_, hs.within key l hl⟩
    rw [hhead.index] at hl
    obtain ⟨xs, r, ys, -, -, -, rfl⟩ := getElem?_addRecords_iff.1 hl
    simp only [Record.location]
    omega
  case get =>
    intro xs ys r hrs hys
    rw [hrs] at hhead
    exact hhead.get_last hys

/-! ## A batch -/

/-- **What a batch adds.** -/
theorem Sound.extended (hs : log.Sound) (happend : log.append puts = .ok after) : log.Extended puts after where
  file := by
    obtain ⟨rs, -, hfile, -⟩ := hs.append_eq happend
    exact hfile ▸ List.prefix_append _ _
  contains key := contains_append happend
  index_stored key hkey := by
    obtain ⟨rs, rfl, -, -, hindex⟩ := hs.append_eq happend
    rw [hindex]
    refine Index.getElem?_addRecords_of_ne fun r hr heq => ?_
    have hmem : key ∈ (log.newRecords puts).map (·.key) := List.mem_map.2 ⟨r, hr, heq⟩
    have hnew := (mem_keys_newRecords.1 hmem).1
    rw [hkey] at hnew
    cases hnew
  get_stored key hkey := hs.get_stored happend hkey
  get_new key hput hnew := hs.get_first happend hput hnew

end RecordLog

/-- **Any bytes at all open as they should.** They open if and only if they have a whole
head with the magic and the version. What is found are the last records of each key in the
longest chain behind the head, and what stands behind the chain is cut off. The store file
that is left opens again as it is; and after a batch was written to it, it opens with the
new keys of the batch besides, while every key that it had reads as before. -/
theorem any_bytes_open [FrameCodec] (file : Bytes) :
    ((∃ log, RecordLog.ofFile file = .ok log) ↔ RecordLog.WellHeaded file) ∧
      ∀ log, RecordLog.ofFile file = .ok log →
        (∃ rs, RecordLog.Scanned file rs log) ∧ RecordLog.ofFile log.file = .ok log ∧
          ∀ puts after, log.append puts = .ok after →
            RecordLog.ofFile after.file = .ok after ∧ log.Extended puts after := by
  refine ⟨RecordLog.ofFile_eq_ok_iff, fun log hopen => ?_⟩
  have huse := RecordLog.InUse.opened hopen
  refine ⟨⟨_, RecordLog.scanned_ofFile hopen⟩, huse.reopens, fun puts after happend => ?_⟩
  exact ⟨(huse.append happend).reopens, huse.sound.extended happend⟩

/-- A head whose reserved bytes are not zero, a record with an empty key and no frame, two
records of one key, and lengths that lead far behind the end of the file. -/
def strangeFile : Bytes :=
  RecordLog.header.take 12 ++ List.replicate 52 7 ++ Record.encode ⟨[], []⟩ ++ (Record.ofPut ⟨[1], [7]⟩).encode ++
    (Record.ofPut ⟨[1], [8]⟩).encode ++ [255, 255, 255, 255, 255, 255, 1]

/-- The lengths at the end are cut off, the later record of the key counts, and a batch
that puts this key again adds the other one alone. -/
theorem any_bytes_open_strangeFile : ∃ log after, RecordLog.ofFile strangeFile = .ok log ∧
    RecordLog.ofFile log.file = .ok log ∧ log.append [⟨[1], [9]⟩, ⟨[2], [5]⟩] = .ok after ∧
    RecordLog.ofFile after.file = .ok after ∧ log.file.length = 104 ∧ log.contains [] = true ∧
    log.get [1] = .ok (some [8]) ∧ after.get [1] = .ok (some [8]) ∧ after.get [2] = .ok (some [5]) := by
  obtain ⟨hiff, hall⟩ := any_bytes_open strangeFile
  obtain ⟨log, hopen⟩ := hiff.2 ⟨by decide +kernel, by decide +kernel, by decide +kernel⟩
  obtain ⟨⟨rs, hscan⟩, hagain, hbatch⟩ := hall log hopen
  have hlog : (RecordLog.ofFile strangeFile).toOption.map (fun log => (log.endOffset, log.contains [],
      log.contains [1], log.contains [2])) = some (104, true, true, false) := by decide +kernel
  have hread : (RecordLog.ofFile strangeFile).toOption.map (·.get [1] |>.toOption) = some (some (some [8])) := by
    decide +kernel
  have happends : (RecordLog.ofFile strangeFile).toOption.map (·.append [⟨[1], [9]⟩, ⟨[2], [5]⟩] |>.isOk) =
      some true := by decide +kernel
  rw [hopen] at hlog hread happends
  simp only [Except.toOption, Option.map_some, Option.some.injEq, Prod.mk.injEq] at hlog hread happends
  obtain ⟨hend, hempty, hold, hnew⟩ := hlog
  have hget : log.get [1] = .ok (some [8]) := by
    cases hget : log.get [1] with
    | error e => simp [hget] at hread
    | ok value => simpa [hget] using hread
  cases happend : log.append [⟨[1], [9]⟩, ⟨[2], [5]⟩] with
  | error e => simp [happend, Except.isOk, Except.toBool] at happends
  | ok after =>
    obtain ⟨hreopened, hextended⟩ := hbatch _ after happend
    exact ⟨log, after, hopen, hagain, happend, hreopened, hscan.length_file.trans hend, hempty, hget,
      (hextended.get_stored _ hold).trans hget, hextended.get_new [2] (by decide) hnew⟩

end MerkleBuffer
