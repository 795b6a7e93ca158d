/-
Recovery from a torn tail.

A store file that was cut opens again if its head is whole, and what it then holds are
the records that end before the cut: a first part of all records, in the order in
which they were written. It is the same store file as if only these had ever been
written, so whatever is done with it later cannot tell that others were lost.
-/
import MerkleBuffer.Proofs.Store.Lifetime
import MerkleBuffer.Store.Frame

namespace MerkleBuffer

/-- Where the records of some puts end in a store file that holds these alone. -/
def RecordLog.endOf [FrameCodec] (ps : List Put) : Nat := headerSize + total (ps.map fun p => (Record.ofPut p).size)

/-- What happens to a store file: a batch is written, the file is opened again, or it
is cut to a length and then opened. -/
inductive FileEvent where
  | write (puts : List Put)
  | reopen
  | cut (length : Nat)

/-- The store file after an event. A batch that is refused leaves it as it was. -/
def FileEvent.run [FrameCodec] (log : RecordLog) : FileEvent → Except Error RecordLog
  | write puts =>
    match log.append puts with
    | .ok after => .ok after
    | .error _ => .ok log
  | reopen => RecordLog.ofFile log.file
  | cut length => RecordLog.ofFile (log.file.take length)

/-- The store file that opening finds after a cut to `n` bytes: the records of `kept`
are whole, those of `lost` are not. -/
structure Recovered [FrameCodec] (log : RecordLog) (n : Nat) (kept lost : List Put) (opened : RecordLog) : Prop where
  /-- The cut falls behind the records that are kept, and before the end of the next one -/
  whole : RecordLog.endOf kept ≤ n
  torn : ∀ p ∈ lost.head?, n < RecordLog.endOf (kept ++ [p])
  /-- The file is shortened to the end of the last record that is kept -/
  file : opened.file = log.file.take (RecordLog.endOf kept)
  length_file : opened.file.length = RecordLog.endOf kept
  endOffset : opened.endOffset = RecordLog.endOf kept
  get_kept : ∀ p ∈ kept, opened.get p.key = .ok (some p.value)
  get (key : Bytes) : opened.get key = if key ∈ kept.map (·.key) then log.get key else .ok none
  contains (key : Bytes) : opened.contains key = true ↔ key ∈ kept.map (·.key)
  size : opened.size = kept.length
  /-- The store file is the one to which only the kept puts were ever written -/
  rewritten : RecordLog.create.append kept = .ok opened
  further (events : List FileEvent) :
    events.foldlM FileEvent.run opened = (.write kept :: events).foldlM FileEvent.run RecordLog.create

namespace Record

/-- The first record that is left out ends behind the cut. -/
theorem lt_of_within {n : Nat} {rs rest : List Record} {r : Record} (h : rs = within n rs ++ r :: rest) :
    n < total ((within n rs).map size) + r.size := by
  induction rs generalizing n with
  | nil => cases h
  | cons x xs ih =>
    rw [within] at h ⊢
    split at h
    · next hle =>
      rw [if_pos hle, List.map_cons, total_cons]
      have hrest := ih (List.cons.inj h).2
      omega
    · next hlt =>
      obtain rfl : x = r := (List.cons.inj h).1
      rw [if_neg hlt, List.map_nil, total_nil]
      omega

end Record

namespace RecordLog

variable [FrameCodec] {log after : RecordLog} {ps : List Put}

/-- The file holds one record for the first put of each key, in the order of the puts. -/
theorem file_of_holds (h : LawfulStore.Holds log ps) :
    log.file = header ++ (firstPuts [] ps).flatMap fun p => (Record.ofPut p).encode := by
  rw [h.1, ofRecords, recordsOf, List.flatMap_map]

theorem endOf_eq (ps : List Put) : endOf ps = headerSize + total ((ps.map Record.ofPut).map Record.size) := by
  rw [endOf, List.map_map]
  rfl

theorem holds_batches {batches : List (List Put)} (h : LawfulStore.Holds log ps)
    (hwrite : batches.foldlM append log = .ok after) : LawfulStore.Holds after (ps ++ batches.flatten) := by
  induction batches generalizing log ps with
  | nil =>
    obtain rfl : log = after := Except.ok.inj hwrite
    rwa [List.flatten_nil, List.append_nil]
  | cons batch rest ih =>
    rw [List.foldlM_cons] at hwrite
    cases happend : log.append batch with
    | error e =>
      rw [happend] at hwrite
      cases hwrite
    | ok mid =>
      rw [happend] at hwrite
      have hmid : LawfulStore.Holds mid (ps ++ batch) := LawfulStore.holds_write h happend
      rw [List.flatten_cons, ← List.append_assoc]
      exact ih hmid hwrite

/-- A cut behind the head parts the puts into those whose records are whole and those
whose records are not. -/
theorem exists_cut (h : LawfulStore.Holds log ps) {n : Nat} (hn : headerSize ≤ n) :
    ∃ kept lost, firstPuts [] ps = kept ++ lost ∧ endOf kept ≤ n ∧ (∀ p ∈ lost.head?, n < endOf (kept ++ [p])) ∧
      ofFile (log.file.take n) = .ok (ofRecords (kept.map Record.ofPut)) := by
  obtain ⟨rfl, hfits⟩ := h
  obtain ⟨rest, hrest⟩ := Record.within_initial (n - headerSize) (recordsOf ps)
  obtain ⟨kept, lost, hputs, hkept, hlost⟩ := List.map_eq_append_iff.1 hrest.symm
  refine ⟨kept, lost, hputs, ?_, fun p hp => ?_, ?_⟩
  · have hle := Record.total_within_le (n - headerSize) (recordsOf ps)
    rw [endOf_eq, hkept]
    omega
  · obtain ⟨lost, rfl⟩ : ∃ tail, lost = p :: tail := List.head?_eq_some_iff.1 hp
    rw [← hlost, List.map_cons] at hrest
    have hlt := Record.lt_of_within hrest.symm
    rw [endOf_eq, List.map_append, List.map_append, total_append, hkept, List.map_singleton, List.map_singleton,
      total_cons, total_nil]
    omega
  · rw [hkept]
    exact ofFile_take hfits hn

end RecordLog

section Recovery

variable {log : RecordLog} {ps kept lost : List Put} {n : Nat}

theorem firstPuts_part (hputs : firstPuts [] ps = kept ++ lost) :
    (kept.map (·.key)).Nodup ∧ firstPuts [] kept = kept := by
  have hnodup : (kept.map (·.key)).Nodup := by
    have hall := (nodup_firstPuts [] ps).1
    rw [hputs, List.map_append] at hall
    exact (List.nodup_append.1 hall).1
  exact ⟨hnodup, firstPuts_of_nodup hnodup (by simp)⟩

theorem holds_of_firstPuts [FrameCodec] (h : LawfulStore.Holds log ps) (hputs : firstPuts [] ps = kept ++ lost) :
    LawfulStore.Holds (RecordLog.ofRecords (kept.map Record.ofPut)) kept := by
  have hfits : ∀ r ∈ kept.map Record.ofPut, r.Fits := by
    intro r hr
    refine h.2 r ?_
    rw [RecordLog.recordsOf, hputs, List.map_append]
    exact List.mem_append_left _ hr
  show _ = RecordLog.ofRecords (RecordLog.recordsOf kept) ∧ ∀ r ∈ RecordLog.recordsOf kept, r.Fits
  rw [RecordLog.recordsOf, (firstPuts_part hputs).2]
  exact ⟨rfl, hfits⟩

theorem Recovered.of_holds [FrameCodec] (h : LawfulStore.Holds log ps) (hputs : firstPuts [] ps = kept ++ lost)
    (hwhole : RecordLog.endOf kept ≤ n) (htorn : ∀ p ∈ lost.head?, n < RecordLog.endOf (kept ++ [p])) :
    Recovered log n kept lost (RecordLog.ofRecords (kept.map Record.ofPut)) := by
  obtain ⟨hnodup, hfirst⟩ := firstPuts_part hputs
  have hholds := holds_of_firstPuts h hputs
  have hend : (RecordLog.ofRecords (kept.map Record.ofPut)).endOffset = RecordLog.endOf kept :=
    (RecordLog.endOf_eq kept).symm
  have hlength := hend ▸ RecordLog.Holds.length_file hholds
  have hkept : ∀ p ∈ kept, (RecordLog.ofRecords (kept.map Record.ofPut)).get p.key = .ok (some p.value) := by
    intro p hp
    rw [RecordLog.Holds.get hholds, RecordLog.head?_valuesOf (hfirst.symm ▸ hp : p ∈ firstPuts [] kept)]
  have hrewritten := RecordLog.Holds.append_create hholds
  refine { whole := hwhole, torn := htorn, file := ?file, length_file := hlength, endOffset := hend, get_kept := hkept,
           get := fun key => ?get, contains := fun key => RecordLog.Holds.contains hholds, size := ?size,
           rewritten := hrewritten, further := fun events => ?further }
  case file =>
    obtain ⟨rfl, -⟩ := h
    have hinitial := RecordLog.file_ofRecords_initial (kept.map Record.ofPut) (lost.map Record.ofPut)
    rw [← hlength, RecordLog.recordsOf, hputs, List.map_append]
    exact List.prefix_iff_eq_take.1 hinitial
  case get =>
    split
    · next hkey =>
      obtain ⟨p, hp, rfl⟩ := List.mem_map.1 hkey
      have hmem : p ∈ firstPuts [] ps := hputs ▸ List.mem_append_left _ hp
      rw [hkept p hp, RecordLog.Holds.get h, RecordLog.head?_valuesOf hmem]
    · next hkey =>
      rw [hholds.1]
      exact RecordLog.get_ofRecords_of_not_mem (mt RecordLog.mem_keys_recordsOf.1 hkey)
  case size => rw [RecordLog.Holds.size hholds, List.toFinset_card_of_nodup hnodup, List.length_map]
  case further =>
    rw [List.foldlM_cons, FileEvent.run, hrewritten]
    rfl

end Recovery

/-- **A torn tail is cut off, and nothing else is lost.** The file of some batches holds
one record for each key, in the order of the puts. If it was cut within its head, it does
not open. Cut anywhere behind it, it opens with the records that end
before the cut, and is the store file to which only these were ever written. -/
theorem torn_tail_recovered [FrameCodec] {batches : List (List Put)} {log : RecordLog}
    (hwrite : batches.foldlM RecordLog.append RecordLog.create = .ok log) (n : Nat) :
    log.file = RecordLog.header ++ (firstPuts [] batches.flatten).flatMap (fun p => (Record.ofPut p).encode) ∧
      (n < RecordLog.headerSize → RecordLog.ofFile (log.file.take n) = .error (.invalidFile .truncatedHeader)) ∧
      (RecordLog.headerSize ≤ n → ∃ kept lost opened, firstPuts [] batches.flatten = kept ++ lost ∧
        RecordLog.ofFile (log.file.take n) = .ok opened ∧ Recovered log n kept lost opened) := by
  have h : LawfulStore.Holds log ([] ++ batches.flatten) := RecordLog.holds_batches RecordLog.holds_create hwrite
  rw [List.nil_append] at h
  refine ⟨RecordLog.file_of_holds h, fun hn => ?_, fun hn => ?_⟩
  · refine RecordLog.ofFile_truncated ?_
    rw [List.length_take]
    omega
  · obtain ⟨kept, lost, hputs, hwhole, htorn, hopen⟩ := RecordLog.exists_cut h hn
    exact ⟨kept, lost, _, hputs, hopen, .of_holds h hputs hwhole htorn⟩

/-- Two batches with three records of 17 bytes each. -/
def twoBatches : List (List Put) := [[⟨[1], [7]⟩, ⟨[2], [8]⟩], [⟨[3], [9]⟩]]

theorem twoBatches_written : (twoBatches.foldlM RecordLog.append RecordLog.create).isOk = true := by decide +kernel

/-- A cut within the second record, which stands in the middle of a batch, leaves the first. -/
theorem torn_tail_recovered_twoBatches : ∃ log opened, twoBatches.foldlM RecordLog.append RecordLog.create = .ok log ∧
    RecordLog.ofFile (log.file.take 90) = .ok opened ∧ opened.size = 1 ∧ opened.get [1] = .ok (some [7]) ∧
    opened.get [2] = .ok none ∧ opened.get [3] = .ok none := by
  cases hwrite : twoBatches.foldlM RecordLog.append RecordLog.create with
  | error e =>
    have hok := twoBatches_written
    rw [hwrite] at hok
    cases hok
  | ok log =>
    obtain ⟨kept, lost, opened, hputs, hopen, hr⟩ := (torn_tail_recovered hwrite 90).2.2 (by decide)
    have hall : firstPuts [] twoBatches.flatten = [⟨[1], [7]⟩, ⟨[2], [8]⟩, ⟨[3], [9]⟩] := by decide
    have hwhole := hr.whole
    have htorn := hr.torn
    obtain rfl : kept = [⟨[1], [7]⟩] := by
      rw [hall] at hputs
      rcases kept with _ | ⟨a, _ | ⟨b, kept⟩⟩
      · obtain rfl : _ = lost := hputs
        exact absurd (htorn ⟨[1], [7]⟩ rfl) (by decide +kernel)
      · obtain ⟨rfl, -⟩ : ⟨[1], [7]⟩ = a ∧ _ := by simpa using hputs
        rfl
      · obtain ⟨rfl, rfl, -⟩ : ⟨[1], [7]⟩ = a ∧ ⟨[2], [8]⟩ = b ∧ _ := by simpa using hputs
        have htwo : 90 < RecordLog.endOf [⟨[1], [7]⟩, ⟨[2], [8]⟩] := by decide +kernel
        simp only [RecordLog.endOf, List.map_cons, total_cons, List.map_nil, total_nil] at hwhole htwo
        omega
    refine ⟨log, opened, rfl, hopen, hr.size, hr.get_kept _ (List.mem_singleton_self _), ?_, ?_⟩
    · rw [hr.get, if_neg (by decide)]
    · rw [hr.get, if_neg (by decide)]

end MerkleBuffer
