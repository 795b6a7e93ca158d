/-
Batches on an open store file whose writes may fail part-way.

A write that fails leaves what it has written so far behind the end that the store file
knows of, and the next batch is written over it. So after any attempts the store file is
the one to which only the batches were written that did not fail, with some bytes behind
its end (`Trail`). As long as each write covers these bytes, or goes on with them, they
are the first part of what one batch would write (`OfOneBatch`).
-/
import MerkleBuffer.Proofs.Store.Lifetime
import MerkleBuffer.Proofs.Store.Scanning
import MerkleBuffer.Proofs.Store.Sequential

namespace MerkleBuffer

/-- What stands behind the offset, as far as it is not written over, stays. -/
theorem overwrite_behind (front left data : Bytes) :
    overwrite (front ++ left) front.length data = front ++ (data ++ left.drop data.length) := by
  cases data with
  | nil => rfl
  | cons x data => simp [overwrite]

/-- A first part that is written over with another first part is one again. -/
theorem overwrite_initial {left data : Bytes} (hleft : left <+: data) (n : Nat) :
    data.take n ++ left.drop (data.take n).length <+: data := by
  have hdrop : left.drop (data.take n).length <+: data.drop (data.take n).length := by
    rw [List.prefix_iff_eq_take.1 hleft, List.drop_take]
    exact List.take_prefix _ _
  have hsplit := List.prefix_iff_eq_append.1 (List.take_prefix n data)
  calc data.take n ++ left.drop (data.take n).length
    _ <+: data.take n ++ data.drop (data.take n).length := (List.prefix_append_right_inj _).2 hdrop
    _ = data := hsplit

namespace RecordLog

/-- The bytes behind the end that the store file knows of. -/
def leftover (log : RecordLog) : Bytes := log.file.drop log.endOffset

/-- A store file with bytes behind its end that it does not know of. -/
def followedBy (log : RecordLog) (bytes : Bytes) : RecordLog := { log with file := log.file ++ bytes }

section Behind

variable {base : RecordLog}

theorem followedBy_nil (log : RecordLog) : log.followedBy [] = log := by
  rw [followedBy, List.append_nil]

theorem Sound.leftover_followedBy (hs : base.Sound) (left : Bytes) : (base.followedBy left).leftover = left := by
  rw [leftover, followedBy, ← hs.ended, List.drop_left]

/-- A write that fails leaves what it has written, and what was left behind that. -/
theorem Sound.overwrite_followedBy (hs : base.Sound) (left data : Bytes) :
    { base.followedBy left with file := overwrite (base.followedBy left).file (base.followedBy left).endOffset data } =
      base.followedBy (data ++ left.drop data.length) := by
  have hover := overwrite_behind base.file left data
  rw [hs.ended] at hover
  simp only [followedBy, hover]

end Behind

variable [FrameCodec]

/-- What appending some puts writes: nothing, if they are refused or all keys are stored. -/
def dataOf (log : RecordLog) (puts : List Put) : Bytes :=
  match stage log.index log.endOffset puts with
  | .error _ => []
  | .ok (_, records) => records.flatMap Record.encode

end RecordLog

/-! ## Attempts -/

/-- A batch that is written to an open store file, and how many of its bytes reach the
file if the write fails. -/
structure Attempt where
  puts : List Put
  failsAfter : Option Nat

namespace Attempt

variable [FrameCodec]

/-- The bytes that reach the file. -/
def reaching (a : Attempt) (log : RecordLog) : Bytes :=
  match a.failsAfter with
  | none => log.dataOf a.puts
  | some n => (log.dataOf a.puts).take n

/-- The store file after an attempt, and all puts that were written. A batch that is
refused, or has nothing to write, does not get to the write that could fail. Where that
fails, the end and the index stay as they were. -/
def run : RecordLog × List Put → Attempt → RecordLog × List Put
  | (log, written), a =>
    match log.append a.puts with
    | .error _ => (log, written)
    | .ok after =>
      if a.failsAfter = none ∨ log.dataOf a.puts = [] then (after, written ++ a.puts)
      else ({ log with file := overwrite log.file log.endOffset (a.reaching log) }, written)

/-- A store file after some attempts, and all puts that were written to it in them. -/
def runAll (log : RecordLog) (as : List Attempt) : RecordLog × List Put := as.foldl run (log, [])

/-- The attempt writes nothing, or over all that an earlier one has left, or what is left
is the first part of what it would write itself. -/
def Covers (a : Attempt) (log : RecordLog) : Prop :=
  log.dataOf a.puts = [] ∨ log.leftover.length ≤ (a.reaching log).length ∨ log.leftover <+: log.dataOf a.puts

instance (a : Attempt) (log : RecordLog) : Decidable (a.Covers log) := inferInstanceAs (Decidable (_ ∨ _))

/-- Every attempt covers what is left at its time. -/
def AllCover : RecordLog × List Put → List Attempt → Prop
  | _, [] => True
  | s, a :: rest => a.Covers s.1 ∧ AllCover (run s a) rest

end Attempt

namespace RecordLog

variable [FrameCodec] {log after start base : RecordLog} {puts written tried : List Put} {left key : Bytes} {a : Attempt}
  {s : RecordLog × List Put}

/-! ## What an append writes -/

/-- The records that some puts add: one for the first put of each new key. -/
def newRecords (log : RecordLog) (puts : List Put) : List Record :=
  (firstPuts log.index.keys puts).map Record.ofPut

theorem mem_keys_newRecords : key ∈ (log.newRecords puts).map (·.key) ↔
    log.contains key = false ∧ key ∈ puts.map (·.key) := by
  rw [newRecords, List.map_map, contains_eq_false_iff]
  exact mem_keys_firstPuts

/-- What an append writes, and what becomes of the index and the end. -/
theorem append_dataOf (happend : log.append puts = .ok after) :
    log.dataOf puts = (log.newRecords puts).flatMap Record.encode ∧ (∀ r ∈ log.newRecords puts, r.Fits) ∧
      after = ⟨overwrite log.file log.endOffset (log.dataOf puts), log.endOffset + (log.dataOf puts).length,
        log.index.addRecords log.endOffset (log.newRecords puts)⟩ := by
  unfold append at happend
  split at happend
  · cases happend
  · next index records hstage =>
    obtain ⟨rfl, hfits, rfl⟩ := stage_eq_ok (fun _ => contains_iff_mem_keys) hstage
    have hdata : log.dataOf puts = (log.newRecords puts).flatMap Record.encode := by
      rw [dataOf, hstage]
      rfl
    obtain rfl := Except.ok.inj happend
    exact ⟨hdata, hfits, by rw [hdata]; rfl⟩

theorem contains_append (happend : log.append puts = .ok after) :
    after.contains key = true ↔ log.contains key = true ∨ key ∈ puts.map (·.key) := by
  obtain ⟨-, -, heq⟩ := append_dataOf happend
  rw [heq, contains, Index.contains_addRecords, mem_keys_newRecords]
  show log.contains key = true ∨ _ ↔ _
  cases log.contains key <;> simp

theorem Sound.get_stored (hs : log.Sound) (happend : log.append puts = .ok after) (hkey : log.contains key = true) :
    after.get key = log.get key := by
  refine hs.get_of_not_new happend fun q hq heq => ?_
  obtain ⟨-, hnew⟩ := nodup_firstPuts log.index.keys puts
  exact hnew key (List.mem_map.2 ⟨q, hq, heq⟩) (contains_iff_mem_keys.1 hkey)

theorem Sound.get_first (hs : log.Sound) (happend : log.append puts = .ok after) (hkey : key ∈ puts.map (·.key))
    (hnew : log.contains key = false) : after.get key = .ok (valuesOf key puts).head? := by
  obtain ⟨q, hq, rfl⟩ := List.mem_map.1 (mem_keys_firstPuts.2 ⟨contains_eq_false_iff.1 hnew, hkey⟩)
  rw [hs.get_new happend hq, head?_valuesOf hq]

theorem append_nil (log : RecordLog) : log.append [] = .ok log := rfl

theorem append_of_new (hnodup : (puts.map (·.key)).Nodup) (hnew : ∀ p ∈ puts, log.contains p.key = false)
    (hfits : ∀ p ∈ puts, (Record.ofPut p).Fits) :
    ∃ after, log.append puts = .ok after ∧ log.dataOf puts = puts.flatMap fun p => (Record.ofPut p).encode := by
  have hfirst : firstPuts log.index.keys puts = puts :=
    firstPuts_of_nodup hnodup fun p hp => contains_eq_false_iff.1 (hnew p hp)
  obtain ⟨r, hr⟩ := stage_ok log.endOffset (fun _ => contains_iff_mem_keys) (hfirst.symm ▸ hfits)
  have happend : ∃ after, log.append puts = .ok after := ⟨_, by rw [append, hr]⟩
  obtain ⟨after, happend⟩ := happend
  refine ⟨after, happend, ?_⟩
  rw [(append_dataOf happend).1, newRecords, hfirst, List.flatMap_map]

theorem append_append {qs : List Put} (happend : start.append puts = .ok base) (hmore : base.append qs = .ok after) :
    start.append (puts ++ qs) = .ok after := by
  have hboth : start.append (puts ++ qs) = (start.append puts).bind (RecordLog.append · qs) :=
    SequentialStore.write_append start puts qs
  rw [hboth, happend]
  exact hmore

/-- An append without a new key changes nothing. -/
theorem eq_of_append (happend : log.append puts = .ok after) (hnothing : log.dataOf puts = []) : after = log := by
  obtain ⟨hdata, -, rfl⟩ := append_dataOf happend
  have hnone : log.newRecords puts = [] := by
    refine List.eq_nil_iff_forall_not_mem.2 fun r hr => ?_
    exact r.encode_ne_nil (List.flatMap_eq_nil_iff.1 (hdata.symm.trans hnothing) r hr)
  rw [hnothing, hnone]
  rfl

/-! ## Bytes behind the end -/

/-- Bytes behind the end are not read. -/
theorem Sound.get_followedBy (hs : base.Sound) (left : Bytes) (key : Bytes) :
    (base.followedBy left).get key = base.get key := hs.get_append rfl rfl

/-- An append covers as many of the bytes behind the end as it writes. -/
theorem Sound.append_followedBy (hs : base.Sound) (left : Bytes) (puts : List Put) :
    (base.followedBy left).append puts = (base.append puts).map (·.followedBy (left.drop (base.dataOf puts).length)) := by
  have hsame : stage (base.followedBy left).index (base.followedBy left).endOffset puts =
      stage base.index base.endOffset puts := rfl
  rw [RecordLog.append, RecordLog.append, hsame, dataOf]
  cases stage base.index base.endOffset puts with
  | error e => rfl
  | ok r =>
    have hover := overwrite_behind base.file left (r.2.flatMap Record.encode)
    have hplain := overwrite_length base.file (r.2.flatMap Record.encode)
    rw [hs.ended] at hover hplain
    simp only [Except.map, followedBy, hover, hplain, List.append_assoc]

/-! ## What an attempt does -/

/-- A batch is written if its write does not fail, or if it has nothing to write. -/
theorem Sound.run_written (hs : base.Sound) (left : Bytes) (written : List Put)
    (happend : base.append a.puts = .ok after) (hor : a.failsAfter = none ∨ base.dataOf a.puts = []) :
    a.run (base.followedBy left, written) =
      (after.followedBy (left.drop (base.dataOf a.puts).length), written ++ a.puts) := by
  have hdata : (base.followedBy left).dataOf a.puts = base.dataOf a.puts := rfl
  rw [Attempt.run, hs.append_followedBy, happend, hdata]
  dsimp only [Except.map]
  rw [if_pos hor]

theorem Sound.run_failed {n : Nat} (hs : base.Sound) (left : Bytes) (written : List Put)
    (happend : base.append a.puts = .ok after) (hn : a.failsAfter = some n) (hsome : base.dataOf a.puts ≠ []) :
    a.run (base.followedBy left, written) = (base.followedBy ((base.dataOf a.puts).take n ++
      left.drop ((base.dataOf a.puts).take n).length), written) := by
  have hdata : (base.followedBy left).dataOf a.puts = base.dataOf a.puts := rfl
  have hreaching : a.reaching (base.followedBy left) = (base.dataOf a.puts).take n := by
    rw [Attempt.reaching, hn]
    rfl
  rw [Attempt.run, hs.append_followedBy, happend, hdata]
  dsimp only [Except.map]
  rw [if_neg (by simp [hn, hsome]), hreaching, hs.overwrite_followedBy]

/-- **An attempt** is refused, or its batch is written, or its write fails. -/
theorem Sound.run_cases (hs : base.Sound) (left : Bytes) (written : List Put) (a : Attempt) :
    a.run (base.followedBy left, written) = (base.followedBy left, written) ∨
      (∃ after, base.append a.puts = .ok after ∧ (a.failsAfter = none ∨ base.dataOf a.puts = []) ∧
        a.run (base.followedBy left, written) =
          (after.followedBy (left.drop (base.dataOf a.puts).length), written ++ a.puts)) ∨
      ∃ after n, base.append a.puts = .ok after ∧ a.failsAfter = some n ∧ base.dataOf a.puts ≠ [] ∧
        a.run (base.followedBy left, written) = (base.followedBy ((base.dataOf a.puts).take n ++
          left.drop ((base.dataOf a.puts).take n).length), written) := by
  cases happend : base.append a.puts with
  | error e =>
    left
    rw [Attempt.run, hs.append_followedBy, happend]
    rfl
  | ok after =>
    right
    by_cases hwritten : a.failsAfter = none ∨ base.dataOf a.puts = []
    · exact .inl ⟨after, rfl, hwritten, hs.run_written left written happend hwritten⟩
    · obtain ⟨hfails, hsome⟩ := not_or.1 hwritten
      obtain ⟨n, hn⟩ := Option.ne_none_iff_exists'.1 hfails
      exact .inr ⟨after, n, rfl, hn, hsome, hs.run_failed left written happend hn hsome⟩

/-- Where attempts lead: to the store file with the puts that were written, and some bytes
behind it. -/
structure Trail (start : RecordLog) (tried : List Put) (left : Bytes) (base : RecordLog)
    (s : RecordLog × List Put) : Prop where
  append : start.append s.2 = .ok base
  log : s.1 = base.followedBy left
  written : s.2 ⊆ tried

/-- Bytes that one batch of new keys would write first. -/
def OfOneBatch (log : RecordLog) (tried : List Put) (left : Bytes) : Prop :=
  ∃ puts, puts ⊆ tried ∧ (∀ r ∈ log.newRecords puts, r.Fits) ∧ left <+: (log.newRecords puts).flatMap Record.encode

theorem OfOneBatch.nil (log : RecordLog) (tried : List Put) : log.OfOneBatch tried [] :=
  ⟨[], List.nil_subset _, by simp [newRecords, firstPuts], List.nil_prefix⟩

theorem OfOneBatch.tried_append (h : log.OfOneBatch tried left) (more : List Put) :
    log.OfOneBatch (tried ++ more) left := by
  obtain ⟨puts, hputs, hrest⟩ := h
  exact ⟨puts, List.subset_append_of_subset_left more hputs, hrest⟩

theorem Trail.refl (start : RecordLog) : Trail start [] [] start (start, []) :=
  ⟨start.append_nil, start.followedBy_nil.symm, List.Subset.refl _⟩

theorem Trail.inUse (h : Trail start tried left base s) (huse : start.InUse) : base.InUse := huse.append h.append

/-- **One more attempt.** If it covers what is left of one batch, so much at most is left
again. -/
theorem Trail.run (h : Trail start tried left base s) (huse : start.InUse) (a : Attempt) :
    ∃ left' base', Trail start (tried ++ a.puts) left' base' (a.run s) ∧
      (a.Covers s.1 → base.OfOneBatch tried left → base'.OfOneBatch (tried ++ a.puts) left') := by
  obtain ⟨log, written⟩ := s
  obtain ⟨happend, rfl, hwritten⟩ : start.append written = .ok base ∧ log = base.followedBy left ∧ written ⊆ tried :=
    ⟨h.append, h.log, h.written⟩
  have hs := (h.inUse huse).sound
  have hkept : written ⊆ tried ++ a.puts := List.subset_append_of_subset_left _ hwritten
  have hcover : a.Covers (base.followedBy left) → base.dataOf a.puts ≠ [] →
      left.length ≤ (a.reaching base).length ∨ left <+: base.dataOf a.puts := by
    intro hcovers hsome
    have hor := hcovers.resolve_left hsome
    rwa [hs.leftover_followedBy] at hor
  rcases hs.run_cases left written a with hrun | ⟨after, hafter, hor, hrun⟩ | ⟨after, n, hafter, hn, hsome, hrun⟩
  · rw [hrun]
    exact ⟨left, base, ⟨happend, rfl, hkept⟩, fun _ hone => hone.tried_append _⟩
  · rw [hrun]
    have hboth : written ++ a.puts ⊆ tried ++ a.puts := List.append_subset.2 ⟨hkept, List.subset_append_right _ _⟩
    refine ⟨_, after, ⟨append_append happend hafter, rfl, hboth⟩, fun hcovers hone => ?_⟩
    by_cases hnothing : base.dataOf a.puts = []
    · rw [eq_of_append hafter hnothing, hnothing]
      exact hone.tried_append _
    · -- the batch was written over all that was left
      have hreaching : a.reaching base = base.dataOf a.puts := by
        rw [Attempt.reaching, hor.resolve_right hnothing]
      have hcovered := hcover hcovers hnothing
      rw [hreaching] at hcovered
      rw [List.drop_eq_nil_of_le (hcovered.elim id List.IsPrefix.length_le)]
      exact .nil _ _
  · rw [hrun]
    refine ⟨_, base, ⟨happend, rfl, hkept⟩, fun hcovers _ => ?_⟩
    obtain ⟨hdata, hfits, -⟩ := append_dataOf hafter
    refine ⟨a.puts, List.subset_append_right _ _, hfits, ?_⟩
    have hreaching : a.reaching base = (base.dataOf a.puts).take n := by rw [Attempt.reaching, hn]
    rw [← hdata]
    rcases hcover hcovers hsome with hlong | hinitial
    · rw [hreaching] at hlong
      rw [List.drop_eq_nil_of_le hlong, List.append_nil]
      exact List.take_prefix _ _
    · exact overwrite_initial hinitial n

/-- **Any number of attempts.** -/
theorem Trail.runAll (h : Trail start tried left base s) (huse : start.InUse) (as : List Attempt) :
    ∃ left' base', Trail start (tried ++ as.flatMap (·.puts)) left' base' (as.foldl Attempt.run s) ∧
      (Attempt.AllCover s as → base.OfOneBatch tried left →
        base'.OfOneBatch (tried ++ as.flatMap (·.puts)) left') := by
  induction as generalizing s tried left base with
  | nil => exact ⟨left, base, by simpa using h, fun _ hone => by simpa using hone⟩
  | cons a rest ih =>
    obtain ⟨left₁, base₁, hnext, hone₁⟩ := h.run huse a
    obtain ⟨left₂, base₂, hlast, hone₂⟩ := ih hnext
    rw [List.flatMap_cons, ← List.append_assoc]
    exact ⟨left₂, base₂, hlast, fun hcover hone => hone₂ hcover.2 (hone₁ hcover.1 hone)⟩

end RecordLog

end MerkleBuffer
