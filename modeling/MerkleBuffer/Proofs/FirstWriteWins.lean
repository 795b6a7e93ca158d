/-
A store file is a map in which the first write wins.

Batches are written to a new store file, in any number and with any keys, and
between them the file is closed and opened again. Whatever was done, each key reads
as the value that was put first under it in a batch that was written, and the index
and the end of the file are those that a scan of the file finds.
-/
import MerkleBuffer.Proofs.Store.Lifetime
import MerkleBuffer.Store.Frame

namespace MerkleBuffer

/-- What a store file goes through: a batch that is written to it, and a restart,
after which the file is opened again. A batch keeps its puts until it is reset, so one
that is written again comes with the same puts and those that were queued since. -/
inductive FileStep where
  | write (puts : List Put)
  | reopen

/-- A store file and the puts that were written to it, after one more step. A batch
that is refused leaves both as they were. -/
def FileStep.run [FrameCodec] : RecordLog × List Put → FileStep → Except Error (RecordLog × List Put)
  | (log, written), write puts =>
    match log.append puts with
    | .ok after => .ok (after, written ++ puts)
    | .error _ => .ok (log, written)
  | (log, written), reopen => (RecordLog.ofFile log.file).map fun opened => (opened, written)

/-- The store file is the map from each key that was written to its first value. -/
structure FirstWins [FrameCodec] (log : RecordLog) (written : List Put) : Prop where
  get (key : Bytes) : log.get key = .ok (valuesOf key written).head?
  contains (key : Bytes) : log.contains key = true ↔ key ∈ written.map (·.key)
  size : log.size = (written.map (·.key)).toFinset.card
  /-- A scan of the file finds the index and the end that are kept in memory, and has
  nothing to cut off -/
  scanned : RecordLog.ofFile log.file = .ok log
  ended : log.file.length = log.endOffset
  /-- A batch is written unless some put that is the first of its key cannot be -/
  written_iff (puts : List Put) : (∃ after, log.append puts = .ok after) ↔
    ∀ p ∈ firstPuts (written.map (·.key)) puts, (Record.ofPut p).Fits
  refused (puts : List Put) (p : Put) : p ∈ puts → Record.maxKeyLength < p.key.length →
    (∃ e, log.append puts = .error e) ∧ FileStep.run (log, written) (.write puts) = .ok (log, written)

section Steps

variable [FrameCodec] {log : RecordLog} {written : List Put}

/-- Neither a batch nor a restart brings anything else into the file. -/
theorem FileStep.run_holds (h : LawfulStore.Holds log written) (s : FileStep) :
    ∃ after ps, s.run (log, written) = .ok (after, ps) ∧ LawfulStore.Holds after ps := by
  cases s with
  | write puts =>
    rw [FileStep.run]
    cases happend : log.append puts with
    | ok after => exact ⟨after, written ++ puts, rfl, LawfulStore.holds_write h happend⟩
    | error e => exact ⟨log, written, rfl, h⟩
  | reopen =>
    rw [FileStep.run, RecordLog.Holds.ofFile h]
    exact ⟨log, written, rfl, h⟩

theorem FileStep.runAll_holds (h : LawfulStore.Holds log written) (steps : List FileStep) :
    ∃ after ps, steps.foldlM FileStep.run (log, written) = .ok (after, ps) ∧ LawfulStore.Holds after ps := by
  induction steps generalizing log written with
  | nil => exact ⟨log, written, rfl, h⟩
  | cons s rest ih =>
    obtain ⟨mid, ps, hstep, hmid⟩ := FileStep.run_holds h s
    obtain ⟨after, qs, hrest, hafter⟩ := ih hmid
    refine ⟨after, qs, ?_, hafter⟩
    rw [List.foldlM_cons, hstep]
    exact hrest

theorem FirstWins.of_holds (h : LawfulStore.Holds log written) : FirstWins log written where
  get := RecordLog.Holds.get h
  contains _ := RecordLog.Holds.contains h
  size := RecordLog.Holds.size h
  scanned := RecordLog.Holds.ofFile h
  ended := RecordLog.Holds.length_file h
  written_iff _ := RecordLog.Holds.append_ok_iff h
  refused puts p hp hlong := by
    obtain ⟨e, he⟩ := RecordLog.Holds.append_of_too_long h hp hlong
    exact ⟨⟨e, he⟩, by rw [FileStep.run, he]⟩

end Steps

/-- **The first write of a key wins, and opening the file again changes nothing.**
No batch and no restart fails in any other way than by refusing a batch, and after
every list of steps the file is the map of the puts that were written. -/
theorem first_write_wins [FrameCodec] (steps : List FileStep) :
    ∃ log written, steps.foldlM FileStep.run (RecordLog.create, []) = .ok (log, written) ∧ FirstWins log written := by
  obtain ⟨log, written, hrun, h⟩ := FileStep.runAll_holds RecordLog.holds_create steps
  exact ⟨log, written, hrun, .of_holds h⟩

/-- A key that is put twice in one batch, and again behind a restart. -/
theorem first_write_wins_repeatedKey :
    let steps : List FileStep := [.write [⟨[1], [7]⟩, ⟨[1], [8]⟩], .reopen, .write [⟨[1], [9]⟩, ⟨[2], [5]⟩]]
    ∃ log, steps.foldlM FileStep.run (RecordLog.create, []) =
        .ok (log, [⟨[1], [7]⟩, ⟨[1], [8]⟩, ⟨[1], [9]⟩, ⟨[2], [5]⟩]) ∧
      log.get [1] = .ok (some [7]) ∧ log.get [2] = .ok (some [5]) ∧ log.size = 2 := by
  intro steps
  obtain ⟨log, written, hrun, hwins⟩ := first_write_wins steps
  have hwritten : (steps.foldlM FileStep.run (RecordLog.create, [])).toOption.map (·.2) =
      some [⟨[1], [7]⟩, ⟨[1], [8]⟩, ⟨[1], [9]⟩, ⟨[2], [5]⟩] := by decide +kernel
  rw [hrun] at hwritten
  cases hwritten
  exact ⟨log, hrun, hwins.get [1], hwins.get [2], hwins.size⟩

end MerkleBuffer
