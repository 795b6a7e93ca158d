/-
Retrying a cap or a commit until it succeeds.

The attempts before have written some puts and left the others to be written, and
all of them head for the same buffer (`FailedAttempts.spec`). So the attempt that
succeeds arrives where one attempt without failures would have arrived, and the
store has been given the same puts, some of them more than once.
-/
import Mathlib
import MerkleBuffer.Proofs.WriteBeforeEvict
import MerkleBuffer.Store.Frame

namespace MerkleBuffer

section Attempts

variable {σ : Type} [KeyValueStore σ]

/-- The databases after some attempts in a row that all failed, each at any of its
writes. -/
inductive FailedAttempts (f : Flush) (db : Database (Faulty σ)) : Database (Faulty σ) → Prop
  | none : FailedAttempts f db db
  | again {mid after : Database (Faulty σ)} {writes : Option Nat} {e : Error} (before : FailedAttempts f db mid)
      (fails : f.run (mid.allowing writes) = (.error e, after)) : FailedAttempts f db after

/-- If an attempt succeeds after others that failed, then one that meets no failure
succeeds as well, and leaves the same buffer behind and a store that answers in
the same way. -/
def Flush.Converges (f : Flush) (db : Database (Faulty σ)) : Prop :=
  ∀ mid writes final, FailedAttempts f db mid → f.run (mid.allowing writes) = (.ok (), final) →
    ∃ single, f.run (db.allowing none) = (.ok (), single) ∧ final.buffer = single.buffer ∧
      ∀ key, KeyValueStore.get final.disk key = KeyValueStore.get single.disk key

/-- Caps and commits converge in every state of every run. -/
def RetriesConverge (start : Database (Faulty σ)) : Prop :=
  ∀ db, Reachable (fun _ _ => True) start db → ∀ f : Flush, f.Converges db

variable [LawfulStore σ] {f : Flush} {ps : List Put} {db mid final : Database (Faulty σ)}

/-- **What failed attempts leave.** They have written some of the puts, and the next
attempt has the others to write. -/
theorem FailedAttempts.spec (hfail : FailedAttempts f db mid) (hr : Recorded ps db) :
    ∃ written, Recorded (ps ++ written) mid ∧ Wrote db.disk.store written mid.disk.store ∧
      (∀ p, p ∈ f.puts db ↔ p ∈ written ∨ p ∈ f.puts mid) ∧ f.settled mid = f.settled db := by
  induction hfail with
  | none => exact ⟨[], by rwa [List.append_nil], .nothing, by simp, rfl⟩
  | @again mid after writes e _ fails ih =>
    obtain ⟨written, hmid, hwrote, hputs, hsettled⟩ := ih
    have hmid' := hmid.allowing writes
    obtain ⟨written', hwrote', hputs', hsettled', hw⟩ := Flush.failed hmid'.wellFormed fails
    obtain ⟨hsame, hsame'⟩ := @Flush.congr (Faulty σ) mid (mid.allowing writes) f rfl rfl
    have hpreimages : (after.buffer.preimages.map (·.1)).Nodup := by
      have hrun := nodup_preimages_run f.command hmid'.preimages
      rwa [f.command_run, fails] at hrun
    refine ⟨written ++ written', ?_, hwrote.trans (Faulty.wrote_store hwrote').1, fun p => ?_, ?_⟩
    · rw [← List.append_assoc]
      exact hmid'.wrote hwrote' hw hpreimages
    · have hleft := hputs' p
      rw [hsame] at hleft
      rw [hputs p, hleft, List.mem_append, or_assoc]
    · rw [hsettled', hsame', hsettled]

variable [RegularStore σ]

/-- What could be written in the end could have been written at once. -/
theorem Recorded.ready {written : List Put} {qs : List Put} {s : Faulty σ} (hr : Recorded ps db)
    (hs : LawfulStore.Holds s (ps ++ written)) (hmem : ∀ p, p ∈ written ↔ p ∈ qs) (ha : Agree qs) :
    Ready (db.allowing none).disk qs := by
  refine ⟨rfl, hr.failPuts, ps, hr.holds.2, fun q hq => ?_⟩
  obtain ⟨p, hp, hkey, hfits⟩ :=
    RegularStore.exists_fits hs.2 (List.mem_append_right ps ((hmem q).2 hq))
  cases List.mem_append.1 hp with
  | inl hold => exact .inr ⟨p, hold, hkey⟩
  | inr hnew =>
    have hpq : p = q := ha p ((hmem p).1 hnew) q hq hkey
    exact .inl (hpq ▸ hfits)

/-- **Retries converge**, wherever they start. -/
theorem Recorded.converges (hr : Recorded ps db) (f : Flush) : f.Converges db := by
  intro mid writes final hfail hok
  obtain ⟨written, hmid, hwrote, hputs, hsettled⟩ := hfail.spec hr
  obtain ⟨hlast, hbuffer⟩ := Flush.succeeded hok
  obtain ⟨hsame, hsame'⟩ := @Flush.congr (Faulty σ) mid (mid.allowing writes) f rfl rfl
  obtain ⟨hsingle, hsingle'⟩ := @Flush.congr (Faulty σ) db (db.allowing none) f rfl rfl
  rw [hsame] at hlast
  -- all attempts together have written the puts of the first one
  have hmem : ∀ p, p ∈ written ++ f.puts mid ↔ p ∈ f.puts db := fun p => by rw [List.mem_append, hputs p]
  have hagree := f.agree_puts hr.wellFormed hr.preimages
  have hholds := hlast.holds (hmid.allowing writes).holds
  rw [List.append_assoc] at hholds
  have hready := hr.ready hholds hmem hagree
  obtain ⟨single, hrun⟩ := Flush.run_ok (Flush.ne_of_succeeded hok) (hsingle.symm ▸ hready)
  obtain ⟨honce, hbuffer'⟩ := Flush.succeeded hrun
  rw [hsingle] at honce
  refine ⟨single, hrun, ?_, fun key => ?_⟩
  · rw [hbuffer, hbuffer', hsame', hsingle', hsettled]
  · have hreads : single.disk.failReads = false := (honce.holds (hr.allowing none).holds).1
    have htotal : Wrote db.disk.store (written ++ f.puts mid) final.disk.store :=
      hwrote.trans (Faulty.wrote_store hlast).1
    have hget := RegularStore.get_congr hr.holds.2 htotal (Faulty.wrote_store honce).1 hmem
      (hagree.mono fun p hp => (hmem p).1 hp) key
    simp only [KeyValueStore.get, hholds.1, hreads]
    exact hget

theorem retriesConverge_of_holds {disk : σ} (hdisk : LawfulStore.Holds disk ps) (config : Config) (hv : config.Valid) :
    RetriesConverge (.ofValid (.reliable disk) config hv) := by
  intro db hreach f
  obtain ⟨qs, hr⟩ := hreach.recorded (.start hdisk config hv)
  exact hr.converges f

end Attempts

/-- **Retrying converges**, over a store in memory and over a store file, whatever
they held at first: a cap or a commit that is repeated until it succeeds leaves the
buffer and the store as one that met no failure. -/
theorem retries_converge [FrameCodec] (config : Config) (hv : config.Valid) :
    (∀ (disk : MemoryStore) ps, LawfulStore.Holds disk ps → RetriesConverge (.ofValid (.reliable disk) config hv)) ∧
      ∀ (disk : RecordLog) ps, LawfulStore.Holds disk ps → RetriesConverge (.ofValid (.reliable disk) config hv) :=
  ⟨fun _ _ hdisk => retriesConverge_of_holds hdisk config hv, fun _ _ hdisk => retriesConverge_of_holds hdisk config hv⟩

/-- The commit that was interrupted between a blob and its parent succeeds the next
time. -/
theorem retries_converge_leafAndRoot :
    let db := nodeByNodeStart.runAll leafAndRoot
    let retried := (Flush.commit (.filled 2)).run (interrupted.2.allowing none)
    interrupted.2.flushOrder = [.filled 2] ∧
      ∃ single, (Flush.commit (.filled 2)).run (db.allowing none) = (.ok (), single) ∧
        retried.2.buffer = single.buffer ∧
        ∀ key, KeyValueStore.get retried.2.disk key = KeyValueStore.get single.disk key := by
  have hok : ((Flush.commit (.filled 2)).run (interrupted.2.allowing none)).1 = .ok () := by cbv
  have hleft : interrupted.2.flushOrder = [.filled 2] := by cbv
  intro db retried
  have hany : AllAllowed (fun _ _ => True) nodeByNodeStart leafAndRoot := ⟨trivial, trivial, trivial, trivial⟩
  obtain ⟨e, hfails⟩ := interrupted_fails
  have hfail : FailedAttempts (.commit (.filled 2)) db interrupted.2 := .again .none hfails
  exact ⟨hleft, (retries_converge nodeByNode nodeByNode_valid).1 _ [] MemoryStore.holds_empty db
    (Reachable.start.runAll hany) _ interrupted.2 none retried.2 hfail (Outcome.eq_mk hok)⟩

end MerkleBuffer
