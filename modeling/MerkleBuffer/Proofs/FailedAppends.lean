/-
Appends that fail.

An append that fails leaves bytes in the file, behind the end that the store file knows
of. They are not cut off before the next batch is written there, and if that is shorter,
the rest of them stays behind its records. Whoever opens the file scans them as if they
had been written last. This does no harm as long as what is left comes from one batch: its
keys are new, so at most some of its puts are found. But in any store file two batches are
enough to make a key read as a value that was never written.
-/
import MerkleBuffer.Proofs.Store.Attempts
import MerkleBuffer.Store.Frame

namespace MerkleBuffer

/-- What is found when a store file is opened after some batches were tried. -/
structure Unpoisoned [FrameCodec] (start : RecordLog) (written tried : List Put) (reopened : RecordLog) : Prop where
  /-- A key that was stored before reads as it did -/
  stored (key : Bytes) : start.contains key = true → reopened.get key = start.get key
  /-- Of the other keys, one that was written reads as the value that was written first -/
  first (key : Bytes) : key ∈ written.map (·.key) → start.contains key = false →
    reopened.get key = .ok (valuesOf key written).head?
  known (key : Bytes) : reopened.contains key = true → start.contains key = true ∨ key ∈ tried.map (·.key)

namespace RecordLog

variable [FrameCodec] {log start base reopened : RecordLog} {puts tried : List Put} {left key : Bytes}
  {s : RecordLog × List Put}

/-- Of the records that a scan finds behind the end, the last one of a stored key has the
value that is stored, and every other key was tried. -/
def Harmless (log : RecordLog) (tried : List Put) : Prop :=
  ∀ xs r ys, Record.ofBytes log.leftover = xs ++ r :: ys → r.key ∉ ys.map (·.key) →
    (log.contains r.key = true → log.get r.key = r.value) ∧
      (log.contains r.key = false → r.key ∈ tried.map (·.key))

/-! ## What was written -/

theorem Trail.contains_iff (h : Trail start tried left base s) :
    base.contains key = true ↔ start.contains key = true ∨ key ∈ s.2.map (·.key) := contains_append h.append

theorem Trail.get_stored (h : Trail start tried left base s) (huse : start.InUse) (hkey : start.contains key = true) :
    base.get key = start.get key := huse.sound.get_stored h.append hkey

theorem Trail.get_first (h : Trail start tried left base s) (huse : start.InUse) (hkey : key ∈ s.2.map (·.key))
    (hnew : start.contains key = false) : base.get key = .ok (valuesOf key s.2).head? :=
  huse.sound.get_first h.append hkey hnew

/-! ## What is found -/

/-- **Opening the file finds what was written exactly if what is left is harmless.** -/
theorem Trail.unpoisoned_iff (h : Trail start tried left base s) (huse : start.InUse) :
    ∃ reopened, ofFile s.1.file = .ok reopened ∧ (Unpoisoned start s.2 tried reopened ↔ s.1.Harmless tried) := by
  have hbase := h.inUse huse
  have hfile : s.1.file = base.file ++ left := by rw [h.log, followedBy]
  have hleftover : s.1.leftover = left := by rw [h.log, hbase.sound.leftover_followedBy]
  have hcontains : ∀ k, s.1.contains k = base.contains k := fun k => by rw [h.log]; rfl
  have hget : ∀ k, s.1.get k = base.get k := fun k => by rw [h.log, hbase.sound.get_followedBy]
  obtain ⟨reopened, hopen, hfound, hlast, hother⟩ := hbase.reopen left
  rw [← hfile] at hopen
  refine ⟨reopened, hopen, ⟨fun hu => ?harmless, fun hh => ?unpoisoned⟩⟩
  case harmless =>
    intro xs r ys hsplit hys
    rw [hleftover] at hsplit
    rw [hcontains, hget, ← hlast xs r ys hsplit hys]
    refine ⟨fun hstored => ?_, fun hnew => ?_⟩
    · cases hstart : start.contains r.key with
      | true => rw [hu.stored _ hstart, h.get_stored huse hstart]
      | false =>
        have hput : r.key ∈ s.2.map (·.key) := (h.contains_iff.1 hstored).resolve_left (by simp [hstart])
        rw [hu.first _ hput hstart, h.get_first huse hput hstart]
    · have hmem : r.key ∈ (Record.ofBytes left).map (·.key) := by simp [hsplit]
      refine (hu.known _ ((hfound _).2 (.inr hmem))).resolve_left fun hstart => ?_
      rw [h.contains_iff.2 (.inl hstart)] at hnew
      cases hnew
  case unpoisoned =>
    have hreads : ∀ k, base.contains k = true → reopened.get k = base.get k := by
      intro k hk
      by_cases hmem : k ∈ (Record.ofBytes left).map (·.key)
      · obtain ⟨xs, r, ys, hsplit, rfl, hys⟩ := exists_last hmem
        have hharmless := (hh xs r ys (hleftover.symm ▸ hsplit) hys).1 ((hcontains _).trans hk)
        rw [hlast xs r ys hsplit hys, ← hharmless, hget]
      · exact hother k hmem
    refine ⟨fun k hk => ?_, fun k hk hnew => ?_, fun k hk => ?_⟩
    · rw [hreads k (h.contains_iff.2 (.inl hk)), h.get_stored huse hk]
    · rw [hreads k (h.contains_iff.2 (.inr hk)), h.get_first huse hk hnew]
    · cases hstored : base.contains k with
      | true => exact (h.contains_iff.1 hstored).imp_right fun hput => List.map_subset _ h.written hput
      | false =>
        have hmem := ((hfound k).1 hk).resolve_left (by simp [hstored])
        obtain ⟨xs, r, ys, hsplit, rfl, hys⟩ := exists_last hmem
        exact .inr ((hh xs r ys (hleftover.symm ▸ hsplit) hys).2 ((hcontains _).trans hstored))

theorem OfOneBatch.harmless (hone : base.OfOneBatch tried left) (hs : base.Sound) :
    (base.followedBy left).Harmless tried := by
  obtain ⟨puts, hputs, hfits, hleft⟩ := hone
  intro xs r ys hsplit _
  rw [hs.leftover_followedBy] at hsplit
  have hfound := Record.ofBytes_initial hfits hleft
  have hr : r ∈ base.newRecords puts := hfound.subset (hsplit ▸ List.mem_append_right _ List.mem_cons_self)
  obtain ⟨hnew, hput⟩ := mem_keys_newRecords.1 (List.mem_map_of_mem hr)
  have hcontains : (base.followedBy left).contains r.key = false := hnew
  refine ⟨fun hstored => ?_, fun _ => List.map_subset _ hputs hput⟩
  rw [hcontains] at hstored
  cases hstored

end RecordLog

/-! ## A batch that is shorter than what is left -/

/-- A batch of two puts of which all bytes reach the file before its write fails, and then
a batch that puts another value under the second key. -/
def poisoning [FrameCodec] (x k value other : Bytes) : List Attempt :=
  [⟨[⟨x, value⟩, ⟨k, other⟩], some ((Record.ofPut ⟨x, value⟩).size + (Record.ofPut ⟨k, other⟩).size)⟩,
    ⟨[⟨k, value⟩], none⟩]

namespace RecordLog

variable [FrameCodec] {start : RecordLog} {x k value other : Bytes}

/-- What is left of the first batch when the second has taken the place of its first put. -/
theorem runAll_poisoning (huse : start.InUse) (hne : x ≠ k) (hlength : x.length = k.length)
    (hx : start.contains x = false) (hk : start.contains k = false) (hfitx : (Record.ofPut ⟨x, value⟩).Fits)
    (hfitk : (Record.ofPut ⟨k, value⟩).Fits) (hfito : (Record.ofPut ⟨k, other⟩).Fits) :
    ∃ base, start.append [⟨k, value⟩] = .ok base ∧ Attempt.runAll start (poisoning x k value other) =
      (base.followedBy (Record.ofPut ⟨k, other⟩).encode, [⟨k, value⟩]) := by
  have hs := huse.sound
  obtain ⟨after, hafter, hdata⟩ : ∃ after, start.append [⟨x, value⟩, ⟨k, other⟩] = .ok after ∧ _ :=
    append_of_new (by simp [hne]) (by simp [hx, hk]) (by simp [hfitx, hfito])
  obtain ⟨base, hbase, hdata'⟩ : ∃ base, start.append [⟨k, value⟩] = .ok base ∧ _ :=
    append_of_new (by simp) (by simp [hk]) (by simp [hfitk])
  rw [List.flatMap_cons, List.flatMap_singleton] at hdata
  rw [List.flatMap_singleton] at hdata'
  have hsome : start.dataOf [⟨x, value⟩, ⟨k, other⟩] ≠ [] := by
    rw [hdata]
    exact List.append_ne_nil_of_left_ne_nil (Record.encode_ne_nil _) _
  have hsize : (Record.ofPut ⟨x, value⟩).encode.length = (Record.ofPut ⟨k, value⟩).encode.length := by
    rw [Record.length_encode, Record.length_encode, Record.size, Record.size, Record.ofPut, Record.ofPut, hlength]
  have hfailed := hs.run_failed [] [] (a := ⟨[⟨x, value⟩, ⟨k, other⟩],
    some ((Record.ofPut ⟨x, value⟩).size + (Record.ofPut ⟨k, other⟩).size)⟩) hafter rfl hsome
  have hwritten := hs.run_written ((Record.ofPut ⟨x, value⟩).encode ++ (Record.ofPut ⟨k, other⟩).encode) []
    (a := ⟨[⟨k, value⟩], none⟩) hbase (.inl rfl)
  rw [followedBy_nil, hdata, List.drop_nil, List.append_nil, List.take_of_length_le (by simp)] at hfailed
  rw [hdata', ← hsize, List.drop_left, List.nil_append] at hwritten
  refine ⟨base, hbase, ?_⟩
  show Attempt.run (Attempt.run (start, []) _) _ = _
  rw [hfailed, hwritten]

/-- The second batch is written over the first put of the one that failed, and the other
put is found behind it. -/
theorem poisoned (huse : start.InUse) (hne : x ≠ k) (hlength : x.length = k.length) (hx : start.contains x = false)
    (hk : start.contains k = false) (hfitx : (Record.ofPut ⟨x, value⟩).Fits) (hfitk : (Record.ofPut ⟨k, value⟩).Fits)
    (hfito : (Record.ofPut ⟨k, other⟩).Fits) :
    let s := Attempt.runAll start (poisoning x k value other)
    s.2 = [⟨k, value⟩] ∧ ∃ reopened, ofFile s.1.file = .ok reopened ∧ reopened.get k = .ok (some other) := by
  obtain ⟨base, hbase, hrun⟩ := runAll_poisoning huse hne hlength hx hk hfitx hfitk hfito
  obtain ⟨reopened, hopen, -, hlast, -⟩ := (huse.append hbase).reopen (Record.ofPut ⟨k, other⟩).encode
  have hfound : Record.ofBytes (Record.ofPut ⟨k, other⟩).encode = [Record.ofPut ⟨k, other⟩] := by
    have hall := Record.ofBytes_encode_append hfito []
    rwa [List.append_nil] at hall
  rw [hrun]
  exact ⟨rfl, reopened, hopen, (hlast [] _ [] hfound List.not_mem_nil).trans (Record.value_of_frame rfl)⟩

end RecordLog

/-- **Failed appends do no harm exactly as long as what they leave is harmless.** However
batches were tried on a store file in use, opening it again succeeds. It finds the first
value written for each key, and no key that was never put, exactly if that is so of what a
scan finds behind the end. It is so whenever each append covers what an earlier one has
left. But of any two new keys of one length, the second can be made to read as a value
that was only put in a batch that failed, although another one was written. -/
theorem failed_appends_recovered [FrameCodec] {start : RecordLog} (huse : start.InUse) :
    (∀ as, ∃ reopened, RecordLog.ofFile (Attempt.runAll start as).1.file = .ok reopened ∧
      (Unpoisoned start (Attempt.runAll start as).2 (as.flatMap (·.puts)) reopened ↔
        (Attempt.runAll start as).1.Harmless (as.flatMap (·.puts)))) ∧
      (∀ as, Attempt.AllCover (start, []) as → (Attempt.runAll start as).1.Harmless (as.flatMap (·.puts))) ∧
      ∀ x k value other, x ≠ k → x.length = k.length → start.contains x = false → start.contains k = false →
        (Record.ofPut ⟨x, value⟩).Fits → (Record.ofPut ⟨k, value⟩).Fits → (Record.ofPut ⟨k, other⟩).Fits →
        let s := Attempt.runAll start (poisoning x k value other)
        s.2 = [⟨k, value⟩] ∧ ∃ reopened, RecordLog.ofFile s.1.file = .ok reopened ∧
          reopened.get k = .ok (some other) := by
  have hstart := RecordLog.Trail.refl start
  refine ⟨fun as => ?_, fun as hcover => ?_, fun x k value other hne hlength hx hk hfitx hfitk hfito => ?_⟩
  · obtain ⟨left, base, htrail, -⟩ := hstart.runAll huse as
    exact htrail.unpoisoned_iff huse
  · obtain ⟨left, base, htrail, hone⟩ := hstart.runAll huse as
    have hharmless := (hone hcover (.nil _ _)).harmless (htrail.inUse huse).sound
    rwa [← htrail.log] at hharmless
  · exact RecordLog.poisoned huse hne hlength hx hk hfitx hfitk hfito

/-- A batch whose write fails twice, the second time earlier, and then succeeds, and
another one that fails within its only record. -/
def retried : List Attempt :=
  [⟨[⟨[1], [7]⟩, ⟨[2], [8]⟩], some 20⟩, ⟨[⟨[1], [7]⟩, ⟨[2], [8]⟩], some 5⟩, ⟨[⟨[1], [7]⟩, ⟨[2], [8]⟩], none⟩,
    ⟨[⟨[3], [9]⟩], some 10⟩]

/-- The retried batch is found as it was written, and nothing of the other one. A shorter
batch after one that failed is not. -/
theorem failed_appends_recovered_retried :
    (∃ reopened, RecordLog.ofFile (Attempt.runAll .create retried).1.file = .ok reopened ∧
      reopened.get [1] = .ok (some [7]) ∧ reopened.get [2] = .ok (some [8])) ∧
      ∃ reopened, RecordLog.ofFile (Attempt.runAll .create (poisoning [1] [2] [7] [8])).1.file = .ok reopened ∧
        reopened.get [2] = .ok (some [8]) := by
  obtain ⟨hexact, hharmless, hpoison⟩ := failed_appends_recovered RecordLog.InUse.create
  have hcover : Attempt.AllCover (.create, []) retried := by
    refine ⟨?_, ?_, ?_, ?_, trivial⟩
    all_goals decide +kernel
  have hwritten : (Attempt.runAll .create retried).2 = [⟨[1], [7]⟩, ⟨[2], [8]⟩] := by decide +kernel
  obtain ⟨reopened, hopen, hiff⟩ := hexact retried
  have hu := hiff.2 (hharmless retried hcover)
  rw [hwritten] at hu
  have hfirst := hu.first [1] (by decide) (by decide +kernel)
  have hsecond := hu.first [2] (by decide) (by decide +kernel)
  refine ⟨⟨reopened, hopen, hfirst, hsecond⟩, ?_⟩
  exact (hpoison [1] [2] [7] [8] (by decide) rfl (by decide +kernel) (by decide +kernel)
    ⟨by decide, by decide +kernel⟩ ⟨by decide, by decide +kernel⟩ ⟨by decide, by decide +kernel⟩).2

/-- All bytes of a batch with two puts reach the file before its write fails. Then the
second key is put alone, with another value, and written. In the file that is opened it
reads as the value that failed. -/
theorem failed_append_poisons :
    let tried : List Attempt := [⟨[⟨[97], [49]⟩, ⟨[98], [50]⟩], some 34⟩, ⟨[⟨[98], [57]⟩], none⟩]
    let s := Attempt.runAll .create tried
    s.2 = [⟨[98], [57]⟩] ∧ ∃ reopened, RecordLog.ofFile s.1.file = .ok reopened ∧
      reopened.get [98] = .ok (some [50]) ∧ ¬ Unpoisoned .create s.2 (tried.flatMap (·.puts)) reopened := by
  intro tried s
  have hwritten : s.2 = [⟨[98], [57]⟩] := by decide +kernel
  have hread : (RecordLog.ofFile s.1.file).toOption.map (·.get [98] |>.toOption) = some (some (some [50])) := by
    decide +kernel
  cases hopen : RecordLog.ofFile s.1.file with
  | error e =>
    rw [hopen] at hread
    cases hread
  | ok reopened =>
    rw [hopen] at hread
    have hother : (reopened.get [98]).toOption = some (some [50]) := Option.some.inj hread
    refine ⟨hwritten, reopened, rfl, ?_, fun hu => ?_⟩
    · cases hget : reopened.get [98] with
      | error e =>
        rw [hget] at hother
        cases hother
      | ok found =>
        rw [hget] at hother
        exact congrArg Except.ok (Option.some.inj hother)
    · have hfirst := hu.first [98] (by decide +kernel) (by decide +kernel)
      rw [hfirst, hwritten] at hother
      exact absurd hother (by decide)

end MerkleBuffer
