/-
The sizes that a database reports are exact.

Along any run, with writes that fail or not, the byte counters are the sums over the
staged nodes, the pins and the preimages that they stand for, as long as these sums
stay below 2^64. So the differences that the operations take never stop at zero: with
each of them checked, every operation from a state of the run does what it does
unchecked.
-/
import Mathlib
import MerkleBuffer.Proofs.Buffer.Checked
import MerkleBuffer.Proofs.Database.Runs
import MerkleBuffer.Store.Memory

namespace MerkleBuffer

namespace Database

variable {σ : Type}

/-- The buffer that a cap leaves when it succeeds, with every difference checked. -/
def capped? (db : Database σ) (limit : ByteSize) : Option Buffer := do
  let size ← db.buffer.residentSize?
  if size ≤ limit then return db.buffer
  else
    let oldest ← Buffer.overflow? limit size db.buffer.inOrder
    (if db.preimagesOverflow then db.buffer.clearPreimages else db.buffer).discardFlushed? oldest

/-- The sizes of a database are the sums over what it holds: each node counts its
encoding, its key and a fixed overhead, and, once it has explicit references, their
table and each child that they lead to, which is listed once. -/
structure SizesExact (db : Database σ) : Prop where
  nodes : db.size.1.bytes = ∑ h ∈ db.buffer.staged, db.buffer.measure Staged.residentBytes h
  payload : db.buffer.payloadSize.bytes = ∑ h ∈ db.buffer.staged, db.buffer.measure Staged.payloadBytes h
  preimages : db.size.2.bytes = total (db.buffer.preimages.map fun x => Hash.size + x.2.length)
  children_apart : ∀ (h : Hash) (e : Staged), db.buffer.table[h]? = some e → ((e.edges.getD []).map (·.1)).Nodup

/-- No difference that an operation takes would be below zero: not in the size that is
reported, not when a root is dereferenced, pinned or not, not in a cap, whether it
succeeds or not, and not when a commit drops nodes, whichever it has written, or tells
what they made free. -/
structure NeverClips (db : Database σ) : Prop where
  size : db.buffer.residentSize? = some db.buffer.residentSize
  dereference : ∀ root, db.buffer.dereference? root = some (db.buffer.dereference root)
  cap : ∀ limit, db.capped? limit = some (db.capped limit)
  commit : ∀ hs, db.buffer.discards? hs = some (db.buffer.discards hs)
  freed : ∀ hs, (db.buffer.discards hs).payloadSize ≤ db.buffer.payloadSize

variable {db : Database σ} {limit : ByteSize}

theorem accounted_capped (ha : db.buffer.Accounted) : (db.capped limit).Accounted := by
  unfold capped
  split
  · exact ha
  split
  · exact ha.clearPreimages.discardFlushed _
  · exact ha.discardFlushed _

theorem capped?_eq (ha : db.buffer.Accounted) (hr : db.buffer.InRange)
    (hl : db.buffer.Linked db.buffer.flushOrder) : db.capped? limit = some (db.capped limit) := by
  have hclear : Buffer.SameNodes db.buffer db.buffer.clearPreimages := ⟨rfl, rfl, rfl, rfl⟩
  rw [capped?, ha.residentSize? hr, capped, capNodes]
  show (if db.buffer.residentSize ≤ limit then _ else _) = _
  split
  · rfl
  rw [ha.overflow? hr hl]
  show (if db.preimagesOverflow then db.buffer.clearPreimages else db.buffer).discardFlushed? _ = _
  split
  · exact ha.clearPreimages.discardFlushed? (hclear.linked hl).self _
  · exact ha.discardFlushed? hl _

theorem sizesExact_of_accounted (ha : db.buffer.Accounted) (hr : db.buffer.InRange) (hw : db.buffer.WellFormed) :
    db.SizesExact where
  nodes := ha.resident hr
  payload := ha.payload
  preimages := ha.preimages
  children_apart h e he := (hw.edges h e he).nodup

theorem neverClips_of_accounted (ha : db.buffer.Accounted) (hr : db.buffer.InRange) (hw : db.buffer.WellFormed) :
    db.NeverClips where
  size := ha.residentSize? hr
  dereference := ha.dereference? hw.linked
  cap _ := capped?_eq ha hr hw.linked
  commit := ha.discards?
  freed hs := by
    have hfreed := Buffer.sub?_payloadSize ha (ha.discards hs) (Buffer.Remnant.discards hw.linked hs).1
    by_contra hlt
    rw [ByteSize.sub?, if_neg hlt] at hfreed
    cases hfreed

end Database

section Runs

variable {σ : Type} [KeyValueStore σ]

/-- **Every command keeps the counters exact**, if what they count is in range
afterwards. -/
theorem accounted_run (c : Command) {db : Database σ} (hw : db.buffer.WellFormed) (ha : db.buffer.Accounted)
    (hr : (c.run db).buffer.InRange) : (c.run db).buffer.Accounted := by
  have hstaging : ∀ h size node, c.staging? = some (h, size, node) → (c.run db).buffer.Accounted := by
    intro h size node hc
    rw [run_staging hc] at hr ⊢
    split at hr
    · rwa [if_pos ‹_›]
    · rw [if_neg ‹_›]
      exact ha.insert hr
  have hlookup : ∀ h, c = .lookup h ∨ c = .lookupTrieNode h → (c.run db).buffer.Accounted := by
    intro h hc
    obtain ⟨cleans, heq, -⟩ := run_lookup c h hc db
    rwa [heq]
  cases c with
  | insert h blob node => exact hstaging _ _ _ rfl
  | insertBlob h blob => exact hstaging _ _ _ rfl
  | insertNode node => exact hstaging _ _ _ rfl
  | insertPreimage h preimage => exact ha.insertPreimage hr
  | reference child parent =>
    simp only [Command.run, Database.reference] at hr ⊢
    split at hr
    · rwa [if_pos ‹_›]
    · rw [if_neg ‹_›]
      exact ha.reference hw hr
  | dereference root =>
    simp only [Command.run, Database.dereference]
    split
    · exact ha
    · exact ha.dereference root
  | cap limit =>
    obtain ⟨_, _, _, -, -, ⟨e, heq⟩ | ⟨-, heq⟩⟩ := db.cap_outcome limit
    · rwa [Command.run, heq]
    · rw [Command.run, heq]
      exact Database.accounted_capped ha
  | commit root =>
    obtain ⟨_, _, _, gone, _, _, _, -, -, -, -, -, ⟨e, heq⟩ | ⟨-, -, -, heq⟩⟩ := db.commit_outcome root
    · rw [Command.run, heq]
      exact ha.discards _
    · rw [Command.run, heq]
      exact (ha.discards (gone.map (·.1))).clearPreimages.congr ⟨rfl, rfl, rfl, rfl⟩ rfl rfl rfl
  | lookup h => exact hlookup h (.inl rfl)
  | lookupTrieNode h => exact hlookup h (.inr rfl)

/-- In every state of a run in range, the counters are exact and in range. -/
theorem Reachable.accounted {disk : Faulty σ} {config : Config} {hv : config.Valid} {db : Database (Faulty σ)}
    (hr : Reachable (fun db c => (c.run db).buffer.InRange) (.ofValid disk config hv) db) :
    db.buffer.Accounted ∧ db.buffer.InRange := by
  induction hr with
  | start => exact ⟨.empty, .empty⟩
  | step before writes c hc ih => exact ⟨accounted_run c (before.wellFormed .empty) ih.1 hc, hc⟩

/-- **Sizes are exact.** In every state of a run over any store, in which writes fail at
any time, the sizes are the sums over what the database holds, and no difference is
ever cut off at zero. What staged nodes and pins are charged, and what preimages are,
only has to stay below 2^64 bytes along the run. -/
theorem sizes_exact (disk : Faulty σ) (config : Config) (hv : config.Valid) {db : Database (Faulty σ)}
    (hr : Reachable (fun db c => (c.run db).buffer.InRange) (.ofValid disk config hv) db) :
    db.SizesExact ∧ db.NeverClips := by
  have hall := hr.accounted
  have hw : db.buffer.WellFormed := hr.wellFormed .empty
  exact ⟨Database.sizesExact_of_accounted hall.1 hall.2 hw, Database.neverClips_of_accounted hall.1 hall.2 hw⟩

end Runs

/-- A root with an explicit reference besides the one in its slot, and a preimage. Root
and child are pinned, a cap fails, and the next one stores the child, whose pin is left. -/
def storedChild : List (Option Nat × Command) :=
  [(none, .insertBlob (.filled 1) [7]), (none, .insert (.filled 2) [8, 9] (.trie (.extension [] (.filled 1)))),
    (none, .reference (.filled 1) (.filled 2)), (none, .reference (.filled 2) Hash.zero),
    (none, .reference (.filled 1) Hash.zero), (none, .insertPreimage (.filled 3) [1, 2, 3]),
    (some 0, .cap ByteSize.zero), (none, .cap (ByteSize.ofNat 320))]

/-- What is left is the root and both pins. -/
theorem sizes_exact_storedChild :
    let db := (Database.new (.reliable MemoryStore.empty)).runAll storedChild
    db.SizesExact ∧ db.NeverClips ∧ db.size.1.bytes = 32 + 2 + 200 + (48 + 34) ∧ db.size.2.bytes = 32 + 3 ∧
      db.buffer.edgesSize.bytes = (48 + 34) + 2 * 34 := by
  have hrange : AllAllowed (fun db c => (c.run db).buffer.InRange) (Database.new (.reliable MemoryStore.empty))
      storedChild := by
    refine ⟨?_, ?_, ?_, ?_, ?_, ?_, ?_, ?_, trivial⟩
    all_goals
      refine ⟨?_, ?_⟩
      · decide +kernel
      · decide +kernel
  have hexact := sizes_exact _ Config.standard Config.valid_standard (Reachable.start.runAll hrange)
  exact ⟨hexact.1, hexact.2, by decide +kernel, by decide +kernel, by decide +kernel⟩

end MerkleBuffer
