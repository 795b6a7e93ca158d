/-
What the command that verifies a root reports.

A store file can hold any graph: its keys need not be the digests of its values, so
nodes may point to each other in cycles, share what is below them, or point to what is
not there. The command reports how many stored nodes can be reached from the root and
which hashes that can be reached are not stored, or it stops at a value that does not
decode (`Database.computesReachability`). The meta-root has no encoding and counts as not
stored, even where a value stands under its key.
-/
import Mathlib
import MerkleBuffer.Proofs.CommandLine.OnDatabase
import MerkleBuffer.Proofs.Database.Survey

namespace MerkleBuffer

open Relation (ReflTransGen)

/-- A store that says that a key is absent with no value, and never with an error. -/
class DefiniteStore (σ : Type) [KeyValueStore σ] : Prop where
  get_error {s : σ} {key : Bytes} {e : Error} (h : KeyValueStore.get s key = .error e) : e.isNotFound = false

instance : DefiniteStore MemoryStore where
  get_error h := by cases h

instance [FrameCodec] : DefiniteStore RecordLog where
  get_error {log key e} h := by
    have hget : log.get key = .error e := h
    unfold RecordLog.get RecordLog.readAt at hget
    dsimp only at hget
    split at hget
    · cases hget
    · split at hget
      · next hread =>
        cases hget
        split at hread
        · cases hread
        · cases hread
          rfl
      · split at hget
        · cases hget
        · cases hget
          rfl

section Surveys

variable {σ : Type} [KeyValueStore σ] {s : σ} {root h : Hash}

/-- A value is stored for a hash. There is none for the meta-root, whatever stands under
its key. -/
def StoredFor (s : σ) (h : Hash) : Prop := h ≠ Hash.zero ∧ KeyValueStore.get s h.bytes ≠ .ok none

/-- A survey has found the stored hashes that can be reached from a root through the
children of stored nodes, and lists those that are not stored, each once. -/
structure Survey.IsReachability (survey : Survey) (s : σ) (root : Hash) : Prop where
  found : ∃ found : Finset Hash, survey.found = found.card ∧
    ∀ h, h ∈ found ↔ ReflTransGen (Links s) root h ∧ StoredFor s h
  nodup : survey.missing.Nodup
  missing : ∀ h, h ∈ survey.missing ↔ ReflTransGen (Links s) root h ∧ ¬ StoredFor s h

/-- A result is what can be reached from a root, if every stored value that can be
reached decodes; otherwise it is the error of one that does not. -/
structure ComputesReachability (s : σ) (root : Hash) (result : Except Error Survey) : Prop where
  decodes : (∀ h, ReflTransGen (Links s) root h → StoredFor s h → ∃ node, storedNode s h = .ok node) →
    ∃ survey, result = .ok survey ∧ survey.IsReachability s root
  fails : (∃ h, ReflTransGen (Links s) root h ∧ StoredFor s h ∧ ∀ node, storedNode s h ≠ .ok node) →
    ∃ h e, ReflTransGen (Links s) root h ∧ StoredFor s h ∧ storedNode s h = .error e ∧ result = .error e

theorem storedNode_cases [DefiniteStore σ] (s : σ) (h : Hash) :
    (¬ StoredFor s h ∧ ∃ e, storedNode s h = .error e ∧ e.isNotFound = true) ∨
      (StoredFor s h ∧ ∃ node, storedNode s h = .ok node) ∨
      (StoredFor s h ∧ ∃ e, storedNode s h = .error e ∧ e.isNotFound = false) := by
  unfold storedNode StoredFor
  by_cases hz : h.isZero = true
  · rw [if_pos hz]
    exact .inl ⟨fun hstored => hstored.1 (Hash.isZero_iff.1 hz), _, rfl, rfl⟩
  rw [if_neg hz]
  have hne : h ≠ Hash.zero := fun heq => hz (Hash.isZero_iff.2 heq)
  cases hget : KeyValueStore.get s h.bytes with
  | error e => exact .inr (.inr ⟨⟨hne, by simp⟩, e, rfl, DefiniteStore.get_error hget⟩)
  | ok value =>
    cases value with
    | none => exact .inl ⟨fun hstored => hstored.2 rfl, _, rfl, rfl⟩
    | some encoded =>
      simp only [Database.decoded]
      cases TrieNode.decode encoded with
      | ok node => exact .inr (.inl ⟨⟨hne, by simp⟩, node, rfl⟩)
      | error fault => exact .inr (.inr ⟨⟨hne, by simp⟩, .encoding fault, rfl, rfl⟩)

variable [DefiniteStore σ]

theorem storedFor_of_ok {node : TrieNode} (hnode : storedNode s h = .ok node) : StoredFor s h := by
  rcases storedNode_cases s h with ⟨-, e, he, -⟩ | ⟨hstored, -⟩ | ⟨hstored, -⟩
  · rw [hnode] at he
    cases he
  · exact hstored
  · exact hstored

theorem not_storedFor_iff : ¬ StoredFor s h ↔ ∃ e, storedNode s h = .error e ∧ e.isNotFound = true := by
  rcases storedNode_cases s h with ⟨hnot, he⟩ | ⟨hstored, node, hnode⟩ | ⟨hstored, e, he, hfound⟩
  · exact ⟨fun _ => he, fun _ => hnot⟩
  · simp [hstored, hnode]
  · simp [hstored, he, hfound]

theorem Surveyed.isReachability {found missing : List Hash} (hs : Surveyed s root found missing)
    (hdecodes : ∀ h, ReflTransGen (Links s) root h → StoredFor s h → ∃ node, storedNode s h = .ok node) :
    Survey.IsReachability ⟨found.length, missing⟩ s root where
  found := by
    refine ⟨found.toFinset, (List.toFinset_card_of_nodup hs.nodup_found).symm, fun h => ?_⟩
    rw [List.mem_toFinset, hs.mem_found]
    constructor
    · rintro ⟨hreach, node, hnode⟩
      exact ⟨hreach, storedFor_of_ok hnode⟩
    · rintro ⟨hreach, hstored⟩
      exact ⟨hreach, hdecodes h hreach hstored⟩
  nodup := hs.nodup_missing
  missing h := by rw [hs.mem_missing, not_storedFor_iff]

/-- **A survey computes reachability**, whatever the store holds. It ends in any case, and
with an error only if a stored value that can be reached does not decode. -/
theorem Database.computesReachability [CountedStore σ] {db : Database σ} (hu : Unstaged s db) (root : Hash) :
    ComputesReachability s root (db.survey root).1 := by
  rcases survey_spec hu root with ⟨found, missing, hok, hs⟩ | ⟨h, e, hreach, hnode, hfound, hfails⟩
  · refine ⟨fun hdecodes => ⟨_, hok, hs.isReachability hdecodes⟩, fun hbad => ?_⟩
    -- the survey has come to the end, so everything it has visited was found or missing
    obtain ⟨h, hreach, hstored, hno⟩ := hbad
    cases hs.visited h hreach with
    | inl hh =>
      obtain ⟨-, node, hnode⟩ := (hs.mem_found h).1 hh
      exact absurd hnode (hno node)
    | inr hh => exact absurd hstored (not_storedFor_iff.2 ((hs.mem_missing h).1 hh).2)
  · have hstored : StoredFor s h := by
      by_contra hnot
      obtain ⟨e', he', hmissing⟩ := not_storedFor_iff.1 hnot
      rw [hnode] at he'
      cases he'
      rw [hfound] at hmissing
      cases hmissing
    refine ⟨fun hdecodes => ?_, fun _ => ⟨h, e, hreach, hstored, hnode, hfails⟩⟩
    obtain ⟨node, hok⟩ := hdecodes h hreach hstored
    rw [hnode] at hok
    cases hok

end Surveys

namespace CommandLine

/-- What a survey makes of a command: a result, or the failure. -/
def ofSurvey (root : Hash) : Except Error Survey → Except Failure Result
  | .ok survey => .ok (.surveyed root survey)
  | .error e => .error (.error e)

section Verify

variable {v opened : Volume} {path text : String} {config : Config} {file : StoreFile} {root : Hash}

theorem verify_eq [FrameCodec] (hload : Config.load v (Path.ofString path) = .ok config)
    (hopen : StoreFile.openOrCreate v path = .ok (file, opened)) (hhash : Hash.ofHex text = .ok root) :
    (verify v path text).1 =
      ofSurvey root ((Database.ofValid (file.log opened) config (Config.valid_of_load hload)).survey root).1 := by
  rw [verify, onDatabase_eq hload hopen, fromHash_eq hhash]
  dsimp only
  generalize (Database.ofValid (file.log opened) config (Config.valid_of_load hload)).survey root = outcome
  obtain ⟨result | e, after⟩ := outcome <;> rfl

/-- **The command that verifies a root computes reachability.** Over any store file, with
any settings, it reports what a survey of the stored nodes comes to, and it ends with
exit code 0 if and only if it has come to an end and nothing is missing. -/
theorem verify_computes_reachability [FrameCodec] (hload : Config.load v (Path.ofString path) = .ok config)
    (hopen : StoreFile.openOrCreate v path = .ok (file, opened)) (hhash : Hash.ofHex text = .ok root) :
    let result := ((Database.ofValid (file.log opened) config (Config.valid_of_load hload)).survey root).1
    ComputesReachability (file.log opened) root result ∧ (verify v path text).1 = ofSurvey root result ∧
      ∀ format, (Reply.ofOutcome format (verify v path text).1).code = 0 ↔
        ∃ survey, result = .ok survey ∧ survey.missing = [] := by
  intro result
  have hverify : (verify v path text).1 = ofSurvey root result := verify_eq hload hopen hhash
  refine ⟨Database.computesReachability (.ofValid _ config _) root, hverify, fun format => ?_⟩
  rw [hverify]
  cases result with
  | error e => simp [ofSurvey, Reply.ofOutcome]
  | ok survey => simp [ofSurvey, Reply.ofOutcome, Result.surveyed, Survey.isComplete]

end Verify

/-- Three nodes that point to each other in a cycle, share a leaf, and point to a hash
that is not stored and to the meta-root. -/
def tangled : List Put :=
  [⟨(Hash.filled 1).bytes, (TrieNode.branchAbove [.filled 2, .filled 3, Hash.zero]).encode⟩,
    ⟨(Hash.filled 2).bytes, (TrieNode.branchAbove [.filled 1, .filled 3, .filled 4]).encode⟩,
    ⟨(Hash.filled 3).bytes, (TrieNode.valueLeaf [1] [7]).encode⟩]

/-- A volume with a store file that holds these puts. -/
def volumeWith [FrameCodec] (puts : List Put) : Volume where
  entries := .ofList [(["nodes"], DirectoryEntry.file 0)]
  contents := .ofList [(0, RecordLog.header ++ (puts.map Record.ofPut).flatMap Record.encode)]
  nextFile := 1
  workingDirectory := []

/-- Three nodes are found, and two hashes are missing. -/
theorem verify_computes_reachability_tangled :
    ∃ file opened, StoreFile.openOrCreate (volumeWith tangled) "nodes" = .ok (file, opened) ∧
      Survey.IsReachability ⟨3, [Hash.zero, .filled 4]⟩ (file.log opened) (.filled 1) ∧
      (verify (volumeWith tangled) "nodes" (Hash.filled 1).toHex).1 =
        .ok (.surveyed (.filled 1) ⟨3, [Hash.zero, .filled 4]⟩) ∧
      ∀ format, (Reply.ofOutcome format (verify (volumeWith tangled) "nodes" (Hash.filled 1).toHex).1).code ≠ 0 := by
  let five : List Hash := [.filled 1, .filled 2, .filled 3, .filled 4, Hash.zero]
  let pointsInside (log : RecordLog) (h : Hash) : Bool :=
    match storedNode log h with
    | .ok node => node.childHashes.all (· ∈ five)
    | .error e => e.isNotFound
  have hopens : (StoreFile.openOrCreate (volumeWith tangled) "nodes").toOption.any (fun x =>
      five.all (pointsInside (x.1.log x.2)) &&
        ((Database.new (x.1.log x.2)).survey (.filled 1)).1 == .ok ⟨3, [Hash.zero, .filled 4]⟩) = true := by
    decide +kernel
  have hload : Config.load (volumeWith tangled) (Path.ofString "nodes") = .ok Config.standard := by decide +kernel
  have hhash : Hash.ofHex (Hash.filled 1).toHex = .ok (.filled 1) := by decide +kernel
  cases hopen : StoreFile.openOrCreate (volumeWith tangled) "nodes" with
  | error e =>
    rw [hopen] at hopens
    cases hopens
  | ok x =>
    obtain ⟨file, opened⟩ := x
    rw [hopen] at hopens
    obtain ⟨hinside, hsurvey⟩ := (Bool.and_eq_true ..).mp hopens
    obtain ⟨hreach, hverify, hcode⟩ := verify_computes_reachability hload hopen hhash
    rw [← Database.new, eq_of_beq hsurvey] at hreach hverify hcode
    -- nothing else can be reached than the five hashes, and what is stored of them decodes
    have hfive : ∀ h ∈ five, pointsInside (file.log opened) h = true := List.all_eq_true.1 hinside
    have hmem : ∀ h, ReflTransGen (Links (file.log opened)) (.filled 1) h → h ∈ five := by
      intro h hr
      induction hr with
      | refl => exact List.mem_cons_self
      | @tail p c _ hpc ih =>
        obtain ⟨node, hnode, hc⟩ := hpc
        have hp := hfive p ih
        simp only [pointsInside, hnode] at hp
        exact of_decide_eq_true (List.all_eq_true.1 hp c hc)
    have hdecodes : ∀ h, ReflTransGen (Links (file.log opened)) (.filled 1) h → StoredFor (file.log opened) h →
        ∃ node, storedNode (file.log opened) h = .ok node := by
      intro h hr hstored
      cases hnode : storedNode (file.log opened) h with
      | ok node => exact ⟨node, rfl⟩
      | error e =>
        have hp := hfive h (hmem h hr)
        simp only [pointsInside, hnode] at hp
        exact absurd hstored (not_storedFor_iff.2 ⟨e, hnode, hp⟩)
    obtain ⟨survey, hok, hsurveyed⟩ := hreach.decodes hdecodes
    cases hok
    refine ⟨file, opened, rfl, hsurveyed, hverify, fun format hzero => ?_⟩
    obtain ⟨survey, hok, hnone⟩ := (hcode format).1 hzero
    cases hok
    cases hnone

/-- The empty node, stored under the key of the meta-root. -/
def metaRootStored : List Put := [⟨Hash.zero.bytes, TrieNode.empty.encode⟩]

/-- **A stored value is reported missing** if it stands under the key of the meta-root,
though it decodes. It has no children, so it is all that can be reached. -/
theorem verify_misses_metaRoot :
    ∃ file opened, StoreFile.openOrCreate (volumeWith metaRootStored) "nodes" = .ok (file, opened) ∧
      KeyValueStore.get (file.log opened) Hash.zero.bytes = .ok (some TrieNode.empty.encode) ∧
      Database.decoded TrieNode.empty.encode = .ok TrieNode.empty ∧ TrieNode.empty.childHashes = [] ∧
      (verify (volumeWith metaRootStored) "nodes" Hash.zero.toHex).1 = .ok (.surveyed Hash.zero ⟨0, [Hash.zero]⟩) := by
  have hopens : (StoreFile.openOrCreate (volumeWith metaRootStored) "nodes").toOption.any (fun x =>
      KeyValueStore.get (x.1.log x.2) Hash.zero.bytes == .ok (some TrieNode.empty.encode) &&
        ((Database.new (x.1.log x.2)).survey Hash.zero).1 == .ok ⟨0, [Hash.zero]⟩) = true := by
    decide +kernel
  have hload : Config.load (volumeWith metaRootStored) (Path.ofString "nodes") = .ok Config.standard := by
    decide +kernel
  have hhash : Hash.ofHex Hash.zero.toHex = .ok Hash.zero := by decide +kernel
  cases hopen : StoreFile.openOrCreate (volumeWith metaRootStored) "nodes" with
  | error e =>
    rw [hopen] at hopens
    cases hopens
  | ok x =>
    obtain ⟨file, opened⟩ := x
    rw [hopen] at hopens
    obtain ⟨hget, hsurvey⟩ := (Bool.and_eq_true ..).mp hopens
    have hverify := verify_eq hload hopen hhash
    rw [← Database.new, eq_of_beq hsurvey] at hverify
    exact ⟨file, opened, rfl, eq_of_beq hget, by decide, rfl, hverify⟩

end CommandLine

end MerkleBuffer
