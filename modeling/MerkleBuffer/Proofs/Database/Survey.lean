/-
What a survey of a store reports.

A survey visits each hash once and leaves the children of a node that it has found to be
visited (`Surveying`), so at its end it has visited what can be reached from its root and
nothing else. Every visit that finds a node uses up one of the keys of the store, and it
adds at most 256 hashes to those that wait: this bounds the steps (`surveyFrom_spec`).
The result is about the store alone, whatever the store holds (`survey_spec`).
-/
import MerkleBuffer.Database.Survey
import MerkleBuffer.Proofs.Database.Runs
import MerkleBuffer.Proofs.Store.Counted
import MerkleBuffer.Proofs.Trie.Codec
import Mathlib.Logic.Relation

namespace MerkleBuffer

open Relation (ReflTransGen)

variable {σ : Type} [KeyValueStore σ]

theorem TrieNode.length_childHashes_le (node : TrieNode) : node.childHashes.length ≤ Database.maxChildren := by
  cases node with
  | branch stem children value => exact (List.length_filterMap_le ..).trans children.length_slots_le
  | leaf suffix slot => cases slot <;> simp [childHashes, Slot.target?, Database.maxChildren]
  | empty => exact Nat.zero_le _

/-! ## What a store has under a hash -/

/-- The trie node that a store has under a hash. -/
def storedNode (s : σ) (h : Hash) : Except Error TrieNode :=
  if h.isZero then .error (.notFound .metaRoot)
  else
    match KeyValueStore.get s h.bytes with
    | .error e => .error e
    | .ok none => .error (.notFound (.node h))
    | .ok (some encoded) => Database.decoded encoded

/-- A store has a node under `h` that points to `c`. -/
def Links (s : σ) (h c : Hash) : Prop := ∃ node, storedNode s h = .ok node ∧ c ∈ node.childHashes

theorem get_of_storedNode {s : σ} {h : Hash} {node : TrieNode} (hnode : storedNode s h = .ok node) :
    ∃ value, KeyValueStore.get s h.bytes = .ok (some value) := by
  unfold storedNode at hnode
  split at hnode
  · cases hnode
  split at hnode
  · cases hnode
  · cases hnode
  · next encoded hget => exact ⟨encoded, hget⟩

theorem storedNode_zero (s : σ) : storedNode s Hash.zero = .error (.notFound .metaRoot) := rfl

theorem storedNode_of_get {s : σ} {h : Hash} {node : TrieNode} (hz : h ≠ Hash.zero) (hfits : node.Fits)
    (hget : KeyValueStore.get s h.bytes = .ok (some node.encode)) : storedNode s h = .ok node := by
  have hzero : ¬ h.isZero = true := fun heq => hz (Hash.isZero_iff.1 heq)
  rw [storedNode, if_neg hzero, hget]
  simp only [Database.decoded, TrieNode.decode_encode hfits, Except.mapError]

/-- A database that stages nothing, with a clean cache that holds what the store holds. -/
structure Unstaged (s : σ) (db : Database σ) : Prop where
  disk : db.disk = s
  table : ∀ h : Hash, db.buffer.table[h]? = none
  cached : ∀ c ∈ db.cleans, c.All fun h value => KeyValueStore.get s h.bytes = .ok (some value)

namespace Unstaged

variable {s : σ} {db : Database σ}

theorem ofValid (s : σ) (config : Config) (hv : config.Valid) : Unstaged s (.ofValid s config hv) where
  disk := rfl
  table h := by simp [Database.ofValid, Buffer.empty]
  cached := config.cleanCache_all _

theorem trieNode (hu : Unstaged s db) (h : Hash) :
    (db.trieNode h).1 = storedNode s h ∧ Unstaged s (db.trieNode h).2 := by
  constructor
  · unfold Database.trieNode storedNode
    split
    · rfl
    split
    · next encoded after hcached =>
      obtain ⟨cleans, -, hall⟩ := Database.cached?_spec hcached
      rw [(hall _ hu.cached).1]
    · simp only [hu.table h, Database.load, hu.disk]
      cases KeyValueStore.get s h.bytes with
      | error e => rfl
      | ok value => cases value <;> rfl
  · obtain ⟨cleans, heq, hall⟩ := run_lookup (.lookupTrieNode h) h (.inr rfl) db
    have hafter : (db.trieNode h).2 = { db with cleans } := heq
    rw [hafter]
    exact ⟨hu.disk, hu.table, hall _ (fun value hget => hu.disk ▸ hget) hu.cached⟩

theorem node_ok_iff (hu : Unstaged s db) (h : Hash) (encoded : Bytes) :
    (db.node h).1 = .ok encoded ↔ h ≠ Hash.zero ∧ KeyValueStore.get s h.bytes = .ok (some encoded) := by
  unfold Database.node
  by_cases hz : h.isZero = true
  · have hzero : h = Hash.zero := Hash.isZero_iff.1 hz
    simp [hzero, show Hash.zero.isZero = true from rfl]
  have hne : h ≠ Hash.zero := fun heq => hz (Hash.isZero_iff.2 heq)
  rw [if_neg hz]
  split
  · next found after hcached =>
    obtain ⟨cleans, -, hall⟩ := Database.cached?_spec hcached
    rw [(hall _ hu.cached).1]
    simp [hne]
  · simp only [hu.table h, Database.load, hu.disk]
    cases KeyValueStore.get s h.bytes with
    | error e => simp
    | ok value => cases value <;> simp [hne]

theorem disk_node (hu : Unstaged s db) (h : Hash) : (db.node h).2.disk = s := by
  obtain ⟨cleans, heq, -⟩ := run_lookup (.lookup h) h (.inl rfl) db
  have hafter : (db.node h).2 = { db with cleans } := heq
  rw [hafter]
  exact hu.disk

theorem surveyFrom (hu : Unstaged s db) (fuel : Nat) (seen : Std.ExtTreeSet Hash) (missing pending : List Hash) :
    Unstaged s (db.surveyFrom fuel seen missing pending).2 := by
  fun_induction Database.surveyFrom fuel db seen missing pending with
  | case1 => exact hu
  | case2 => exact hu
  | case3 db seen missing fuel h pending _ ih => exact ih hu
  | case4 db seen missing fuel h pending _ node after heq ih =>
    have hafter := (hu.trieNode h).2
    rw [heq] at hafter
    exact ih hafter
  | case5 db seen missing fuel h pending _ e after heq _ ih =>
    have hafter := (hu.trieNode h).2
    rw [heq] at hafter
    exact ih hafter
  | case6 db seen missing fuel h pending _ e after heq _ =>
    have hafter := (hu.trieNode h).2
    rwa [heq] at hafter

end Unstaged

/-! ## The steps of a survey -/

section Steps

variable {s : σ} {root h : Hash} {found missing pending : List Hash} {seen : Std.ExtTreeSet Hash}
  {node : TrieNode} {e : Error}

/-- A survey of `s` from `root` that has found the nodes of `found`: whatever the root
leads to is seen, waits to be visited, or lies behind something that does. -/
structure Surveying (s : σ) (root : Hash) (found missing : List Hash) (seen : Std.ExtTreeSet Hash)
    (pending : List Hash) : Prop where
  size : seen.size = found.length + missing.length
  nodup : (found ++ missing).Nodup
  seen_iff : ∀ h, h ∈ seen ↔ h ∈ found ∨ h ∈ missing
  present : ∀ h ∈ found, ∃ node, storedNode s h = .ok node ∧ ∀ c ∈ node.childHashes, c ∈ seen ∨ c ∈ pending
  absent : ∀ h ∈ missing, ∃ e, storedNode s h = .error e ∧ e.isNotFound = true
  reached : ∀ h, h ∈ seen ∨ h ∈ pending → ReflTransGen (Links s) root h
  root_mem : root ∈ seen ∨ root ∈ pending

namespace Surveying

theorem start (s : σ) (root : Hash) : Surveying s root [] [] ∅ [root] where
  size := rfl
  nodup := .nil
  seen_iff h := by simp
  present h hh := by simp at hh
  absent h hh := by simp at hh
  reached h hh := by
    obtain rfl : h = root := by simpa using hh
    exact .refl
  root_mem := .inr List.mem_cons_self

theorem mem_insert_iff {k : Hash} : k ∈ seen.insert h ↔ k = h ∨ k ∈ seen := by
  rw [Std.ExtTreeSet.mem_insert, Std.LawfulEqCmp.compare_eq_iff_eq, eq_comm]

theorem size_insert (hseen : h ∉ seen) : (seen.insert h).size = seen.size + 1 := by
  rw [Std.ExtTreeSet.size_insert, if_neg (mt Std.ExtTreeSet.contains_iff_mem.1 hseen)]

theorem mem_skipped {k : Hash} (hseen : h ∈ seen) (hk : k ∈ seen ∨ k ∈ h :: pending) : k ∈ seen ∨ k ∈ pending := by
  rcases hk with hk | hk
  · exact .inl hk
  · rcases List.mem_cons.1 hk with rfl | hk
    · exact .inl hseen
    · exact .inr hk

theorem mem_visited {k : Hash} (more : List Hash) (hk : k ∈ seen ∨ k ∈ h :: pending) :
    k ∈ seen.insert h ∨ k ∈ more ++ pending :=
  have hmore : k ∈ seen.insert h ∨ k ∈ h :: pending := hk.imp_left fun hk => mem_insert_iff.2 (.inr hk)
  (mem_skipped (mem_insert_iff.2 (.inl rfl)) hmore).imp_right (List.mem_append_right more)

/-- A hash that was seen is not visited again. -/
theorem skip (hs : Surveying s root found missing seen (h :: pending)) (hseen : h ∈ seen) :
    Surveying s root found missing seen pending where
  size := hs.size
  nodup := hs.nodup
  seen_iff := hs.seen_iff
  present k hk := by
    obtain ⟨node, hnode, hkids⟩ := hs.present k hk
    exact ⟨node, hnode, fun c hc => mem_skipped hseen (hkids c hc)⟩
  absent := hs.absent
  reached k hk := hs.reached k (hk.imp_right (List.mem_cons_of_mem _))
  root_mem := mem_skipped hseen hs.root_mem

/-- A node is found, and its children are to be visited. -/
theorem visit (hs : Surveying s root found missing seen (h :: pending)) (hseen : h ∉ seen)
    (hnode : storedNode s h = .ok node) :
    Surveying s root (h :: found) missing (seen.insert h) (node.childHashes.reverse ++ pending) where
  size := by
    rw [size_insert hseen, hs.size, List.length_cons]
    omega
  nodup := by
    rw [List.cons_append, List.nodup_cons, List.mem_append, ← hs.seen_iff]
    exact ⟨hseen, hs.nodup⟩
  seen_iff k := by rw [mem_insert_iff, hs.seen_iff, List.mem_cons, or_assoc]
  present k hk := by
    rcases List.mem_cons.1 hk with rfl | hk
    · exact ⟨node, hnode, fun c hc => .inr (List.mem_append_left _ (List.mem_reverse.2 hc))⟩
    · obtain ⟨other, hother, hkids⟩ := hs.present k hk
      exact ⟨other, hother, fun c hc => mem_visited _ (hkids c hc)⟩
  absent := hs.absent
  reached k hk := by
    have hh : ReflTransGen (Links s) root h := hs.reached h (.inr List.mem_cons_self)
    rcases hk with hk | hk
    · rcases mem_insert_iff.1 hk with rfl | hk
      · exact hh
      · exact hs.reached k (.inl hk)
    · rcases List.mem_append.1 hk with hk | hk
      · exact hh.tail ⟨node, hnode, List.mem_reverse.1 hk⟩
      · exact hs.reached k (.inr (List.mem_cons_of_mem _ hk))
  root_mem := mem_visited _ hs.root_mem

/-- A hash is missing. -/
theorem miss (hs : Surveying s root found missing seen (h :: pending)) (hseen : h ∉ seen)
    (hnode : storedNode s h = .error e) (he : e.isNotFound = true) :
    Surveying s root found (missing ++ [h]) (seen.insert h) pending where
  size := by
    rw [size_insert hseen, hs.size, List.length_append, List.length_singleton]
    omega
  nodup := by
    rw [← List.append_assoc, List.nodup_append]
    refine ⟨hs.nodup, by simp, fun a ha b hb hab => hseen ((hs.seen_iff h).2 ?_)⟩
    obtain rfl : b = h := by simpa using hb
    exact List.mem_append.1 (hab ▸ ha)
  seen_iff k := by
    rw [mem_insert_iff, hs.seen_iff, List.mem_append, List.mem_singleton, or_comm, or_assoc]
  present k hk := by
    obtain ⟨other, hother, hkids⟩ := hs.present k hk
    exact ⟨other, hother, fun c hc => mem_visited [] (hkids c hc)⟩
  absent k hk := by
    rcases List.mem_append.1 hk with hk | hk
    · exact hs.absent k hk
    · obtain rfl : k = h := by simpa using hk
      exact ⟨e, hnode, he⟩
  reached k hk := by
    rcases hk with hk | hk
    · rcases mem_insert_iff.1 hk with rfl | hk
      · exact hs.reached k (.inr List.mem_cons_self)
      · exact hs.reached k (.inl hk)
    · exact hs.reached k (.inr (List.mem_cons_of_mem _ hk))
  root_mem := mem_visited [] hs.root_mem

/-- At the end, everything that the root leads to has been visited. -/
theorem closed (hs : Surveying s root found missing seen []) (hreach : ReflTransGen (Links s) root h) : h ∈ seen := by
  induction hreach with
  | refl => simpa using hs.root_mem
  | @tail p c _ hpc ih =>
    obtain ⟨node, hnode, hc⟩ := hpc
    rcases (hs.seen_iff p).1 ih with hp | hp
    · obtain ⟨node', hnode', hkids⟩ := hs.present p hp
      rw [hnode] at hnode'
      cases hnode'
      simpa using hkids c hc
    · obtain ⟨e, he, -⟩ := hs.absent p hp
      rw [hnode] at he
      cases he

/-- What was seen and is not missing has been found. -/
theorem found_eq (hs : Surveying s root found missing seen pending) : seen.size - missing.length = found.length := by
  rw [hs.size, Nat.add_sub_cancel]

theorem length_found_le [CountedStore σ] (hs : Surveying s root found missing seen pending) :
    found.length ≤ KeyValueStore.size s := by
  have hnodup : (found.map Hash.bytes).Nodup :=
    (List.nodup_append.1 hs.nodup).1.map fun _ _ heq => Hash.ext heq
  have hle := CountedStore.length_le_size s hnodup fun key hkey => by
    obtain ⟨h, hh, rfl⟩ := List.mem_map.1 hkey
    obtain ⟨node, hnode, -⟩ := hs.present h hh
    exact get_of_storedNode hnode
  rwa [List.length_map] at hle

end Surveying

end Steps

/-! ## Whole surveys -/

section Whole

variable {s : σ} {db : Database σ} {root : Hash}

/-- A survey comes to an end, or it stops at a node that cannot be read, though it is
there. -/
theorem Database.surveyFrom_spec [CountedStore σ] {fuel : Nat} {found missing pending : List Hash}
    {seen : Std.ExtTreeSet Hash} (hu : Unstaged s db) (hs : Surveying s root found missing seen pending)
    (hfuel : pending.length + maxChildren * (KeyValueStore.size s - found.length) ≤ fuel) :
    (∃ found' missing' seen', (surveyFrom fuel db seen missing pending).1 = .ok ⟨found'.length, missing'⟩ ∧
        Surveying s root found' missing' seen' []) ∨
      ∃ h e, ReflTransGen (Links s) root h ∧ storedNode s h = .error e ∧ e.isNotFound = false ∧
        (surveyFrom fuel db seen missing pending).1 = .error e := by
  induction fuel generalizing db found pending missing seen with
  | zero =>
    obtain rfl : pending = [] := List.length_eq_zero_iff.1 (by omega)
    exact .inl ⟨found, missing, seen, congrArg (Except.ok <| Survey.mk · missing) hs.found_eq, hs⟩
  | succ fuel ih =>
    cases pending with
    | nil => exact .inl ⟨found, missing, seen, congrArg (Except.ok <| Survey.mk · missing) hs.found_eq, hs⟩
    | cons h pending =>
      rw [List.length_cons] at hfuel
      by_cases hseen : h ∈ seen
      · rw [surveyFrom, if_pos (Std.ExtTreeSet.contains_iff_mem.2 hseen)]
        exact ih hu (hs.skip hseen) (by omega)
      · obtain ⟨hresult, hafter⟩ := hu.trieNode h
        rw [surveyFrom, if_neg (fun hc => hseen (Std.ExtTreeSet.contains_iff_mem.1 hc))]
        split
        · next node after heq =>
          rw [heq] at hresult hafter
          have hnext := hs.visit hseen hresult.symm
          refine ih hafter hnext ?_
          have hle := hnext.length_found_le
          have hkids := node.length_childHashes_le
          unfold maxChildren at hfuel hkids ⊢
          rw [List.length_cons] at hle
          simp only [List.length_append, List.length_reverse, List.length_cons]
          omega
        · next e after heq =>
          rw [heq] at hresult hafter
          split
          · next he => exact ih hafter (hs.miss hseen hresult.symm he) (by omega)
          · next he =>
            exact .inr ⟨h, e, hs.reached h (.inr List.mem_cons_self), hresult.symm, by simpa using he, rfl⟩

/-- A survey found these nodes and missed these. -/
structure Surveyed (s : σ) (root : Hash) (found missing : List Hash) : Prop where
  nodup_found : found.Nodup
  nodup_missing : missing.Nodup
  mem_found : ∀ h, h ∈ found ↔ ReflTransGen (Links s) root h ∧ ∃ node, storedNode s h = .ok node
  mem_missing : ∀ h, h ∈ missing ↔
    ReflTransGen (Links s) root h ∧ ∃ e, storedNode s h = .error e ∧ e.isNotFound = true
  visited : ∀ h, ReflTransGen (Links s) root h → h ∈ found ∨ h ∈ missing

theorem Surveying.surveyed {found missing : List Hash} {seen : Std.ExtTreeSet Hash}
    (hs : Surveying s root found missing seen []) : Surveyed s root found missing where
  nodup_found := (List.nodup_append.1 hs.nodup).1
  nodup_missing := (List.nodup_append.1 hs.nodup).2.1
  mem_found h := by
    constructor
    · intro hh
      obtain ⟨node, hnode, -⟩ := hs.present h hh
      exact ⟨hs.reached h (.inl ((hs.seen_iff h).2 (.inl hh))), node, hnode⟩
    · rintro ⟨hreach, node, hnode⟩
      refine ((hs.seen_iff h).1 (hs.closed hreach)).resolve_right fun hh => ?_
      obtain ⟨e, he, -⟩ := hs.absent h hh
      rw [hnode] at he
      cases he
  mem_missing h := by
    constructor
    · intro hh
      exact ⟨hs.reached h (.inl ((hs.seen_iff h).2 (.inr hh))), hs.absent h hh⟩
    · rintro ⟨hreach, e, he, -⟩
      refine ((hs.seen_iff h).1 (hs.closed hreach)).resolve_left fun hh => ?_
      obtain ⟨node, hnode, -⟩ := hs.present h hh
      rw [hnode] at he
      cases he
  visited h hreach := (hs.seen_iff h).1 (hs.closed hreach)

/-- **What a survey reports**: how many nodes of the store can be reached from the root,
and which hashes that can be reached are missing; or that a node is there and cannot be
read. -/
theorem Database.survey_spec [CountedStore σ] (hu : Unstaged s db) (root : Hash) :
    (∃ found missing, (db.survey root).1 = .ok ⟨found.length, missing⟩ ∧ Surveyed s root found missing) ∨
      ∃ h e, ReflTransGen (Links s) root h ∧ storedNode s h = .error e ∧ e.isNotFound = false ∧
        (db.survey root).1 = .error e := by
  have hfuel : [root].length + maxChildren * (KeyValueStore.size s - ([] : List Hash).length) ≤ db.surveyBound := by
    rw [surveyBound, hu.disk]
    unfold maxChildren
    simp only [List.length_cons, List.length_nil]
    omega
  rcases surveyFrom_spec hu (.start s root) hfuel with ⟨found, missing, seen, hok, hs⟩ | hfailed
  · exact .inl ⟨found, missing, hok, hs.surveyed⟩
  · exact .inr hfailed

end Whole

end MerkleBuffer
