/-
Inserting values, from end to end.

The command that inserts a list of values stores the nodes of its trie in a store file
that any commands have made, or makes the file. Of what the file holds, the first value of
each key counts, and commands only add to it, so the trie is there from then on
(`HasTrie`): later commands find each node, count them all, and have nothing to add when
the same list is inserted again.
-/
import MerkleBuffer.Proofs.CommandLine.Invocations
import MerkleBuffer.Proofs.VerifyReachability

namespace MerkleBuffer

open Relation (ReflTransGen)
open TrieNode (valueRoot valueRoot_mem valueTrie mem_valueTrie numberedLeaves slotsAbove maxValues Argument texts
  Insertable HashedApart HitsMetaRoot not_hitsMetaRoot_iff)

/-! ## A trie that is stored -/

section Stored

variable {values : List String} {lists : List (List String)}

/-- A store has every node of the trie of a list of values. -/
def HasTrie {σ : Type} [KeyValueStore σ] (s : σ) (values : List String) : Prop :=
  ∀ node ∈ valueTrie values, KeyValueStore.get s node.hash.bytes = .ok (some node.encode)

namespace HasTrie

variable {σ : Type} [KeyValueStore σ] {s : σ} {db : Database σ} {node : TrieNode} {h : Hash}

theorem storedNode_eq (hs : HasTrie s values) (hv : Insertable values) (hz : ¬ HitsMetaRoot values)
    (hnode : node ∈ valueTrie values) : storedNode s node.hash = .ok node :=
  storedNode_of_get (not_hitsMetaRoot_iff.1 hz node hnode) (hv.fits hnode) (hs node hnode)

theorem reach_iff (hs : HasTrie s values) (hv : Insertable values) (hz : ¬ HitsMetaRoot values) :
    ReflTransGen (Links s) (valueRoot values).hash h ↔ h ∈ (valueTrie values).map TrieNode.hash := by
  constructor
  · intro hreach
    induction hreach with
    | refl => exact List.mem_map_of_mem (valueRoot_mem values)
    | @tail p c _ hpc ih =>
      obtain ⟨node, hnode, rfl⟩ := List.mem_map.1 ih
      obtain ⟨stored, hstored, hc⟩ := hpc
      rw [hs.storedNode_eq hv hz hnode] at hstored
      cases hstored
      rcases mem_valueTrie.1 hnode with hleaf | rfl
      · obtain ⟨place, value, -, rfl⟩ := TrieNode.mem_numberedLeaves.1 hleaf
        simp [TrieNode.numberedLeaf, TrieNode.valueLeaf, TrieNode.childHashes, Slot.target?] at hc
      · rw [TrieNode.childHashes_valueRoot hv.length_le] at hc
        exact List.map_subset _ (List.subset_append_left _ _) hc
  · intro hmem
    obtain ⟨node, hnode, rfl⟩ := List.mem_map.1 hmem
    rcases mem_valueTrie.1 hnode with hleaf | rfl
    · refine .single ⟨valueRoot values, hs.storedNode_eq hv hz (valueRoot_mem values), ?_⟩
      rw [TrieNode.childHashes_valueRoot hv.length_le]
      exact List.mem_map_of_mem hleaf
    · exact .refl

/-- **A survey from the root finds one node for each value and one more**, and misses none. -/
theorem survey_eq [CountedStore σ] (hs : HasTrie s values) (hv : Insertable values) (ha : HashedApart values lists)
    (hz : ¬ HitsMetaRoot values) (hu : Unstaged s db) :
    (db.survey (valueRoot values).hash).1 = .ok ⟨values.length + 1, []⟩ := by
  have hstored : ∀ h, ReflTransGen (Links s) (valueRoot values).hash h → ∃ node, storedNode s h = .ok node := by
    intro h hreach
    obtain ⟨node, hnode, rfl⟩ := List.mem_map.1 ((hs.reach_iff hv hz).1 hreach)
    exact ⟨node, hs.storedNode_eq hv hz hnode⟩
  rcases Database.survey_spec hu (valueRoot values).hash with ⟨found, missing, hok, hsurveyed⟩ | ⟨h, e, hreach, he, -⟩
  · have hperm : found.Perm ((valueTrie values).map TrieNode.hash) := by
      refine (List.perm_ext_iff_of_nodup hsurveyed.nodup_found (ha.nodup_hashes hv)).2 fun h => ?_
      rw [hsurveyed.mem_found, ← hs.reach_iff hv hz]
      exact ⟨And.left, fun hreach => ⟨hreach, hstored h hreach⟩⟩
    have hlength : found.length = values.length + 1 := by
      rw [hperm.length_eq, List.length_map, valueTrie, List.length_append, TrieNode.length_numberedLeaves]
      rfl
    have hmissing : missing = [] := by
      refine List.eq_nil_iff_forall_not_mem.2 fun h hh => ?_
      obtain ⟨hreach, e, he, -⟩ := (hsurveyed.mem_missing h).1 hh
      obtain ⟨node, hnode⟩ := hstored h hreach
      rw [hnode] at he
      cases he
    rw [hok, hlength, hmissing]
  · obtain ⟨node, hnode⟩ := hstored h hreach
    rw [hnode] at he
    cases he

end HasTrie

end Stored

/-! ## What a store file holds -/

namespace RecordLog.Holds

variable [FrameCodec] {log after : RecordLog} {ps qs : List Put} {key value : Bytes}

/-- What was found first is found from then on. -/
theorem get_kept (h : LawfulStore.Holds log ps) (h' : LawfulStore.Holds after qs) (hkept : ps <+: qs)
    (hget : KeyValueStore.get log key = .ok (some value)) : KeyValueStore.get after key = .ok (some value) := by
  obtain ⟨more, rfl⟩ := hkept
  have hfirst : (valuesOf key ps).head? = some value := Except.ok.inj ((get h key).symm.trans hget)
  have hget' : KeyValueStore.get after key = .ok (valuesOf key (ps ++ more)).head? := get h' key
  rw [hget', valuesOf_append, List.head?_append, hfirst]
  rfl

/-- Puts of keys that are stored change nothing. -/
theorem eq_of_known (h : LawfulStore.Holds log ps) (h' : LawfulStore.Holds after (ps ++ qs))
    (hknown : ∀ q ∈ qs, q.key ∈ ps.map (·.key)) : after = log := by
  have hnone : firstPuts ((recordsOf ps).map (·.key)) qs = [] := by
    refine List.eq_nil_iff_forall_not_mem.2 fun q hq => ?_
    have hnew := (nodup_firstPuts _ qs).2 q.key (List.mem_map_of_mem hq)
    exact hnew (mem_keys_recordsOf.2 (hknown q ((firstPuts_sublist _ qs).subset hq)))
  rw [h'.1, h.1, recordsOf_append, hnone, List.map_nil, List.append_nil]

/-- A trie is stored once its nodes have been put behind nodes of other tries, if none of
them can be mistaken for one of its own. -/
theorem hasTrie {values : List String} {lists : List (List String)} (h : LawfulStore.Holds log (ps ++ qs))
    (ha : HashedApart values lists) (hps : ps ⊆ CommandLine.triePuts lists)
    (hqs : ∀ p, p ∈ qs ↔ p ∈ (valueTrie values).map TrieNode.put) : HasTrie log values := by
  intro node hnode
  have hagree : ∀ p ∈ ps ++ qs, p.key = node.put.key → p.value = node.put.value := by
    intro p hp hkey
    obtain ⟨list, hlist, other, hother, rfl⟩ : ∃ list ∈ values :: lists, ∃ other ∈ valueTrie list, other.put = p := by
      rcases List.mem_append.1 hp with hp | hp
      · obtain ⟨other, hother, rfl⟩ := List.mem_map.1 (hps hp)
        obtain ⟨list, hlist, hother⟩ := List.mem_flatMap.1 hother
        exact ⟨list, List.mem_cons_of_mem _ hlist, other, hother, rfl⟩
      · obtain ⟨other, hother, rfl⟩ := List.mem_map.1 ((hqs p).1 hp)
        exact ⟨values, List.mem_cons_self, other, hother, rfl⟩
    exact ha node hnode list hlist other hother (Hash.ext hkey)
  have hput : node.put ∈ ps ++ qs := List.mem_append_right _ ((hqs _).2 (List.mem_map_of_mem hnode))
  exact LawfulStore.get_some h hput hagree

end RecordLog.Holds

namespace CommandLine

/-! ## Single commands -/

section Commands

variable [FrameCodec] {v opened : Volume} {path text : String} {config : Config} {file : StoreFile} {h : Hash}
  {encoded : Bytes} {ps : List Put} {values : List String} {lists : List (List String)}

theorem get_of_stored (hload : Config.load v (Path.ofString path) = .ok config)
    (hopen : StoreFile.openOrCreate v path = .ok (file, opened)) (hhash : Hash.ofHex text = .ok h)
    (hz : h ≠ Hash.zero) (hget : KeyValueStore.get (file.log opened) h.bytes = .ok (some encoded)) :
    (get v path text).1 = .ok (.node h encoded) := by
  have hnode := ((Unstaged.ofValid (file.log opened) config (Config.valid_of_load hload)).node_ok_iff h _).2 ⟨hz, hget⟩
  rw [get, onDatabase_eq hload hopen, fromHash_eq hhash]
  dsimp only
  generalize (Database.ofValid (file.log opened) config _).node h = outcome at hnode
  obtain ⟨result | e, after⟩ := outcome
  · cases hnode
  · cases hnode
    rfl

theorem stored_of_get {result : Result} (hload : Config.load v (Path.ofString path) = .ok config)
    (hopen : StoreFile.openOrCreate v path = .ok (file, opened)) (hresult : (get v path text).1 = .ok result)
    (hok : result.ok = true) : ∃ h encoded, Hash.ofHex text = .ok h ∧ h ≠ Hash.zero ∧
      KeyValueStore.get (file.log opened) h.bytes = .ok (some encoded) ∧ result = .node h encoded := by
  cases hhash : Hash.ofHex text with
  | error fault =>
    rw [get, onDatabase_eq hload hopen, fromHash, hashOf, hhash] at hresult
    cases hresult
  | ok h =>
    have hnode := (Unstaged.ofValid (file.log opened) config (Config.valid_of_load hload)).node_ok_iff h
    rw [get, onDatabase_eq hload hopen, fromHash_eq hhash] at hresult
    dsimp only at hresult
    generalize (Database.ofValid (file.log opened) config _).node h = outcome at hnode hresult
    obtain ⟨e | encoded, after⟩ := outcome
    · dsimp only at hresult
      split at hresult
      · cases hresult
        cases hok
      · cases hresult
    · cases hresult
      obtain ⟨hz, hget⟩ := (hnode encoded).1 rfl
      exact ⟨h, encoded, rfl, hz, hget, rfl⟩

/-- **The command that inserts values** stores the nodes of the trie behind what is there.
If they are all there already, the volume stays as it is. -/
theorem insert_stores_trie [FrameCodec.Bounded] (ho : v.Orderly) (hs : StoreAt v path ps)
    (hload : Config.load v (Path.ofString path) = .ok config) (hv : Insertable values) (ha : HashedApart values lists)
    (hz : ¬ HitsMetaRoot values) :
    ∃ qs, (∀ p, p ∈ qs ↔ p ∈ (valueTrie values).map TrieNode.put) ∧
      (insert v path values).1 = .ok (.inserted (valueRoot values).hash (values.length + 1)) ∧
      (insert v path values).2.Orderly ∧ StoreAt (insert v path values).2 path (ps ++ qs) ∧
      Config.load (insert v path values).2 (Path.ofString path) = .ok config ∧
      ((∀ q ∈ qs, q.key ∈ ps.map (·.key)) → (insert v path values).2 = v) := by
  obtain ⟨file, opened, hopened⟩ := hs.opens ho
  have hfits : ∀ node ∈ valueTrie values, RegularStore.Fits RecordLog node.put := fun node hnode => hv.record_fits hnode
  obtain ⟨qs, hok, hwrote, hqs⟩ := Database.insertValues_ok
    (.ofValid (file.log opened) config (Config.valid_of_load hload)) rfl hopened.holds hv ha
    (not_hitsMetaRoot_iff.1 hz) hfits
  have hinsert : insert v path values = (.ok (.inserted (valueRoot values).hash (values.length + 1)),
      (file.update opened ((Database.ofValid (file.log opened) config
        (Config.valid_of_load hload)).insertValues values).2.disk).2) := by
    rw [insert, if_neg (Nat.not_lt.2 hv.length_le), onDatabase_eq hload hopened.opens]
    dsimp only
    generalize (Database.ofValid (file.log opened) config _).insertValues values = outcome at hok
    obtain ⟨result | root, after⟩ := outcome
    · cases hok
    · cases hok
      rfl
  have hholds := hwrote.holds hopened.holds
  obtain ⟨horderly, hstores⟩ := hopened.update _ _ hholds
  rw [hinsert]
  refine ⟨qs, hqs, rfl, horderly, hstores, (hopened.settings _).trans hload, fun hknown => ?_⟩
  have hroot : (valueRoot values).put ∈ qs := (hqs _).2 (List.mem_map_of_mem (valueRoot_mem values))
  have hne : ps ≠ [] := by
    rintro rfl
    exact absurd (hknown _ hroot) List.not_mem_nil
  rw [RecordLog.Holds.eq_of_known hopened.holds hholds hknown]
  exact hopened.same hne

end Commands

/-! ## From one invocation to the next -/

/-- What is found on a volume `u` of the values that were inserted on a volume `v`. -/
structure FoundLater [FrameCodec] (v u : Volume) (path : String) (values : List String) : Prop where
  /-- The trie is complete: one node for each value, and one above them -/
  verified : (verify u path (valueRoot values).hash.toHex).1 =
    .ok (.surveyed (valueRoot values).hash ⟨values.length + 1, []⟩)
  /-- The root decodes to a branch that holds the hashes of the leaves in their order -/
  root : ∃ encoded children, (get u path (valueRoot values).hash.toHex).1 =
      .ok (.node (valueRoot values).hash encoded) ∧
    TrieNode.decode encoded = .ok (.branch [] children none) ∧
    children.slots = slotsAbove ((numberedLeaves values).map TrieNode.hash)
  /-- Each of these hashes is that of a leaf, with a value and its place -/
  leaves : ∀ place value, values[place]? = some value → ∃ h encoded,
    ((numberedLeaves values).map TrieNode.hash)[place]? = some h ∧
    (get u path h.toHex).1 = .ok (.node h encoded) ∧
    TrieNode.decode encoded = .ok (.valueLeaf [UInt8.ofNat place] (utf8 value))
  /-- What could be read before reads the same -/
  kept : ∀ text result, (get v path text).1 = .ok result → result.ok = true → (get u path text).1 = .ok result
  /-- The same values give the same result, and change nothing -/
  again : insert u path values = (.ok (.inserted (valueRoot values).hash (values.length + 1)), u)

/-- Values are not inserted because a node of their trie has the hash of the meta-root. -/
structure Refused [FrameCodec] (v : Volume) (path : String) (values : List String) : Prop where
  hits : HitsMetaRoot values
  result : (insert v path values).1 = .error (.error (.metaRoot .insert))
  /-- What could be read before reads the same -/
  kept : ∀ text result, (get v path text).1 = .ok result → result.ok = true →
    (get (insert v path values).2 path text).1 = .ok result

section Later

variable [FrameCodec] {v mid u : Volume} {path text : String} {config config' : Config} {ps qs rest : List Put}
  {values : List String} {lists : List (List String)} {result : Result}

theorem get_kept (ho : v.Orderly) (hs : StoreAt v path ps) (hload : Config.load v (Path.ofString path) = .ok config)
    (ho' : u.Orderly) (hs' : StoreAt u path qs) (hload' : Config.load u (Path.ofString path) = .ok config')
    (hkept : ps <+: qs) (hresult : (get v path text).1 = .ok result) (hok : result.ok = true) :
    (get u path text).1 = .ok result := by
  obtain ⟨file, opened, hopened⟩ := hs.opens ho
  obtain ⟨file', opened', hopened'⟩ := hs'.opens ho'
  obtain ⟨h, encoded, hhash, hz, hget, rfl⟩ := stored_of_get hload hopened.opens hresult hok
  exact get_of_stored hload' hopened'.opens hhash hz (RecordLog.Holds.get_kept hopened.holds hopened'.holds hkept hget)

theorem Refused.of_hits (ho : v.Orderly) (hs : StoreAt v path ps)
    (hload : Config.load v (Path.ofString path) = .ok config) (hv : Insertable values) (hhits : HitsMetaRoot values) :
    Refused v path values := by
  obtain ⟨file, opened, hopened⟩ := hs.opens ho
  have hinsert : insert v path values =
      (.error (.error (.metaRoot .insert)), (file.update opened (file.log opened)).2) := by
    obtain ⟨buffer, hfails⟩ := Database.insertValues_refused
      (.ofValid (file.log opened) config (Config.valid_of_load hload)) hhits
    rw [insert, if_neg (Nat.not_lt.2 hv.length_le), onDatabase_eq hload hopened.opens]
    simp only [hfails]
    rfl
  obtain ⟨ho', hs'⟩ := hopened.update _ _ hopened.holds
  have hload' := (hopened.settings (file.log opened)).trans hload
  refine ⟨hhits, by rw [hinsert], fun text result hresult hok => ?_⟩
  rw [hinsert]
  exact get_kept ho hs hload ho' hs' hload' (List.prefix_refl ps) hresult hok

/-- A trie that was put behind what a store file held before is found in it. -/
theorem FoundLater.of_stores [FrameCodec.Bounded] (ho : v.Orderly) (hs : StoreAt v path ps)
    (hload : Config.load v (Path.ofString path) = .ok config) (homid : mid.Orderly)
    (hsmid : StoreAt mid path (ps ++ qs)) (ho' : u.Orderly) (hs' : StoreAt u path (ps ++ qs ++ rest))
    (hload' : Config.load u (Path.ofString path) = .ok config')
    (hps : ps ⊆ triePuts lists) (hqs : ∀ p, p ∈ qs ↔ p ∈ (valueTrie values).map TrieNode.put)
    (hv : Insertable values) (ha : HashedApart values lists) (hz : ¬ HitsMetaRoot values) :
    FoundLater v u path values := by
  obtain ⟨file, opened, hopened⟩ := hs'.opens ho'
  obtain ⟨oldFile, oldOpened, hmid⟩ := hsmid.opens homid
  have hmidTrie : HasTrie (oldFile.log oldOpened) values := RecordLog.Holds.hasTrie hmid.holds ha hps hqs
  have htrie : HasTrie (file.log opened) values := fun node hnode =>
    RecordLog.Holds.get_kept hmid.holds hopened.holds (List.prefix_append _ rest) (hmidTrie node hnode)
  have hshown : ∀ node ∈ valueTrie values, (get u path node.hash.toHex).1 = .ok (.node node.hash node.encode) := by
    intro node hnode
    exact get_of_stored hload' hopened.opens node.hash.ofHex_toHex (not_hitsMetaRoot_iff.1 hz node hnode)
      (htrie node hnode)
  exact {
    verified := by
      rw [verify_eq hload' hopened.opens (valueRoot values).hash.ofHex_toHex,
        htrie.survey_eq hv ha hz (.ofValid _ config' _)]
      rfl
    root := by
      obtain ⟨children, hbranch, hslots⟩ := TrieNode.valueRoot_eq hv.length_le
      refine ⟨_, children, hshown _ (valueRoot_mem values), ?_, hslots⟩
      rw [← hbranch]
      exact TrieNode.decode_encode (hv.fits (valueRoot_mem values))
    leaves := fun place value hvalue => by
      have hleaf : TrieNode.numberedLeaf place value ∈ valueTrie values :=
        mem_valueTrie.2 (.inl (TrieNode.mem_numberedLeaves.2 ⟨place, value, hvalue, rfl⟩))
      refine ⟨_, _, ?_, hshown _ hleaf, TrieNode.decode_encode (hv.fits hleaf)⟩
      rw [List.getElem?_map, numberedLeaves, List.getElem?_mapIdx, hvalue]
      rfl
    kept := fun text result hresult hok => by
      have hprefix : ps <+: ps ++ qs ++ rest := (List.prefix_append ps qs).trans (List.prefix_append _ rest)
      exact get_kept ho hs hload ho' hs' hload' hprefix hresult hok
    again := by
      obtain ⟨qs', hqs', hresult, -, -, -, hsame⟩ := insert_stores_trie ho' hs' hload' hv ha hz
      refine Prod.ext hresult (hsame fun q hq => List.mem_map_of_mem ?_)
      exact List.mem_append_left rest (List.mem_append_right ps ((hqs q).2 ((hqs' q).1 hq))) }

end Later

end CommandLine

end MerkleBuffer
