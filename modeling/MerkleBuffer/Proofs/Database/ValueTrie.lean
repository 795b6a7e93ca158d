/-
Storing the trie of a list of values.

A new database stages the nodes of the trie and nothing else (`Buffer.StagesOnly`), all of
them below the root, and commits the root. So whatever becomes of the commit, what it has
written are nodes of the trie (`insertValues_wrote`), and over a store that takes them it
succeeds and has written all of them (`insertValues_ok`).
-/
import MerkleBuffer.Proofs.Database.Flushes
import MerkleBuffer.Proofs.Trie.ValueTrie

namespace MerkleBuffer

open TrieNode (valueRoot valueRoot_mem valueTrie numberedLeaves Insertable HashedApart HitsMetaRoot
  not_hitsMetaRoot_iff)

/-! ## Staging -/

namespace Buffer

variable {b : Buffer} {nodes more : List TrieNode} {node : TrieNode} {h : Hash}

/-- Nothing but nodes of a list is staged, each under its hash. -/
structure StagesOnly (b : Buffer) (nodes : List TrieNode) : Prop where
  wellFormed : b.WellFormed
  preimages : b.preimages = []
  entry : ∀ (h : Hash) (e : Staged), b.table[h]? = some e → ∃ node ∈ nodes, node.hash = h ∧ e.node = .trie node

theorem StagesOnly.empty (nodes : List TrieNode) : Buffer.empty.StagesOnly nodes where
  wellFormed := .empty
  preimages := rfl
  entry h e he := by simp [Buffer.empty] at he

/-- A trie node is staged under its hash. -/
def insertNode (b : Buffer) (node : TrieNode) : Buffer := b.insert node.hash node.encode.length (.trie node)

theorem mem_insertNode (b : Buffer) (node : TrieNode) :
    h ∈ (b.insertNode node).table ↔ h = node.hash ∨ h ∈ b.table := by
  by_cases hmem : node.hash ∈ b.table
  · rw [insertNode, insert_of_mem hmem]
    exact ⟨.inr, fun hor => hor.elim (fun heq => heq ▸ hmem) id⟩
  · exact mem_insert hmem _ _ h

theorem StagesOnly.insertNode (hs : b.StagesOnly nodes) (hnode : node ∈ nodes) (hz : node.hash ≠ Hash.zero) :
    (b.insertNode node).StagesOnly nodes where
  wellFormed := hs.wellFormed.insert hz _ _
  preimages := (insert_frame b _ _ _).2.2.trans hs.preimages
  entry k e he := by
    by_cases hmem : node.hash ∈ b.table
    · rw [Buffer.insertNode, insert_of_mem hmem] at he
      exact hs.entry k e he
    · rw [Buffer.insertNode, getElem?_insert hmem] at he
      obtain ⟨e', he', rfl⟩ := Option.map_eq_some_iff.1 he
      split at he'
      · next heq =>
        cases he'
        exact ⟨node, hnode, heq, rfl⟩
      · obtain ⟨old, hold, rfl⟩ := Option.map_eq_some_iff.1 he'
        exact hs.entry k old hold

theorem StagesOnly.insertNodes (hs : b.StagesOnly nodes) (hsub : more ⊆ nodes)
    (hz : ∀ node ∈ more, node.hash ≠ Hash.zero) : (more.foldl Buffer.insertNode b).StagesOnly nodes := by
  induction more generalizing b with
  | nil => exact hs
  | cons node rest ih =>
    obtain ⟨hnode, hrest⟩ := List.cons_subset.1 hsub
    obtain ⟨hz, hz'⟩ := List.forall_mem_cons.1 hz
    exact ih (hs.insertNode hnode hz) hrest hz'

theorem mem_insertNodes : h ∈ (more.foldl Buffer.insertNode b).table ↔ h ∈ more.map TrieNode.hash ∨ h ∈ b.table := by
  induction more generalizing b with
  | nil => simp
  | cons node rest ih =>
    rw [List.foldl_cons, ih, mem_insertNode, List.map_cons, List.mem_cons]
    tauto

theorem StagesOnly.reference (hs : b.StagesOnly nodes) (child parent : Hash) :
    (b.reference child parent).StagesOnly nodes where
  wellFormed := hs.wellFormed.reference child parent
  preimages := (preimages_reference b child parent).trans hs.preimages
  entry k e he := by
    obtain ⟨hsome, hnone⟩ := getElem?_reference b child parent k
    cases hold : b.table[k]? with
    | none =>
      rw [hnone hold] at he
      cases he
    | some old =>
      obtain ⟨e', he', hnode, -⟩ := hsome old hold
      rw [he, Option.some.injEq] at he'
      rw [he', hnode]
      exact hs.entry k old hold

theorem points_of_entry {e : Staged} {c : Hash} (he : b.table[h]? = some e) (hc : c ∈ e.node.childHashes)
    (hz : c ≠ Hash.zero) (hmem : c ∈ b.table) : b.Points h c := by
  refine ⟨?_, hmem⟩
  have hembedded : c ∈ e.embedded := by
    rw [Staged.embedded, List.mem_filter]
    exact ⟨hc, by simpa [Hash.isZero] using hz⟩
  rw [refs_of_getElem? he]
  exact Staged.embedded_subset_references hembedded

end Buffer

/-! ## The whole trie -/

namespace Database

variable {σ : Type} {db : Database σ} {values : List String} {nodes : List TrieNode} {hashes : List Hash}
  {lists : List (List String)} {root : Hash}

/-- The database with the trie of a list of values staged, and its root pinned. -/
def withTrie (db : Database σ) (values : List String) : Database σ :=
  let staged := (valueTrie values).foldl Buffer.insertNode db.buffer
  { db with buffer := staged.reference (valueRoot values).hash Hash.zero }

theorem insertNode_eq {node : TrieNode} (hz : node.hash ≠ Hash.zero) :
    db.insertNode node = (.ok node.hash, { db with buffer := db.buffer.insertNode node }) := by
  have hzero : ¬ node.hash.isZero = true := fun h => hz (Hash.isZero_iff.1 h)
  rw [insertNode, insert, if_neg hzero]
  rfl

theorem insertNode_zero {node : TrieNode} (hz : node.hash = Hash.zero) :
    db.insertNode node = (.error (.metaRoot .insert), db) := by
  rw [insertNode, insert, if_pos (Hash.isZero_iff.2 hz)]

theorem insertNodes_eq (hz : ∀ node ∈ nodes, node.hash ≠ Hash.zero) : db.insertNodes nodes =
    (.ok (nodes.map TrieNode.hash), { db with buffer := nodes.foldl Buffer.insertNode db.buffer }) := by
  induction nodes generalizing db with
  | nil => rfl
  | cons node rest ih =>
    obtain ⟨hnode, hrest⟩ := List.forall_mem_cons.1 hz
    rw [insertNodes, insertNode_eq hnode]
    dsimp only
    rw [ih hrest]
    rfl

theorem insertNodes_refused (db : Database σ) (hz : ¬ ∀ node ∈ nodes, node.hash ≠ Hash.zero) :
    ∃ buffer, db.insertNodes nodes = (.error (.metaRoot .insert), { db with buffer }) := by
  induction nodes generalizing db with
  | nil => exact absurd (by simp) hz
  | cons node rest ih =>
    by_cases hnode : node.hash = Hash.zero
    · exact ⟨_, by rw [insertNodes, insertNode_zero hnode]⟩
    · have hrest : ¬ ∀ node ∈ rest, node.hash ≠ Hash.zero := fun h => hz (List.forall_mem_cons.2 ⟨hnode, h⟩)
      obtain ⟨buffer, hfails⟩ := ih { db with buffer := db.buffer.insertNode node } hrest
      refine ⟨buffer, ?_⟩
      rw [insertNodes, insertNode_eq hnode]
      dsimp only
      rw [hfails]

/-! ## In a new database -/

theorem stagesOnly_withTrie (hb : db.buffer = .empty) (hz : ∀ node ∈ valueTrie values, node.hash ≠ Hash.zero) :
    (db.withTrie values).buffer.StagesOnly (valueTrie values) := by
  have hstart : db.buffer.StagesOnly (valueTrie values) := hb ▸ .empty _
  exact (hstart.insertNodes (List.Subset.refl _) hz).reference _ _

theorem mem_withTrie (db : Database σ) {node : TrieNode} (hnode : node ∈ valueTrie values) :
    node.hash ∈ (db.withTrie values).buffer.table := by
  rw [withTrie, Buffer.mem_reference]
  exact Buffer.mem_insertNodes.2 (.inl (List.mem_map_of_mem hnode))

theorem puts_withTrie (hb : db.buffer = .empty) (hz : ∀ node ∈ valueTrie values, node.hash ≠ Hash.zero) :
    (Flush.commit root).puts (db.withTrie values) ⊆ (valueTrie values).map TrieNode.put := by
  have hs := stagesOnly_withTrie hb hz
  intro p hp
  rcases Flush.mem_puts.1 hp with ⟨x, hx, -⟩ | ⟨x, hx, rfl⟩
  · rw [Flush.preimages, hs.preimages] at hx
    cases hx
  · obtain ⟨node, hnode, hhash, hentry⟩ := hs.entry x.1 x.2 (Buffer.subtree_entry hx)
    exact List.mem_map.2 ⟨node, hnode, by rw [TrieNode.put, nodePut, hhash, hentry]; rfl⟩

/-- The root leads to every node of the trie, so a commit of the root writes them all. -/
theorem put_mem_withTrie (hb : db.buffer = .empty) (hv : Insertable values) (ha : HashedApart values lists)
    (hz : ∀ node ∈ valueTrie values, node.hash ≠ Hash.zero) {node : TrieNode} (hnode : node ∈ valueTrie values) :
    node.put ∈ (Flush.commit (valueRoot values).hash).puts (db.withTrie values) := by
  have hs := stagesOnly_withTrie hb hz
  have hroot := mem_withTrie db (valueRoot_mem values)
  have hreach : Relation.ReflTransGen (db.withTrie values).buffer.Points (valueRoot values).hash node.hash := by
    rcases TrieNode.mem_valueTrie.1 hnode with hleaf | rfl
    · obtain ⟨e, he⟩ := Table.mem_iff_getElem?.1 hroot
      obtain ⟨other, hother, hhash, hentry⟩ := hs.entry _ _ he
      obtain rfl := ha.eq_of_hash hv (valueRoot_mem values) hother hhash
      refine .single (Buffer.points_of_entry he ?_ (hz node hnode) (mem_withTrie db hnode))
      rw [hentry, Node.childHashes, TrieNode.childHashes_valueRoot hv.length_le]
      exact List.mem_map_of_mem hleaf
    · exact .refl
  have hbelow := (Buffer.mem_below hs.wellFormed).2 ⟨hroot, hreach⟩
  obtain ⟨x, hx, hhash⟩ := List.mem_map.1 hbelow
  obtain ⟨other, hother, hother', hentry⟩ := hs.entry x.1 x.2 (Buffer.subtree_entry hx)
  obtain rfl := ha.eq_of_hash hv hnode hother (hother'.trans hhash)
  exact Flush.mem_puts.2 (.inr ⟨x, hx, by rw [TrieNode.put, nodePut, ← hhash, hentry]; rfl⟩)

variable [KeyValueStore σ]

theorem commitPinned_eq (hroot : root ≠ Hash.zero) : db.commitPinned root =
    match commit { db with buffer := db.buffer.reference root Hash.zero } root with
    | (.error e, after) => (.error e, after)
    | (.ok (), after) => (.ok (), { after with buffer := after.buffer.dereference root }) := by
  have hzero : ¬ root.isZero = true := fun h => hroot (Hash.isZero_iff.1 h)
  rw [commitPinned, reference, if_neg hzero]
  dsimp only
  obtain ⟨result | e, after⟩ := commit { db with buffer := db.buffer.reference root Hash.zero } root
  · rfl
  · simp only [dereference, if_neg hzero]

/-- **What is done with a list of values**: the trie is staged, its root is committed, and
what is staged no more is let go of. -/
theorem insertValues_eq (hz : ∀ node ∈ valueTrie values, node.hash ≠ Hash.zero) :
    db.insertValues values =
      match (db.withTrie values).commit (valueRoot values).hash with
      | (.error e, after) => (.error e, after)
      | (.ok (), after) =>
        (.ok (valueRoot values).hash, { after with buffer := after.buffer.dereference (valueRoot values).hash }) := by
  obtain ⟨hleaves, hroot⟩ := List.forall_mem_append.1 hz
  have hroot : (valueRoot values).hash ≠ Hash.zero := hroot _ List.mem_cons_self
  have htrie : ((numberedLeaves values).foldl Buffer.insertNode db.buffer).insertNode (valueRoot values) =
      (valueTrie values).foldl Buffer.insertNode db.buffer := by
    rw [valueTrie, List.foldl_append]
    rfl
  rw [insertValues, insertNodes_eq hleaves]
  dsimp only
  rw [← valueRoot, insertNode_eq hroot]
  simp only [htrie, commitPinned_eq hroot]
  rw [← withTrie]
  obtain ⟨result | e, after⟩ := (db.withTrie values).commit (valueRoot values).hash <;> rfl

/-- A trie is not stored if one of its nodes has the hash of the meta-root. -/
theorem insertValues_refused (db : Database σ) (hz : HitsMetaRoot values) :
    ∃ buffer, db.insertValues values = (.error (.metaRoot .insert), { db with buffer }) := by
  by_cases hleaves : ∀ node ∈ numberedLeaves values, node.hash ≠ Hash.zero
  · have hroot : (valueRoot values).hash = Hash.zero := by
      by_contra hne
      exact not_hitsMetaRoot_iff.2 (List.forall_mem_append.2 ⟨hleaves, by simpa using hne⟩) hz
    refine ⟨(numberedLeaves values).foldl Buffer.insertNode db.buffer, ?_⟩
    rw [insertValues, insertNodes_eq hleaves]
    dsimp only
    rw [← valueRoot, insertNode_zero hroot]
  · obtain ⟨buffer, hfails⟩ := insertNodes_refused db hleaves
    exact ⟨buffer, by rw [insertValues, hfails]⟩

/-- **Whatever becomes of an insertion**, what it has written are nodes of the trie. -/
theorem insertValues_wrote (db : Database σ) (hb : db.buffer = .empty) (values : List String) :
    ∃ qs ⊆ (valueTrie values).map TrieNode.put, Wrote db.disk qs (db.insertValues values).2.disk := by
  by_cases hhits : HitsMetaRoot values
  · obtain ⟨buffer, hfails⟩ := insertValues_refused db hhits
    rw [hfails]
    exact ⟨[], by simp, .nothing⟩
  · have hz := not_hitsMetaRoot_iff.1 hhits
    obtain ⟨written, -, hwrote, hputs, -⟩ := (Flush.commit (valueRoot values).hash).spec (db.withTrie values)
    refine ⟨written, fun p hp => puts_withTrie hb hz (hputs p hp), ?_⟩
    rw [Flush.run] at hwrote
    rw [insertValues_eq hz]
    generalize (db.withTrie values).commit (valueRoot values).hash = outcome at hwrote
    obtain ⟨result | e, after⟩ := outcome <;> exact hwrote

variable [LawfulStore σ] [RegularStore σ] {ps : List Put}

theorem commit_ok (hroot : root ≠ Hash.zero) (hs : LawfulStore.Holds db.disk ps)
    (hfits : ∀ p ∈ (Flush.commit root).puts db, RegularStore.Fits σ p) : ∃ after, db.commit root = (.ok (), after) := by
  cases hcommit : (db.commit root).1 with
  | ok _ => exact ⟨_, Outcome.eq_mk hcommit⟩
  | error e =>
    exfalso
    obtain ⟨written, -, hwrote, -⟩ := (Flush.commit root).spec db
    have hholds : LawfulStore.Holds (db.commit root).2.disk (ps ++ written) := hwrote.holds hs
    rcases commit_refused hroot (Outcome.eq_mk hcommit) with haccept | ⟨batch, hbatch, hwrite⟩
    · rw [RegularStore.accepts] at haccept
      cases haccept
    · obtain ⟨t, ht⟩ := RegularStore.write_ok hholds fun q hq => .inl (hfits q (hbatch.subset hq))
      rw [hwrite] at ht
      cases ht

/-- **An insertion succeeds** over a store that takes the nodes of the trie, and has then
written them all. -/
theorem insertValues_ok (db : Database σ) (hb : db.buffer = .empty) (hs : LawfulStore.Holds db.disk ps)
    (hv : Insertable values) (ha : HashedApart values lists) (hz : ∀ node ∈ valueTrie values, node.hash ≠ Hash.zero)
    (hfits : ∀ node ∈ valueTrie values, RegularStore.Fits σ node.put) :
    ∃ qs, (db.insertValues values).1 = .ok (valueRoot values).hash ∧
      Wrote db.disk qs (db.insertValues values).2.disk ∧ ∀ p, p ∈ qs ↔ p ∈ (valueTrie values).map TrieNode.put := by
  have hputs : (Flush.commit (valueRoot values).hash).puts (db.withTrie values) ⊆ (valueTrie values).map TrieNode.put :=
    puts_withTrie hb hz
  obtain ⟨after, hcommit⟩ : ∃ after, (db.withTrie values).commit (valueRoot values).hash = (.ok (), after) := by
    refine commit_ok (hz _ (valueRoot_mem values)) hs fun p hp => ?_
    obtain ⟨node, hnode, rfl⟩ := List.mem_map.1 (hputs hp)
    exact hfits node hnode
  obtain ⟨hwrote, -⟩ := Flush.succeeded (f := .commit (valueRoot values).hash) hcommit
  rw [insertValues_eq hz, hcommit]
  refine ⟨_, rfl, hwrote, fun p => ⟨fun hp => hputs hp, fun hp => ?_⟩⟩
  obtain ⟨node, hnode, rfl⟩ := List.mem_map.1 hp
  exact put_mem_withTrie hb hv ha hz hnode

end Database

end MerkleBuffer
