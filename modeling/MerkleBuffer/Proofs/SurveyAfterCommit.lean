/-
Surveys of what was committed.

While tries are staged children first and nothing is dereferenced, every node that was
staged stays staged until it is written, and is written behind its children (`Kept`). So
after a commit of one of these nodes that succeeded, the store has everything that can be
reached from it (`Kept.commit`), and a survey finds it (`Database.survey_complete`).

A slot may hold the zero hash. A staged node has no child there, but a survey follows the
slot all the same and reports the meta-root missing.
-/
import Mathlib
import MerkleBuffer.Proofs.Database.Flushes
import MerkleBuffer.Proofs.Database.Survey
import MerkleBuffer.Store.Frame

namespace MerkleBuffer

open Relation (ReflTransGen)

/-! ## Surveys of a store that has a whole trie -/

section Complete

variable {σ : Type} [KeyValueStore σ] {content : Hash → Node} {s : σ} {root h : Hash} {db : Database σ}

/-- The store has the trie nodes of everything that can be reached from the root. -/
def Complete (content : Hash → Node) (s : σ) (root : Hash) : Prop :=
  ∀ h, ReflTransGen (Embeds content) root h → ∃ node, content h = .trie node ∧ storedNode s h = .ok node

theorem Complete.ne_error (hc : Complete content s root) (hreach : ReflTransGen (Embeds content) root h) (e : Error) :
    storedNode s h ≠ .error e := by
  obtain ⟨node, -, hnode⟩ := hc h hreach
  rw [hnode]
  nofun

/-- The nodes of the store lead to the same hashes, and to the zero hash from a slot
that holds it. -/
theorem Complete.links_iff (hc : Complete content s root) : ReflTransGen (Links s) root h ↔
    ReflTransGen (Embeds content) root h ∨
      h = Hash.zero ∧ ∃ p, ReflTransGen (Embeds content) root p ∧ Hash.zero ∈ (content p).childHashes := by
  have hlink : ∀ {p c}, ReflTransGen (Embeds content) root p → c ∈ (content p).childHashes → Links s p c := by
    intro p c hp hmem
    obtain ⟨node, hcontent, hstored⟩ := hc p hp
    rw [hcontent] at hmem
    exact ⟨node, hstored, hmem⟩
  have hembeds : ∀ {h}, ReflTransGen (Embeds content) root h → ReflTransGen (Links s) root h := by
    intro h hreach
    induction hreach with
    | refl => exact .refl
    | tail hp hpc ih => exact ih.tail (hlink hp (Node.mem_kids.1 hpc).1)
  constructor
  · intro hreach
    induction hreach with
    | refl => exact .inl .refl
    | @tail p c _ hpc ih =>
      obtain ⟨node, hstored, hmem⟩ := hpc
      rcases ih with hp | ⟨rfl, -⟩
      · obtain ⟨node', hcontent, hstored'⟩ := hc p hp
        rw [hstored] at hstored'
        cases hstored'
        have hmem' : c ∈ (content p).childHashes := by rwa [hcontent]
        by_cases hz : c = Hash.zero
        · exact .inr ⟨hz, p, hp, hz ▸ hmem'⟩
        · exact .inl (hp.tail (Node.mem_kids.2 ⟨hmem', hz⟩))
      · rw [storedNode_zero] at hstored
        cases hstored
  · rintro (hreach | ⟨rfl, p, hp, hmem⟩)
    · exact hembeds hreach
    · exact (hembeds hp).tail (hlink hp hmem)

theorem eq_ite_of_nodup {l : List Hash} {k : Hash} {P : Prop} [Decidable P] (hnodup : l.Nodup)
    (hmem : ∀ h, h ∈ l ↔ h = k ∧ P) : l = if P then [k] else [] := by
  split
  · next hP =>
    have hsame : ∀ h, h ∈ l ↔ h ∈ [k] := fun h => by simp [hmem, hP]
    exact List.perm_singleton.1 ((List.perm_ext_iff_of_nodup hnodup (List.nodup_singleton k)).2 hsame)
  · next hP => exact List.eq_nil_iff_forall_not_mem.2 fun h hh => hP ((hmem h).1 hh).2

/-- **A survey of a whole trie** counts its nodes. It reports the zero hash missing if
some slot holds it, and nothing else. -/
theorem Database.survey_complete [CountedStore σ] (hc : Complete content s root) (hu : Unstaged s db) :
    ∃ below : List Hash, below.Nodup ∧ (∀ h, h ∈ below ↔ ReflTransGen (Embeds content) root h) ∧
      (db.survey root).1 =
        .ok ⟨below.length, if ∃ h ∈ below, Hash.zero ∈ (content h).childHashes then [Hash.zero] else []⟩ := by
  rcases db.survey_spec hu root with ⟨found, missing, hok, hs⟩ | ⟨h, e, hreach, hstored, he, -⟩
  · have hfound : ∀ h, h ∈ found ↔ ReflTransGen (Embeds content) root h := by
      intro h
      rw [hs.mem_found, hc.links_iff]
      constructor
      · rintro ⟨hreach | ⟨rfl, -⟩, node, hnode⟩
        · exact hreach
        · rw [storedNode_zero] at hnode
          cases hnode
      · intro hreach
        obtain ⟨node, -, hnode⟩ := hc h hreach
        exact ⟨.inl hreach, node, hnode⟩
    have hmissing : ∀ h, h ∈ missing ↔ h = Hash.zero ∧ ∃ p ∈ found, Hash.zero ∈ (content p).childHashes := by
      intro h
      simp only [hfound]
      rw [hs.mem_missing, hc.links_iff]
      constructor
      · rintro ⟨hreach | hzero, e, he, -⟩
        · exact absurd he (hc.ne_error hreach e)
        · exact hzero
      · rintro ⟨rfl, hslot⟩
        exact ⟨.inr ⟨rfl, hslot⟩, _, storedNode_zero s, rfl⟩
    refine ⟨found, hs.nodup_found, hfound, ?_⟩
    rw [hok, eq_ite_of_nodup hs.nodup_missing hmissing]
  · -- what can be reached is there, or it is the zero hash
    rcases hc.links_iff.1 hreach with hreach | ⟨rfl, -⟩
    · exact absurd hstored (hc.ne_error hreach e)
    · rw [storedNode_zero] at hstored
      cases hstored
      cases he

end Complete

/-! ## What a command keeps -/

section Layers

variable {σ : Type} {content : Hash → Node} {ps : List Put} {db after : Database σ} {c : Command} {h : Hash}

theorem Layered.value_puts (hl : Layered content ps db.buffer) (f : Flush) :
    ∀ p ∈ ps ++ f.puts db, ∀ h : Hash, p.key = h.bytes → p.value = (content h).encode := by
  intro p hp h hkey
  rcases List.mem_append.1 hp with hp | hp
  · exact (hl.written.value p hp h hkey).2
  · rcases Flush.mem_puts.1 hp with ⟨x, -, rfl⟩ | ⟨x, hx, rfl⟩
    · exact absurd hkey (secureKey_ne_bytes x.1 h)
    · exact (hl.value_nodePuts (f.nodes_staged hl.wellFormed).1 _ (List.mem_map.2 ⟨x, hx, rfl⟩) h hkey).2

/-- What can be reached from a root is written, or it is listed by a walk below the root:
where the walk stops, everything is written. -/
theorem Layered.written_or_below {root : Hash} (hl : Layered content ps db.buffer)
    (hroot : root ∈ db.buffer.table ∨ root ∈ nodeHashes ps) (hreach : ReflTransGen (Embeds content) root h) :
    h ∈ nodeHashes ps ∨ h ∈ db.buffer.below root := by
  induction hreach with
  | refl => exact hroot.symm.imp_right fun hmem => (Buffer.mem_below hl.wellFormed).2 ⟨hmem, .refl⟩
  | @tail p c _ hpc ih =>
    rcases ih with hp | hp
    · exact .inl (hl.written.order.closed hp hpc)
    · have hmem := Buffer.mem_of_mem_below hp
      refine (hl.child_mem hmem hpc).symm.imp_right fun hc => ?_
      obtain ⟨hroot, hpath⟩ := (Buffer.mem_below hl.wellFormed).1 hp
      exact (Buffer.mem_below hl.wellFormed).2 ⟨hroot, hpath.tail ⟨hl.mem_refs hmem hpc, hc⟩⟩

variable [KeyValueStore σ]

/-- A flush only moves nodes from the buffer to the store. -/
theorem Flushed.mem_iff {preimages : List Put} {nodes : List (Hash × Staged)} {gone : List Hash}
    (hf : Flushed content ps db preimages nodes gone after) :
    h ∈ after.buffer.table ∨ h ∈ nodeHashes (ps ++ (preimages ++ nodes.map Database.nodePut)) ↔
      h ∈ db.buffer.table ∨ h ∈ nodeHashes ps := by
  rw [nodeHashes_append, nodeHashes_append, nodeHashes_of_preimages hf.preimage, nodeHashes_nodePuts,
    List.nil_append, List.mem_append, hf.left.table, Buffer.mem_discards]
  constructor
  · rintro (⟨-, hmem⟩ | hmem | hmem)
    · exact .inl hmem
    · exact .inr hmem
    · obtain ⟨x, hx, rfl⟩ := List.mem_map.1 hmem
      exact .inl (Table.mem_iff_getElem?.2 ⟨x.2, hf.staged x hx⟩)
  · rintro (hmem | hmem)
    · by_cases hgone : h ∈ gone
      · exact .inr (.inr (hf.written h hgone))
      · exact .inl ⟨hgone, hmem⟩
    · exact .inr (.inl hmem)

/-- A command may have moved nodes from the buffer to the store, and did nothing else to
the nodes. -/
structure Moved (content : Hash → Node) (ps : List Put) (db : Database σ) (qs : List Put) (after : Database σ) :
    Prop where
  wrote : Wrote db.disk qs after.disk
  layered : Layered content (ps ++ qs) after.buffer
  mem_iff : ∀ h, h ∈ after.buffer.table ∨ h ∈ nodeHashes (ps ++ qs) ↔ h ∈ db.buffer.table ∨ h ∈ nodeHashes ps

theorem Moved.quiet (hdisk : after.disk = db.disk) (hl : Layered content ps after.buffer)
    (htable : ∀ h, h ∈ after.buffer.table ↔ h ∈ db.buffer.table) : Moved content ps db [] after where
  wrote := hdisk ▸ .nothing
  layered := by rwa [List.append_nil]
  mem_iff h := by rw [List.append_nil, htable]

theorem Flushed.moved {preimages : List Put} {nodes : List (Hash × Staged)} {gone : List Hash}
    (hf : Flushed content ps db preimages nodes gone after) (hl : Layered content ps db.buffer) :
    Moved content ps db (preimages ++ nodes.map Database.nodePut) after :=
  ⟨hf.wrote, hl.flushed hf, fun _ => hf.mem_iff⟩

/-- **One command** that neither stages nor dereferences. -/
theorem Layered.run (hl : Layered content ps db.buffer) (hc : c.staging? = none)
    (hkeeps : ∀ root, c ≠ .dereference root) (hacyc : ∀ root, c = .commit root → db.buffer.Acyclic) :
    ∃ qs, Moved content ps db qs (c.run db) := by
  have hlookup : ∀ h, c = .lookup h ∨ c = .lookupTrieNode h → Moved content ps db [] (c.run db) := by
    intro h hs
    obtain ⟨cleans, heq, -⟩ := run_lookup c h hs db
    rw [heq]
    exact .quiet rfl hl fun _ => .rfl
  cases c with
  | insert h blob node => cases hc
  | insertBlob h blob => cases hc
  | insertNode node => cases hc
  | lookup h => exact ⟨[], hlookup h (.inl rfl)⟩
  | lookupTrieNode h => exact ⟨[], hlookup h (.inr rfl)⟩
  | dereference root => exact absurd rfl (hkeeps root)
  | insertPreimage h preimage =>
    have hsame := Buffer.SameNodes.insertPreimage db.buffer h preimage
    refine ⟨[], .quiet rfl (hl.sameNodes hsame) fun k => ?_⟩
    exact iff_of_eq (congrArg (k ∈ ·) hsame.table)
  | reference child parent =>
    simp only [Command.run, Database.reference]
    split
    · exact ⟨[], .quiet rfl hl fun _ => .rfl⟩
    · exact ⟨[], .quiet rfl (hl.reference child parent) fun k => Buffer.mem_reference db.buffer child parent k⟩
  | cap limit =>
    obtain ⟨preimages, nodes, gone, hf, -⟩ := hl.cap limit
    exact ⟨_, hf.moved hl⟩
  | commit root =>
    obtain ⟨preimages, nodes, gone, hf, -⟩ := hl.commit (hacyc root rfl) root
    exact ⟨_, hf.moved hl⟩

end Layers

/-! ## Runs -/

section Runs

variable {σ : Type} [KeyValueStore σ]

/-- The states of runs from `start` in which tries grow: the nodes of `staged` were staged
under their digests, each after its children, and each digest is that of one node.
Nothing is dereferenced, commits are of buffers without cycles, and any write may have
failed. -/
inductive Growing (content : Hash → Node) (start : Database (Faulty σ)) : List Hash → Database (Faulty σ) → Prop
  | start : Growing content start [] start
  | stage {staged : List Hash} {db : Database (Faulty σ)} (before : Growing content start staged db) (node : TrieNode)
      (hnode : content node.hash = .trie node) (hfits : node.Fits) (hz : node.hash ≠ Hash.zero)
      (hkids : ∀ c ∈ node.childHashes, c ≠ Hash.zero → c ∈ staged) :
      Growing content start (node.hash :: staged) ((Command.insertNode node).run db)
  | other {staged : List Hash} {db : Database (Faulty σ)} (before : Growing content start staged db)
      (writes : Option Nat) (c : Command) (hc : c.staging? = none) (hkeeps : ∀ root, c ≠ .dereference root)
      (hacyc : ∀ root, c = .commit root → db.buffer.Acyclic) :
      Growing content start staged (c.run (db.allowing writes))

/-- After a commit of a staged node that succeeded, a fresh database over the store surveys
all that can be reached from the node and counts it. It reports the zero hash missing if
some slot below holds it, and nothing else. -/
def SurveysCommitted (content : Hash → Node) (start : Database (Faulty σ)) : Prop :=
  ∀ staged db, Growing content start staged db → ∀ root ∈ staged, ∀ writes after,
    (db.allowing writes).commit root = (.ok (), after) → ∀ config hv,
      ∃ below : List Hash, below.Nodup ∧ Hash.zero ∉ below ∧
        (∀ h, h ∈ below ↔ ReflTransGen (Embeds content) root h) ∧
        ((Database.ofValid after.disk.store config hv).survey root).1 =
          .ok ⟨below.length, if ∃ h ∈ below, Hash.zero ∈ (content h).childHashes then [Hash.zero] else []⟩

variable [LawfulStore σ] {content : Hash → Node} {staged : List Hash} {ps : List Put} {root h : Hash}
  {db after : Database (Faulty σ)}

/-- The nodes that were staged are staged or written, children first. -/
structure Kept (content : Hash → Node) (staged : List Hash) (ps : List Put) (db : Database (Faulty σ)) : Prop where
  holds : LawfulStore.Holds db.disk ps
  layered : Layered content ps db.buffer
  mem_iff : ∀ h, h ∈ staged ↔ h ∈ db.buffer.table ∨ h ∈ nodeHashes ps
  trie : ∀ h ∈ staged, h ≠ Hash.zero ∧ ∃ node, content h = .trie node ∧ node.Fits

namespace Kept

theorem start {disk : σ} (hd : LawfulStore.Holds disk []) (config : Config) (hv : config.Valid) :
    Kept content [] [] (.ofValid (.reliable disk) config hv) where
  holds := ⟨rfl, hd⟩
  layered := .empty
  mem_iff h := by simp [Database.ofValid, Buffer.empty, nodeHashes]
  trie h hh := by simp at hh

theorem allowing (hk : Kept content staged ps db) (writes : Option Nat) : Kept content staged ps (db.allowing writes) :=
  ⟨hk.holds, hk.layered, hk.mem_iff, hk.trie⟩

theorem stage {node : TrieNode} (hk : Kept content staged ps db) (hnode : content node.hash = .trie node)
    (hfits : node.Fits) (hz : node.hash ≠ Hash.zero) (hkids : ∀ c ∈ node.childHashes, c ≠ Hash.zero → c ∈ staged) :
    Kept content (node.hash :: staged) ps ((Command.insertNode node).run db) := by
  have htrie : ∀ h ∈ node.hash :: staged, h ≠ Hash.zero ∧ ∃ node, content h = .trie node ∧ node.Fits :=
    List.forall_mem_cons.2 ⟨⟨hz, node, hnode, hfits⟩, hk.trie⟩
  have hmet : ∀ c ∈ (Node.trie node).kids, c ∈ db.buffer.table ∨ c ∈ nodeHashes ps := fun c hc =>
    (hk.mem_iff c).1 (hkids c (Node.mem_kids.1 hc).1 (Node.mem_kids.1 hc).2)
  rw [run_staging (c := .insertNode node) rfl, if_neg hz]
  by_cases hh : node.hash ∈ db.buffer.table
  · rw [Buffer.insert_of_mem hh]
    refine ⟨hk.holds, hk.layered, fun h => ?_, htrie⟩
    rw [List.mem_cons, hk.mem_iff]
    constructor
    · rintro (rfl | hmem)
      · exact .inl hh
      · exact hmem
    · exact .inr
  · refine ⟨hk.holds, hk.layered.insert hz hh hnode.symm hmet, fun h => ?_, htrie⟩
    rw [List.mem_cons, hk.mem_iff, Buffer.mem_insert hh, or_assoc, eq_comm (a := h)]

theorem run {c : Command} (hk : Kept content staged ps db) (hc : c.staging? = none)
    (hkeeps : ∀ root, c ≠ .dereference root) (hacyc : ∀ root, c = .commit root → db.buffer.Acyclic) :
    ∃ qs, Kept content staged (ps ++ qs) (c.run db) := by
  obtain ⟨qs, hm⟩ := hk.layered.run hc hkeeps hacyc
  exact ⟨qs, hm.wrote.holds hk.holds, hm.layered, fun h => (hk.mem_iff h).trans (hm.mem_iff h).symm, hk.trie⟩

/-- A commit that succeeded leaves the store with all that can be reached from its root,
also where there are cycles of references. -/
theorem commit (hk : Kept content staged ps db) (hroot : root ∈ staged) (hok : db.commit root = (.ok (), after)) :
    Complete content after.disk.store root := by
  obtain ⟨hwrote, -⟩ := Flush.succeeded (f := .commit root) hok
  have hholds := hwrote.holds hk.holds
  intro h hreach
  have hbelow := hk.layered.written_or_below ((hk.mem_iff root).1 hroot) hreach
  have hwritten : h ∈ nodeHashes (ps ++ (Flush.commit root).puts db) := by
    rw [nodeHashes_append, Flush.nodeHashes_puts, List.mem_append]
    exact hbelow
  have hstaged : h ∈ staged := (hk.mem_iff h).2 (hbelow.symm.imp_left Buffer.mem_of_mem_below)
  obtain ⟨hz, node, hcontent, hfits⟩ := hk.trie h hstaged
  have hget := LawfulStore.get_node hholds.2 (hk.layered.value_puts (.commit root)) hwritten
  rw [hcontent] at hget
  exact ⟨node, hcontent, storedNode_of_get hz hfits hget⟩

end Kept

/-- **Every run in which tries grow keeps their nodes.** -/
theorem Growing.kept {start : Database (Faulty σ)} (hg : Growing content start staged db)
    (hk : Kept content [] ps start) : ∃ ps, Kept content staged ps db := by
  induction hg with
  | start => exact ⟨ps, hk⟩
  | stage _ node hnode hfits hz hkids ih =>
    obtain ⟨ps, hk⟩ := ih
    exact ⟨ps, hk.stage hnode hfits hz hkids⟩
  | other _ writes c hc hkeeps hacyc ih =>
    obtain ⟨ps, hk⟩ := ih
    obtain ⟨qs, hafter⟩ := (hk.allowing writes).run hc hkeeps hacyc
    exact ⟨ps ++ qs, hafter⟩

theorem surveysCommitted_of_holds [CountedStore σ] {disk : σ} (hd : LawfulStore.Holds disk []) (content : Hash → Node)
    (config : Config) (hv : config.Valid) : SurveysCommitted content (.ofValid (.reliable disk) config hv) := by
  intro staged db hg root hroot writes after hok config' hv'
  obtain ⟨ps, hk⟩ := hg.kept (.start hd config hv)
  have hcomplete := (hk.allowing writes).commit hroot hok
  obtain ⟨below, hnodup, hmem, hsurvey⟩ :=
    Database.survey_complete hcomplete (.ofValid after.disk.store config' hv')
  exact ⟨below, hnodup, fun hz => hcomplete.ne_error ((hmem Hash.zero).1 hz) _ (storedNode_zero _), hmem, hsurvey⟩

end Runs

/-- **A survey agrees with the commit before it**, but for slots that hold the zero hash,
over a store in memory and over a store file that start empty. -/
theorem survey_after_commit [FrameCodec] (content : Hash → Node) (config : Config) (hv : config.Valid) :
    SurveysCommitted content (.ofValid (.reliable MemoryStore.empty) config hv) ∧
      SurveysCommitted content (.ofValid (.reliable RecordLog.create) config hv) :=
  ⟨surveysCommitted_of_holds MemoryStore.holds_empty content config hv,
    surveysCommitted_of_holds RecordLog.holds_create content config hv⟩

section Memory

variable {root : Hash} {db : Database (Faulty MemoryStore)}

theorem commit_of_reliable (hdisk : db.disk = .reliable MemoryStore.empty) (hroot : root ≠ Hash.zero) :
    ∃ after, (db.allowing none).commit root = (.ok (), after) := by
  refine Flush.run_ok (f := .commit root) (fun heq => hroot (Flush.commit.inj heq)) ?_
  rw [Database.allowing, hdisk]
  exact ⟨rfl, rfl, [], MemoryStore.holds_empty, fun _ _ => .inl trivial⟩

theorem disk_insertNode (node : TrieNode) : ((Command.insertNode node).run db).disk = db.disk := by
  rw [run_staging (c := .insertNode node) rfl]
  split <;> rfl

end Memory

/-- A leaf, a branch that has it in two slots, and what their hashes stand for. -/
def twiceLeaf : TrieNode := .valueLeaf [1] [7]
def twiceBranch : TrieNode := .branch [] (.ofList [(2, .hash twiceLeaf.hash), (5, .hash twiceLeaf.hash)]) none

def twiceHeld (h : Hash) : Node := if h = twiceLeaf.hash then .trie twiceLeaf else .trie twiceBranch

/-- The leaf is counted once. -/
theorem survey_after_commit_twiceHeld :
    ∃ db after, Growing twiceHeld (Database.new (.reliable MemoryStore.empty)) [twiceBranch.hash, twiceLeaf.hash] db ∧
      (db.allowing none).commit twiceBranch.hash = (.ok (), after) ∧
      ((Database.new after.disk.store).survey twiceBranch.hash).1 = .ok ⟨2, []⟩ := by
  obtain ⟨hne, hleafz, hbranchz⟩ : twiceBranch.hash ≠ twiceLeaf.hash ∧ twiceLeaf.hash ≠ Hash.zero ∧
      twiceBranch.hash ≠ Hash.zero := by decide +kernel
  have hleaf : twiceHeld twiceLeaf.hash = .trie twiceLeaf := if_pos rfl
  have hbranch : twiceHeld twiceBranch.hash = .trie twiceBranch := if_neg hne
  have hslots : twiceBranch.childHashes = [twiceLeaf.hash, twiceLeaf.hash] := rfl
  obtain ⟨db, hg, hdisk⟩ : ∃ db, Growing twiceHeld (Database.new (.reliable MemoryStore.empty))
      [twiceBranch.hash, twiceLeaf.hash] db ∧ db.disk = .reliable MemoryStore.empty := by
    refine ⟨_, (Growing.start.stage twiceLeaf hleaf (by unfold TrieNode.Fits; decide +kernel) hleafz nofun).stage twiceBranch hbranch
      (by unfold TrieNode.Fits; decide +kernel) hbranchz fun c hc _ => ?_, ?_⟩
    · simpa [hslots] using hc
    · rw [disk_insertNode, disk_insertNode]
      rfl
  obtain ⟨after, hok⟩ := commit_of_reliable hdisk hbranchz
  refine ⟨db, after, hg, hok, ?_⟩
  obtain ⟨below, hnodup, -, hmem, hsurvey⟩ := (survey_after_commit twiceHeld Config.standard Config.valid_standard).1
    _ _ hg twiceBranch.hash List.mem_cons_self none after hok Config.standard Config.valid_standard
  -- only the leaf can be reached from the branch, and nothing from the leaf
  have hpair : ∀ h, h ∈ below ↔ h ∈ [twiceBranch.hash, twiceLeaf.hash] := by
    intro h
    rw [hmem]
    constructor
    · intro hreach
      induction hreach with
      | refl => exact List.mem_cons_self
      | @tail p c _ hpc ih =>
        rcases List.mem_pair.1 ih with rfl | rfl
        · rw [Embeds, hbranch, Node.mem_kids] at hpc
          have hc : c ∈ [twiceLeaf.hash, twiceLeaf.hash] := hpc.1
          simp_all
        · rw [Embeds, hleaf] at hpc
          cases hpc
    · intro hh
      rcases List.mem_pair.1 hh with rfl | rfl
      · exact .refl
      · refine .single ?_
        rw [Embeds, hbranch, Node.mem_kids]
        exact ⟨List.mem_cons_self, hleafz⟩
  have hlength : below.length = 2 := by
    have hperm : below.Perm [twiceBranch.hash, twiceLeaf.hash] :=
      (List.perm_ext_iff_of_nodup hnodup (by simp [hne])).2 hpair
    exact hperm.length_eq
  have hnone : ¬ ∃ h ∈ below, Hash.zero ∈ (twiceHeld h).childHashes := by
    rintro ⟨h, hh, hz⟩
    rcases List.mem_pair.1 ((hpair h).1 hh) with rfl | rfl
    · rw [hbranch] at hz
      have hz' : Hash.zero ∈ [twiceLeaf.hash, twiceLeaf.hash] := hz
      simp [hleafz.symm] at hz'
    · rw [hleaf] at hz
      cases hz
  rw [hlength, if_neg hnone] at hsurvey
  exact hsurvey

/-- A node whose only slot holds the zero hash. -/
def zeroSlot : TrieNode := .extension [] Hash.zero

/-- **A survey reports the meta-root missing** right after a commit that has stored all
there was: the slot with the zero hash is a child to the survey and none to the commit. -/
theorem survey_reports_metaRoot :
    ∃ db after, Growing (fun _ => .trie zeroSlot) (Database.new (.reliable MemoryStore.empty)) [zeroSlot.hash] db ∧
      (db.allowing none).commit zeroSlot.hash = (.ok (), after) ∧
      ((Database.new after.disk.store).survey zeroSlot.hash).1 = .ok ⟨1, [Hash.zero]⟩ := by
  have hz : zeroSlot.hash ≠ Hash.zero := by decide +kernel
  have hslots : zeroSlot.childHashes = [Hash.zero] := rfl
  obtain ⟨db, hg, hdisk⟩ : ∃ db, Growing (fun _ => .trie zeroSlot) (Database.new (.reliable MemoryStore.empty))
      [zeroSlot.hash] db ∧ db.disk = .reliable MemoryStore.empty := by
    refine ⟨_, Growing.start.stage zeroSlot rfl (by unfold TrieNode.Fits; decide +kernel) hz fun c hc hne => ?_, ?_⟩
    · rw [hslots, List.mem_singleton] at hc
      exact absurd hc hne
    · rw [disk_insertNode]
      rfl
  obtain ⟨after, hok⟩ := commit_of_reliable hdisk hz
  refine ⟨db, after, hg, hok, ?_⟩
  obtain ⟨below, hnodup, -, hmem, hsurvey⟩ := surveysCommitted_of_holds MemoryStore.holds_empty
    (fun _ => .trie zeroSlot) Config.standard Config.valid_standard _ _ hg zeroSlot.hash List.mem_cons_self none after
    hok Config.standard Config.valid_standard
  have hroot : ∀ h, h ∈ below ↔ h ∈ [zeroSlot.hash] := by
    intro h
    rw [hmem, List.mem_singleton]
    constructor
    · intro hreach
      induction hreach with
      | refl => rfl
      | @tail p c _ hpc _ => exact absurd (List.mem_singleton.1 (Node.mem_kids.1 hpc).1) (Node.mem_kids.1 hpc).2
    · rintro rfl
      exact .refl
  have hbelow : below = [zeroSlot.hash] :=
    List.perm_singleton.1 ((List.perm_ext_iff_of_nodup hnodup (List.nodup_singleton _)).2 hroot)
  have hslot : ∃ h ∈ below, Hash.zero ∈ (Node.trie zeroSlot).childHashes :=
    ⟨zeroSlot.hash, (hroot _).2 List.mem_cons_self, List.mem_cons_self⟩
  rw [if_pos hslot, hbelow] at hsurvey
  exact hsurvey

end MerkleBuffer
