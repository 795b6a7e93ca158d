/-
A database that has lost nothing.

Every hash stands for one node, `content h`. The nodes that were written come
after their children (`Written`). A hash that is not written was staged before the
staged nodes that embed it (`Layered`), so a cap writes it before them, and a commit of
one of them writes it too. It has also counted all that holds it (`Backed`), so a
release cannot drop it below one of them. `Intact.run`: every careful command keeps
this, whether its writes succeed or not.
-/
import MerkleBuffer.Proofs.Database.Runs

namespace MerkleBuffer

/-- The hashes of the nodes among some puts. -/
def nodeHashes (ps : List Put) : List Hash := ps.filterMap fun p => Hash.ofBytes? p.key

/-- The node of `h` has `c` in one of its slots. -/
def Embeds (content : Hash → Node) (h c : Hash) : Prop := c ∈ (content h).kids

section Puts

variable {ps : List Put} {h c : Hash}

theorem nodeHashes_append (ps qs : List Put) : nodeHashes (ps ++ qs) = nodeHashes ps ++ nodeHashes qs :=
  List.filterMap_append

theorem mem_nodeHashes : h ∈ nodeHashes ps ↔ ∃ p ∈ ps, p.key = h.bytes := by
  simp only [nodeHashes, List.mem_filterMap, Hash.ofBytes?_eq_some]
  exact exists_congr fun p => and_congr_right fun _ => eq_comm

theorem nodeHashes_nodePuts (nodes : List (Hash × Staged)) :
    nodeHashes (nodes.map Database.nodePut) = nodes.map (·.1) := by
  induction nodes with
  | nil => rfl
  | cons node rest ih =>
    have hnode : Hash.ofBytes? (Database.nodePut node).key = some node.1 := Hash.ofBytes?_bytes node.1
    rw [List.map_cons, List.map_cons, ← ih]
    simp [nodeHashes, hnode]

theorem secureKey_ne_bytes (k h : Hash) : secureKey k ≠ h.bytes := by
  intro heq
  have hlength := congrArg List.length heq
  have hstart : secureKeyStart.length = 11 := by decide +kernel
  rw [secureKey, List.length_append, hstart, k.length_bytes, h.length_bytes] at hlength
  omega

theorem nodeHashes_of_preimages (hps : ∀ p ∈ ps, ∃ x, p = Database.preimagePut x) : nodeHashes ps = [] := by
  refine List.eq_nil_iff_forall_not_mem.2 fun h hh => ?_
  obtain ⟨p, hp, hkey⟩ := mem_nodeHashes.1 hh
  obtain ⟨x, rfl⟩ := hps p hp
  exact secureKey_ne_bytes x.1 h hkey

end Puts

/-- The puts of a store: its nodes are those that their hashes stand for, and
come after their children. -/
structure Written (content : Hash → Node) (ps : List Put) : Prop where
  value : ∀ p ∈ ps, ∀ h : Hash, p.key = h.bytes → h ≠ Hash.zero ∧ p.value = (content h).encode
  order : ChildrenFirst (Embeds content) [] (nodeHashes ps)

/-- A buffer in front of a store that holds the puts `ps`: each staged node is the one
that its hash stands for, and stands behind those of its children that are not
written. -/
structure Layered (content : Hash → Node) (ps : List Put) (b : Buffer) : Prop where
  wellFormed : b.WellFormed
  node : ∀ (h : Hash) (e : Staged), b.table[h]? = some e → e.node = content h
  written : Written content ps
  older : ∀ p ∈ b.table, ∀ c, Embeds content p c → c ∉ nodeHashes ps → Before b.flushOrder c p

namespace Layered

open Buffer

variable {content : Hash → Node} {ps qs : List Put} {b b' : Buffer} {h c p : Hash} {nodes : List (Hash × Staged)}

theorem empty : Layered content [] Buffer.empty where
  wellFormed := .empty
  node h e he := by simp [Buffer.empty] at he
  written := ⟨fun _ hp => (nomatch hp), trivial⟩
  older p hp := by simp [Buffer.empty] at hp

theorem mem_refs (hb : Layered content ps b) (hp : p ∈ b.table) (hc : Embeds content p c) : c ∈ b.refs p := by
  obtain ⟨e, he⟩ := Table.mem_iff_getElem?.1 hp
  have hembedded : c ∈ e.embedded := by
    rw [Embeds, ← hb.node p e he] at hc
    exact hc
  rw [refs_of_getElem? he]
  exact Staged.embedded_subset_references hembedded

theorem child_mem (hb : Layered content ps b) (hp : p ∈ b.table) (hc : Embeds content p c) :
    c ∈ b.table ∨ c ∈ nodeHashes ps := by
  by_cases hw : c ∈ nodeHashes ps
  · exact .inr hw
  · have hbefore := hb.older p hp c hc hw
    exact .inl (hb.wellFormed.mem_flushOrder.1 (List.Sublist.subset hbefore List.mem_cons_self))

/-! ## Changes of the buffer -/

theorem sameNodes (hb : Layered content ps b) (hs : SameNodes b b') : Layered content ps b' where
  wellFormed := hs.wellFormed hb.wellFormed
  node := hs.table ▸ hb.node
  written := hb.written
  older := by
    rw [hs.flushOrder, hs.table]
    exact hb.older

/-- What is left of the buffer is layered if the children of staged nodes are left
until they are written. -/
theorem remnant (hb : Layered content ps b) (hr : Remnant b b') (hw : b'.WellFormed)
    (hleft : ∀ p ∈ b'.table, ∀ c, Embeds content p c → c ∉ nodeHashes ps → c ∈ b'.table) : Layered content ps b' where
  wellFormed := hw
  node h e' he' := by
    obtain ⟨e, he, hnode, -⟩ := hr.entry h e' he'
    rw [hnode, hb.node h e he]
  written := hb.written
  older p hp c hpc hno :=
    (hb.older p (hr.mem hp) c hpc hno).sublist hr.order hb.wellFormed.linked.nodup
      (hw.mem_flushOrder.2 (hleft p hp c hpc hno)) (hw.mem_flushOrder.2 hp)

theorem insert {size : Nat} {node : Node} (hb : Layered content ps b) (hz : h ≠ Hash.zero) (hh : h ∉ b.table)
    (hnode : node = content h) (hkids : ∀ c ∈ node.kids, c ∈ b.table ∨ c ∈ nodeHashes ps) :
    Layered content ps (b.insert h size node) where
  wellFormed := hb.wellFormed.insert hz size node
  node k e' he' := by
    have hentry := nodeAt?_insert hh size node k
    rw [nodeAt?_of_getElem? he'] at hentry
    split at hentry
    · next heq =>
      have hnew : e'.node = node := congrArg Staged.node (Option.some.inj hentry)
      rw [hnew, hnode, heq]
    · obtain ⟨x, hx, heq⟩ := Option.map_eq_some_iff.1 hentry.symm
      obtain ⟨e, he, rfl⟩ := Option.map_eq_some_iff.1 hx
      have hold : e'.node = e.node := (congrArg Staged.node heq).symm
      rw [hold, hb.node k e he]
  written := hb.written
  older p hp c hpc hno := by
    rw [flushOrder_insert hb.wellFormed.linked hh]
    rcases (mem_insert hh size node p).1 hp with rfl | hp
    · have hmem : c ∈ b.table := (hkids c (by rw [hnode]; exact hpc)).resolve_right hno
      exact Before.append_singleton (hb.wellFormed.mem_flushOrder.2 hmem) p
    · exact (hb.older p hp c hpc hno).append_left [h]

theorem reference (hb : Layered content ps b) (child parent : Hash) :
    Layered content ps (b.reference child parent) where
  wellFormed := hb.wellFormed.reference child parent
  node k e' he' := by
    obtain ⟨hsome, hnone⟩ := getElem?_reference b child parent k
    cases he : b.table[k]? with
    | none => rw [hnone he] at he'; cases he'
    | some e =>
      obtain ⟨e'', he'', hnode, -⟩ := hsome e he
      rw [he', Option.some.injEq] at he''
      rw [he'', hnode, hb.node k e he]
  written := hb.written
  older p hp c hpc hno := by
    rw [flushOrder_reference hb.wellFormed.linked]
    exact hb.older p ((mem_reference b child parent p).1 hp) c hpc hno

/-- Nodes that are written may leave the buffer. -/
theorem discards {hs : List Hash} (hb : Layered content ps b) (hhs : ∀ h ∈ hs, h ∈ nodeHashes ps) :
    Layered content ps (b.discards hs) := by
  have hr := (Remnant.discards hb.wellFormed.linked hs).1
  refine hb.remnant hr (hb.wellFormed.discards hs) fun p hp c hpc hno => ?_
  have hmem : c ∈ b.table := (hb.child_mem (hr.mem hp) hpc).resolve_right hno
  exact (mem_discards b hs c).2 ⟨fun hc => hno (hhs c hc), hmem⟩

/-! ## Writes -/

/-- Whatever is written, a hash that is not written after it was not before. -/
theorem write (hb : Layered content ps b) (hw : Written content (ps ++ qs)) : Layered content (ps ++ qs) b where
  wellFormed := hb.wellFormed
  node := hb.node
  written := hw
  older p hp c hpc hno :=
    hb.older p hp c hpc fun hm => hno (by rw [nodeHashes_append]; exact List.mem_append_left _ hm)

theorem writePreimages (hb : Layered content ps b) (hqs : ∀ p ∈ qs, ∃ x, p = Database.preimagePut x) :
    Layered content (ps ++ qs) b := by
  have hnone := nodeHashes_of_preimages hqs
  refine hb.write ⟨fun p hp h heq => ?_, by rw [nodeHashes_append, hnone, List.append_nil]; exact hb.written.order⟩
  rcases List.mem_append.1 hp with hp | hp
  · exact hb.written.value p hp h heq
  · have hmem : h ∈ nodeHashes qs := mem_nodeHashes.2 ⟨p, hp, heq⟩
    simp [hnone] at hmem

/-- The puts of staged nodes hold what their hashes stand for. -/
theorem value_nodePuts (hb : Layered content ps b) (hnodes : ∀ x ∈ nodes, b.table[x.1]? = some x.2) :
    ∀ p ∈ nodes.map Database.nodePut, ∀ h : Hash, p.key = h.bytes →
      h ≠ Hash.zero ∧ p.value = (content h).encode := by
  intro p hp h heq
  obtain ⟨x, hx, rfl⟩ := List.mem_map.1 hp
  have hh : x.1 = h := Hash.ext heq
  have hmem : h ∈ b.table := Table.mem_iff_getElem?.2 ⟨x.2, hh ▸ hnodes x hx⟩
  refine ⟨fun hz => hb.wellFormed.zero_not_mem (hz ▸ hmem), ?_⟩
  rw [← hb.node h x.2 (hh ▸ hnodes x hx)]
  rfl

/-- Staged nodes are written behind those of their children that are not written
yet. -/
theorem writeNodes (hb : Layered content ps b) (hnodes : ∀ x ∈ nodes, b.table[x.1]? = some x.2)
    (hfirst : ChildrenFirst (fun p c => Embeds content p c ∧ c ∉ nodeHashes ps) [] (nodes.map (·.1))) :
    Layered content (ps ++ nodes.map Database.nodePut) b := by
  refine hb.write ⟨fun p hp h heq => ?_, ?_⟩
  · rcases List.mem_append.1 hp with hp | hp
    · exact hb.written.value p hp h heq
    · exact hb.value_nodePuts hnodes p hp h heq
  · rw [nodeHashes_append, nodeHashes_nodePuts, ChildrenFirst.append]
    exact ⟨hb.written.order, hfirst.of_known.mono (fun _ _ _ hc => hc) fun h hh => by simpa using hh⟩

/-- The oldest nodes are in order. -/
theorem childrenFirst_oldest {hs : List Hash} (hb : Layered content ps b) (hinitial : hs <+: b.flushOrder) :
    ChildrenFirst (fun p c => Embeds content p c ∧ c ∉ nodeHashes ps) [] hs := by
  have hall : ChildrenFirst (fun p c => Embeds content p c ∧ c ∉ nodeHashes ps) [] b.flushOrder :=
    .of_before hb.wellFormed.linked.nodup fun p hp c hpc =>
      hb.older p (hb.wellFormed.mem_flushOrder.1 hp) c hpc.1 hpc.2
  obtain ⟨rest, hrest⟩ := hinitial
  rw [← hrest] at hall
  exact (ChildrenFirst.append.1 hall).1

theorem childrenFirst_subtree {root : Hash} {gone left : List (Hash × Staged)} (hb : Layered content ps b)
    (hacyc : b.Acyclic) (hsub : b.subtree root = gone ++ left) :
    (∀ x ∈ gone, b.table[x.1]? = some x.2) ∧
      ChildrenFirst (fun p c => Embeds content p c ∧ c ∉ nodeHashes ps) [] (gone.map (·.1)) := by
  obtain ⟨hentry, hfirst, -⟩ := subtree_spec hb.wellFormed hacyc root
  rw [hsub] at hentry hfirst
  rw [List.map_append] at hfirst
  have hgone : ∀ x ∈ gone, b.table[x.1]? = some x.2 := fun x hx => hentry x (List.mem_append_left _ hx)
  refine ⟨hgone, (ChildrenFirst.append.1 hfirst).1.mono (fun p hp c hpc => ?_) fun _ hh => hh⟩
  -- what a listed node embeds is staged, unless it is written
  obtain ⟨x, hx, rfl⟩ := List.mem_map.1 hp
  have hmem : x.1 ∈ b.table := Table.mem_iff_getElem?.2 ⟨x.2, hgone x hx⟩
  exact ⟨hb.mem_refs hmem hpc.1, (hb.child_mem hmem hpc.1).resolve_right hpc.2⟩

end Layered

/-- A buffer in front of a store that holds the puts `ps`. -/
structure Backed (content : Hash → Node) (ps : List Put) (b : Buffer) : Prop where
  wellFormed : b.WellFormed
  node : ∀ (h : Hash) (e : Staged), b.table[h]? = some e → e.node = content h
  written : Written content ps
  /-- A hash that is not written has counted all that holds it -/
  covers : b.Covers (· ∉ nodeHashes ps) []
  /-- and is older than the staged nodes that embed it -/
  older : ∀ p ∈ b.table, ∀ c, Embeds content p c → c ∉ nodeHashes ps → Before b.flushOrder c p

theorem Layered.backed {content : Hash → Node} {ps : List Put} {b : Buffer} (hl : Layered content ps b)
    (hc : b.Covers (· ∉ nodeHashes ps) []) : Backed content ps b :=
  ⟨hl.wellFormed, hl.node, hl.written, hc, hl.older⟩

namespace Backed

open Buffer

variable {content : Hash → Node} {ps : List Put} {b b' : Buffer} {h : Hash}

theorem layered (hb : Backed content ps b) : Layered content ps b :=
  ⟨hb.wellFormed, hb.node, hb.written, hb.older⟩

theorem empty : Backed content [] Buffer.empty := Layered.empty.backed fun _ _ => Nat.le_of_eq rfl

theorem sameNodes (hb : Backed content ps b) (hs : SameNodes b b') : Backed content ps b' :=
  (hb.layered.sameNodes hs).backed (hs.covers hb.covers)

/-- What is left of the buffer is backed if the counts still cover what is not
written. -/
theorem remnant (hb : Backed content ps b) (hr : Remnant b b') (hw : b'.WellFormed)
    (hc : b'.Covers (· ∉ nodeHashes ps) []) : Backed content ps b' := by
  refine (hb.layered.remnant hr hw fun p hp c hpc hno => ?_).backed hc
  have hrefs : c ∈ b'.refs p := hr.refs hp ▸ hb.layered.mem_refs (hr.mem hp) hpc
  exact hc.mem_of_mem_refs hno hrefs

theorem insert {size : Nat} {node : Node} (hb : Backed content ps b) (hz : h ≠ Hash.zero) (hh : h ∉ b.table)
    (hroom : HasRoom b (b.insert h size node)) (hnode : node = content h)
    (hkids : ∀ c ∈ node.kids, c ∈ b.table ∨ c ∈ nodeHashes ps) : Backed content ps (b.insert h size node) :=
  (hb.layered.insert hz hh hnode hkids).backed
    (hb.covers.insert hh hroom fun c hc hno => (hkids c hc).resolve_right hno)

theorem reference {child parent : Hash} (hb : Backed content ps b) (hroom : HasRoom b (b.reference child parent)) :
    Backed content ps (b.reference child parent) :=
  (hb.layered.reference child parent).backed (hb.covers.reference hroom)

theorem dereference {root : Hash} (hb : Backed content ps b) (hpin : root ∈ b.pins) :
    Backed content ps (b.dereference root) :=
  hb.remnant (remnant_dereference hb.wellFormed.linked root).1 (hb.wellFormed.dereference root)
    (hb.covers.dereference hb.wellFormed.pins_nodup hpin)

end Backed

/-! ## Databases -/

section Databases

variable {σ : Type} [KeyValueStore σ]

/-- The store of a database has a value for a hash. -/
def Database.Stored (db : Database σ) (h : Hash) : Prop :=
  ∃ value, KeyValueStore.get db.disk h.bytes = .ok (some value)

/-- A call has written some preimages and then some staged nodes, children first, and
the hashes `gone` among them have left the buffer. -/
structure Flushed (content : Hash → Node) (ps : List Put) (db : Database σ) (preimages : List Put)
    (nodes : List (Hash × Staged)) (gone : List Hash) (after : Database σ) : Prop where
  preimage : ∀ p ∈ preimages, ∃ x, p = Database.preimagePut x
  staged : ∀ x ∈ nodes, db.buffer.table[x.1]? = some x.2
  childrenFirst : ChildrenFirst (fun p c => Embeds content p c ∧ c ∉ nodeHashes (ps ++ preimages)) [] (nodes.map (·.1))
  wrote : Wrote db.disk (preimages ++ nodes.map Database.nodePut) after.disk
  written : ∀ h ∈ gone, h ∈ nodes.map (·.1)
  left : Buffer.SameNodes (db.buffer.discards gone) after.buffer

namespace Layered

variable {content : Hash → Node} {ps : List Put} {db after : Database σ}

theorem flushed {preimages : List Put} {nodes : List (Hash × Staged)} {gone : List Hash}
    (hl : Layered content ps db.buffer) (hf : Flushed content ps db preimages nodes gone after) :
    Layered content (ps ++ (preimages ++ nodes.map Database.nodePut)) after.buffer := by
  have hwritten := (hl.writePreimages hf.preimage).writeNodes hf.staged hf.childrenFirst
  rw [← List.append_assoc]
  refine (hwritten.discards fun h hh => ?_).sameNodes hf.left
  rw [nodeHashes_append, nodeHashes_nodePuts]
  exact List.mem_append_right _ (hf.written h hh)

/-- A cap writes the oldest nodes, so children first. -/
theorem cap (hl : Layered content ps db.buffer) (limit : ByteSize) :
    ∃ preimages nodes gone, Flushed content ps db preimages nodes gone (db.cap limit).2 ∧
      (db.cap limit).2.cleans = db.cleans := by
  obtain ⟨preimages, nodes, written, rest, disk, buffer, hinitial, hputs, hwrote, heq, -, hsame⟩ :=
    db.cap_spec limit
  -- the writing stopped among the nodes or before them
  obtain ⟨pre, done, hpre, hdone, rfl, hrest⟩ : ∃ pre done, (∀ p ∈ pre, ∃ x, p = Database.preimagePut x) ∧
      done <+: nodes ∧ written = pre ++ done.map Database.nodePut ∧ (rest = [] → done = nodes) := by
    rcases List.append_eq_append_iff.1 hputs with ⟨as, rfl, has⟩ | ⟨bs, hbs, hrest⟩
    · obtain ⟨done, left, rfl, rfl, rfl⟩ := List.map_eq_append_iff.1 has
      refine ⟨_, done, fun p hp => ?_, List.prefix_append _ _, rfl, fun hleft => ?_⟩
      · obtain ⟨x, -, rfl⟩ := List.mem_map.1 hp
        exact ⟨x, rfl⟩
      · rw [List.map_eq_nil_iff.1 hleft, List.append_nil]
    · refine ⟨written, [], fun p hp => ?_, List.nil_prefix, by simp, fun hnil => ?_⟩
      · have hmem : p ∈ preimages.map Database.preimagePut := hbs ▸ List.mem_append_left _ hp
        obtain ⟨x, -, rfl⟩ := List.mem_map.1 hmem
        exact ⟨x, rfl⟩
      · rw [hrest] at hnil
        exact (List.map_eq_nil_iff.1 (List.append_eq_nil_iff.1 hnil).2).symm
  have horder := hdone.trans hinitial
  have hstaged : ∀ x ∈ done, db.buffer.table[x.1]? = some x.2 := fun x hx =>
    hl.wellFormed.linked.mem_inOrder (horder.subset hx)
  have hfirst := (hl.writePreimages hpre).childrenFirst_oldest (horder.map (·.1))
  rw [heq]
  rcases hsame with hsame | ⟨hnil, hsame⟩
  · exact ⟨pre, done, [], ⟨hpre, hstaged, hfirst, hwrote, by simp, hsame⟩, rfl⟩
  · obtain rfl := hrest hnil
    exact ⟨pre, done, done.map (·.1), ⟨hpre, hstaged, hfirst, hwrote, fun _ hh => hh, hsame⟩, rfl⟩

/-- A commit writes the first nodes of a subtree, children first where there are no
cycles, and if it succeeds it has written its root, unless this was not staged. -/
theorem commit (hl : Layered content ps db.buffer) (hacyc : db.buffer.Acyclic) (root : Hash) :
    ∃ preimages nodes gone, Flushed content ps db preimages nodes gone (db.commit root).2 ∧
      (∀ V, (∀ x ∈ nodes, V x.1 x.2.node.encode) → (∀ c ∈ db.cleans, c.All V) →
        ∀ c ∈ (db.commit root).2.cleans, c.All V) ∧
      ((db.commit root).1 = .ok () → root ∈ db.buffer.table → root ∈ nodes.map (·.1)) := by
  obtain ⟨written, disk₁, gone, left, disk, buffer, cleans, hpre, hwrote, hsub, hwrote', heq, -, hsame, hcleans,
    hleft⟩ := db.commit_spec root
  obtain ⟨hstaged, hfirst⟩ := (hl.writePreimages hpre).childrenFirst_subtree hacyc hsub
  refine ⟨written, gone, gone.map (·.1), ?_, ?_, fun hok hmem => ?_⟩
  · rw [heq]
    exact ⟨hpre, hstaged, hfirst, hwrote.trans hwrote', fun _ hh => hh, hsame⟩
  · rw [heq]
    exact hcleans
  · have hroot := (Buffer.subtree_spec hl.wellFormed hacyc root).2.2 hmem
    rwa [hsub, hleft hok, List.append_nil] at hroot

end Layered

/-- A command that stages under a hash the node it stands for, with children that
are staged or stored, and dereferences only what is pinned. -/
structure Proper (content : Hash → Node) (db : Database σ) (c : Command) : Prop where
  staged : ∀ h size node, c.staging? = some (h, size, node) → h ∉ db.buffer.table →
    node = content h ∧ ∀ k ∈ node.kids, k ∈ db.buffer.table ∨ db.Stored k
  dereferenced : ∀ root, c = .dereference root → root ∈ db.buffer.pins

namespace Proper

variable {db : Database σ} {c : Command} {h : Hash} {size : Nat} {node : Node}

theorem of_staging (hc : c.staging? = some (h, size, node)) (hnode : node = content h)
    (hkids : ∀ k ∈ node.kids, k ∈ db.buffer.table ∨ db.Stored k) : Proper content db c where
  staged h' size' node' hc' _ := by
    rw [hc] at hc'
    cases hc'
    exact ⟨hnode, hkids⟩
  dereferenced root heq := by
    rw [heq] at hc
    cases hc

theorem of_dereference (hpin : h ∈ db.buffer.pins) : Proper content db (.dereference h) where
  staged _ _ _ hc := by cases hc
  dereferenced root heq := by
    cases heq
    exact hpin

theorem of_quiet (hc : c.staging? = none) (hd : ∀ root, c ≠ .dereference root) : Proper content db c where
  staged _ _ _ hc' := by
    rw [hc] at hc'
    cases hc'
  dereferenced root heq := absurd heq (hd root)

end Proper

/-- A proper command that commits no cycle and lets no count wrap. -/
structure Careful (content : Hash → Node) (db : Database σ) (c : Command) : Prop extends Proper content db c where
  acyclic : ∀ root, c = .commit root → db.buffer.Acyclic
  room : db.buffer.HasRoom (c.run db).buffer

theorem Careful.cap (content : Hash → Node) (db : Database σ) (limit : ByteSize) :
    Careful content db (.cap limit) :=
  ⟨.of_quiet rfl (by simp), nofun, (run_effect _ db).hasRoom (.inl ⟨limit, rfl⟩)⟩

variable [LawfulStore σ]

namespace LawfulStore

variable {s : σ} {ps : List Put} {value : Hash → Bytes} {h : Hash}

/-- Where all puts of a hash have its one value, the store answers with this value. -/
theorem get_node (hs : Holds s ps) (hvalue : ∀ p ∈ ps, ∀ k : Hash, p.key = k.bytes → p.value = value k)
    (hh : h ∈ nodeHashes ps) : KeyValueStore.get s h.bytes = .ok (some (value h)) := by
  obtain ⟨p, hp, hkey⟩ := mem_nodeHashes.1 hh
  have hget := get_some hs hp fun q hq heq => by
    rw [hvalue q hq h (heq.trans hkey), hvalue p hp h hkey]
  rwa [hkey, hvalue p hp h hkey] at hget

theorem get_node_none (hs : Holds s ps) (hh : h ∉ nodeHashes ps) : KeyValueStore.get s h.bytes = .ok none :=
  get_none hs fun p hp heq => hh (mem_nodeHashes.2 ⟨p, hp, heq⟩)

end LawfulStore

/-- A database that has lost nothing, over a store with the puts `ps`. -/
structure Intact (content : Hash → Node) (ps : List Put) (db : Database σ) : Prop where
  holds : LawfulStore.Holds db.disk ps
  backed : Backed content ps db.buffer
  cleans : ∀ c ∈ db.cleans, c.All fun h value => value = (content h).encode

namespace Intact

open Buffer

variable {content : Hash → Node} {ps : List Put} {db : Database σ} {h d root : Hash}

theorem get (hi : Intact content ps db) (hh : h ∈ nodeHashes ps) :
    KeyValueStore.get db.disk h.bytes = .ok (some (content h).encode) :=
  LawfulStore.get_node hi.holds (fun p hp k heq => (hi.backed.written.value p hp k heq).2) hh

theorem stored_iff (hi : Intact content ps db) : db.Stored h ↔ h ∈ nodeHashes ps := by
  constructor
  · rintro ⟨value, hget⟩
    by_contra hno
    rw [LawfulStore.get_node_none hi.holds hno] at hget
    cases hget
  · exact fun hh => ⟨_, hi.get hh⟩

/-! ### What can be read -/

theorem ne_zero (hi : Intact content ps db) (hh : h ∈ db.buffer.table ∨ h ∈ nodeHashes ps) : h ≠ Hash.zero := by
  rcases hh with hmem | hw
  · exact fun hz => hi.backed.wellFormed.zero_not_mem (hz ▸ hmem)
  · obtain ⟨p, hp, hkey⟩ := mem_nodeHashes.1 hw
    exact (hi.backed.written.value p hp h hkey).1

/-- A hash that is staged or written reads as the node it stands for, whichever
tier answers. -/
theorem node (hi : Intact content ps db) (hh : h ∈ db.buffer.table ∨ h ∈ nodeHashes ps) :
    (db.node h).1 = .ok (content h).encode := by
  have hz : h.isZero = false := by simpa [Hash.isZero] using hi.ne_zero hh
  rw [Database.node, hz]
  simp only [Bool.false_eq_true, if_false]
  split
  · next encoded after hcached =>
    obtain ⟨cleans, -, hall⟩ := Database.cached?_spec hcached
    exact congrArg Except.ok (hall _ hi.cleans).1
  · split
    · next e he => rw [hi.backed.node h e he]
    · next hnone =>
      have hw : h ∈ nodeHashes ps := hh.resolve_left (Table.not_mem_iff_getElem?.2 hnone)
      rw [Database.load, hi.get hw]

/-- Everything that can be reached from what is staged or written is staged or
written. -/
theorem mem_of_reachable (hi : Intact content ps db) (hh : h ∈ db.buffer.table ∨ h ∈ nodeHashes ps)
    (hd : Relation.ReflTransGen (Embeds content) h d) : d ∈ db.buffer.table ∨ d ∈ nodeHashes ps := by
  induction hd with
  | refl => exact hh
  | tail _ hpc ih =>
    rcases ih with hp | hp
    · exact hi.backed.layered.child_mem hp hpc
    · exact .inr (hi.backed.written.order.closed hp hpc)

theorem mem_of_written (hi : Intact content ps db) (hh : h ∈ nodeHashes ps)
    (hd : Relation.ReflTransGen (Embeds content) h d) : d ∈ nodeHashes ps := by
  induction hd with
  | refl => exact hh
  | tail _ hpc ih => exact hi.backed.written.order.closed ih hpc

/-- A pinned hash has counted its pin, or is written. -/
theorem mem_of_pinned (hi : Intact content ps db) (hh : h ∈ db.buffer.pins) :
    h ∈ db.buffer.table ∨ h ∈ nodeHashes ps := by
  by_cases hw : h ∈ nodeHashes ps
  · exact .inr hw
  · exact .inl (hi.backed.covers.mem_of_mem_pins hw hh)

/-! ### What commands keep -/

/-- A flush keeps a database intact: what has left the buffer is written, so the counts
need not cover it. -/
theorem flushed {preimages : List Put} {nodes : List (Hash × Staged)} {gone : List Hash} {after : Database σ}
    (hi : Intact content ps db) (hf : Flushed content ps db preimages nodes gone after)
    (hcleans : ∀ c ∈ after.cleans, c.All fun h value => value = (content h).encode) :
    Intact content (ps ++ (preimages ++ nodes.map Database.nodePut)) after where
  holds := hf.wrote.holds hi.holds
  backed := by
    refine (hi.backed.layered.flushed hf).backed (hf.left.covers (Covers.discards ?_ fun h hh hno => hno ?_))
    · exact hi.backed.covers.mono fun h hno hm => hno (by rw [nodeHashes_append]; exact List.mem_append_left _ hm)
    · rw [nodeHashes_append, nodeHashes_append, nodeHashes_nodePuts]
      exact List.mem_append_right _ (List.mem_append_right _ (hf.written h hh))
  cleans := hcleans

theorem cap (hi : Intact content ps db) (limit : ByteSize) : ∃ qs, Intact content (ps ++ qs) (db.cap limit).2 := by
  obtain ⟨preimages, nodes, gone, hf, hcleans⟩ := hi.backed.layered.cap limit
  exact ⟨_, hi.flushed hf (hcleans ▸ hi.cleans)⟩

/-- A commit keeps a database intact, and if it succeeds it has written its root,
unless this was not staged. -/
theorem commit (hi : Intact content ps db) (hacyc : db.buffer.Acyclic) (root : Hash) :
    ∃ qs, Intact content (ps ++ qs) (db.commit root).2 ∧
      ((db.commit root).1 = .ok () → root ∈ db.buffer.table → root ∈ nodeHashes qs) := by
  obtain ⟨preimages, nodes, gone, hf, hcleans, hroot⟩ := hi.backed.layered.commit hacyc root
  have hvalues : ∀ x ∈ nodes, x.2.node.encode = (content x.1).encode := fun x hx => by
    rw [hi.backed.node x.1 x.2 (hf.staged x hx)]
  refine ⟨_, hi.flushed hf (hcleans _ hvalues hi.cleans), fun hok hmem => ?_⟩
  rw [nodeHashes_append, nodeHashes_nodePuts]
  exact List.mem_append_right _ (hroot hok hmem)

/-- **A careful command keeps a database intact**, whatever becomes of its writes. -/
theorem run {c : Command} (hi : Intact content ps db) (hc : Careful content db c) :
    ∃ qs, Intact content (ps ++ qs) (c.run db) := by
  have hkeep : ∀ {db' : Database σ}, db'.disk = db.disk → Backed content ps db'.buffer →
      (∀ c ∈ db'.cleans, c.All fun h value => value = (content h).encode) →
      ∃ qs, Intact content (ps ++ qs) db' := by
    intro db' hdisk hb hcleans
    refine ⟨[], ?_⟩
    rw [List.append_nil]
    exact ⟨hdisk ▸ hi.holds, hb, hcleans⟩
  have hstaging : ∀ h size node, c.staging? = some (h, size, node) →
      ∃ qs, Intact content (ps ++ qs) (c.run db) := by
    intro h size node hs
    have hroom := hc.room
    rw [run_staging hs] at hroom ⊢
    by_cases hz : h = Hash.zero
    · rw [if_pos hz]
      exact hkeep rfl hi.backed hi.cleans
    rw [if_neg hz] at hroom ⊢
    by_cases hh : h ∈ db.buffer.table
    · rw [insert_of_mem hh]
      exact hkeep rfl hi.backed hi.cleans
    · obtain ⟨hnode, hkids⟩ := hc.staged h size node hs hh
      have hmet : ∀ k ∈ node.kids, k ∈ db.buffer.table ∨ k ∈ nodeHashes ps := fun k hk =>
        (hkids k hk).imp_right hi.stored_iff.1
      exact hkeep rfl (hi.backed.insert hz hh hroom hnode hmet) hi.cleans
  have hlookup : ∀ h, c = .lookup h ∨ c = .lookupTrieNode h → ∃ qs, Intact content (ps ++ qs) (c.run db) := by
    intro h hs
    obtain ⟨cleans, heq, hall⟩ := run_lookup c h hs db
    rw [heq]
    refine hkeep rfl hi.backed (hall _ (fun value hget => ?_) hi.cleans)
    rw [hi.get (hi.stored_iff.1 ⟨value, hget⟩)] at hget
    exact (Option.some.inj (Except.ok.inj hget)).symm
  cases c with
  | insert h blob node => exact hstaging _ _ _ rfl
  | insertBlob h blob => exact hstaging _ _ _ rfl
  | insertNode node => exact hstaging _ _ _ rfl
  | insertPreimage h preimage =>
    exact hkeep rfl (hi.backed.sameNodes (.insertPreimage ..)) hi.cleans
  | reference child parent =>
    have hroom := hc.room
    simp only [Command.run, Database.reference] at hroom ⊢
    split at hroom
    · next hz =>
      rw [if_pos hz]
      exact hkeep rfl hi.backed hi.cleans
    · next hz =>
      rw [if_neg hz]
      exact hkeep rfl (hi.backed.reference hroom) hi.cleans
  | dereference root =>
    have hpin := hc.dereferenced root rfl
    simp only [Command.run, Database.dereference]
    split
    · exact hkeep rfl hi.backed hi.cleans
    · exact hkeep rfl (hi.backed.dereference hpin) hi.cleans
  | cap limit => exact hi.cap limit
  | commit root =>
    obtain ⟨qs, hafter, -⟩ := hi.commit (hc.acyclic root rfl) root
    exact ⟨qs, hafter⟩
  | lookup h => exact hlookup h (.inl rfl)
  | lookupTrieNode h => exact hlookup h (.inr rfl)

end Intact

end Databases

section Runs

variable {σ : Type} [KeyValueStore σ] [LawfulStore σ] {content : Hash → Node} {ps : List Put}

theorem Intact.allowing {db : Database (Faulty σ)} (hi : Intact content ps db) (writes : Option Nat) :
    Intact content ps (db.allowing writes) :=
  ⟨hi.holds, hi.backed, hi.cleans⟩

theorem Intact.start {disk : σ} (hd : LawfulStore.Holds disk []) (config : Config) (hv : config.Valid) :
    Intact content [] (Database.ofValid (Faulty.reliable disk) config hv) where
  holds := ⟨rfl, hd⟩
  backed := .empty
  cleans := config.cleanCache_all _

/-- **Every run of careful commands leaves the database intact.** -/
theorem Reachable.intact {start db : Database (Faulty σ)} (hr : Reachable (Careful content) start db)
    (hi : Intact content ps start) : ∃ ps, Intact content ps db := by
  induction hr with
  | start => exact ⟨ps, hi⟩
  | step _ writes c hc ih =>
    obtain ⟨ps, hi⟩ := ih
    obtain ⟨qs, hi'⟩ := (hi.allowing writes).run hc
    exact ⟨ps ++ qs, hi'⟩

end Runs

end MerkleBuffer
