/-
A count that wraps although few edges are left.

A cap drops the oldest nodes and leaves the counts of their children as they are. So a blob
that 65537 older nodes reference 65535 times each counts 2^32 - 1 parents when these nodes are
stored and no edge is left (`Stranded`). The next edge takes its count to zero and the one
behind it to one, and when this last one is let go of, the blob leaves the buffer below a node
that is still pinned (`Forsaken`). All this time fewer than 2^32 edges lead to any node.
-/
import MerkleBuffer.Proofs.Database.Intact
import MerkleBuffer.Proofs.PinSafety
import MerkleBuffer.Proofs.ShortestPrefix

namespace MerkleBuffer

open Relation (TransGen)

namespace Buffer

variable {b b' : Buffer} {child p h k : Hash} {order parents : List Hash} {n : Nat}

/-! ## Edges to one node -/

/-- All references lead to one hash, and none from there. -/
def PointsOnlyTo (b : Buffer) (child : Hash) : Prop := ∀ p, ∀ k ∈ b.refs p, k = child ∧ p ≠ child

theorem PointsOnlyTo.acyclic (ht : b.PointsOnlyTo child) : b.Acyclic := by
  have hends : ∀ p c, TransGen b.Points p c → p ≠ child ∧ c = child := by
    intro p c hpc
    induction hpc with
    | single hpc => exact ⟨(ht p _ hpc.1).2, (ht p _ hpc.1).1⟩
    | tail _ hcd ih => exact ⟨ih.1, (ht _ _ hcd.1).1⟩
  intro h hcycle
  obtain ⟨hne, heq⟩ := hends h h hcycle
  exact hne heq

theorem PointsOnlyTo.edgesTo (ht : b.PointsOnlyTo child) (hk : k ≠ child) : b.edgesTo k = 0 :=
  edgesTo_eq_zero.2 fun p hp => hk (ht p k hp).1

theorem PointsOnlyTo.held_le (ht : b.PointsOnlyTo child) (hk : k ≠ child) : b.held k ≤ 1 := by
  rw [held, ht.edgesTo hk]
  split <;> omega

theorem PointsOnlyTo.insert {size : Nat} {node : Node} (ht : b.PointsOnlyTo child) (hh : h ∉ b.table)
    (hkids : ∀ k ∈ node.kids, k = child ∧ h ≠ child) : (b.insert h size node).PointsOnlyTo child := by
  intro p k hk
  rw [refs_insert hh] at hk
  split at hk
  · next heq => exact heq ▸ hkids k hk
  · exact ht p k hk

theorem PointsOnlyTo.addEdge {e : Staged} (ht : b.PointsOnlyTo child) (he : b.table[p]? = some e)
    (hcount : (e.edges.getD []).count child ≠ Edges.maxCount) (hne : p ≠ child) :
    (b.addEdge child p).PointsOnlyTo child := by
  intro q k hk
  by_cases hq : q = p
  · subst hq
    refine ⟨?_, hne⟩
    have hpos := List.count_pos_iff.2 hk
    rw [count_refs_addEdge he hcount] at hpos
    by_contra hother
    rw [if_neg (Ne.symm hother), Nat.add_zero, List.count_pos_iff] at hpos
    exact hother (ht q k hpos).1
  · rw [refs_addEdge_of_ne he hcount hq] at hk
    exact ht q k hk

theorem PointsOnlyTo.remnant (ht : b.PointsOnlyTo child) (hr : Remnant b b') : b'.PointsOnlyTo child := by
  intro p k hk
  rw [hr.refs (mem_of_mem_refs hk)] at hk
  exact ht p k hk

theorem PointsOnlyTo.reference_zero (ht : b.PointsOnlyTo child) (h : Hash) :
    (b.reference h Hash.zero).PointsOnlyTo child := fun p k hk => ht p k (refs_reference_zero b h p ▸ hk)

/-! ## Blobs -/

theorem residentBytes_addChild_le {e : Staged} (hpos : ∀ x ∈ e.edges.getD [], 0 < x.2) :
    (e.addChild child).residentBytes ≤ e.residentBytes + 82 := by
  have hadd : (e.addChild child).edgeBytes = _ := edgeBytes_addChild hpos
  have hcost : Staged.edgeTableSize + Staged.edgeSize = 82 := rfl
  show e.payloadBytes + Staged.overhead + (e.addChild child).edgeBytes ≤
    e.payloadBytes + Staged.overhead + e.edgeBytes + 82
  rw [hadd]
  split <;> split <;> omega

/-- Some blobs of one byte are staged, and the others reference one of them `n` times, which it
has counted. -/
structure Crowd (order : List Hash) (child : Hash) (n : Nat) (b : Buffer) : Prop where
  wellFormed : b.WellFormed
  accounted : b.Accounted
  bytes : b.sumOf Staged.residentBytes ≤ 300 * (order.length + n)
  flushOrder : b.flushOrder = order
  pins : b.pins = []
  preimages : b.preimages = []
  blob : ∀ h e, b.nodeAt? h = some e → e.node = .raw [7] ∧ e.size = 1 ∧ (h = child → e.edges = none)
  pointsOnlyTo : b.PointsOnlyTo child
  held : b.held child = n
  counted : b.parentsOf child = n

namespace Crowd

theorem empty (child : Hash) : Crowd [] child 0 Buffer.empty where
  wellFormed := .empty
  accounted := .empty
  bytes := by decide
  flushOrder := rfl
  pins := rfl
  preimages := rfl
  blob h e he := by simp [nodeAt?, Buffer.empty] at he
  pointsOnlyTo p k hk := by simp [refs, nodeAt?, Buffer.empty] at hk
  held := by simp [Buffer.held, edgesTo, staged, Buffer.empty]
  counted := by simp [parentsOf, nodeAt?, Buffer.empty]

theorem mem_iff (hc : Crowd order child n b) : h ∈ b.table ↔ h ∈ order := by
  rw [← hc.flushOrder, hc.wellFormed.mem_flushOrder]

theorem inRange_of (hpins : b.pins = []) (hpreimages : b.preimages = [])
    (hbytes : b.sumOf Staged.residentBytes ≤ 300 * n) (hn : n < 2 ^ 33) : b.InRange where
  nodes := by
    have hmax : 300 * 2 ^ 33 < UInt64.size := by decide
    rw [hpins, List.length_nil]
    omega
  preimages := by
    rw [preimageBytes, hpreimages]
    decide

theorem inRange (hc : Crowd order child n b) (hn : order.length + n < 2 ^ 33) : b.InRange :=
  inRange_of hc.pins hc.preimages hc.bytes hn

theorem refs_eq_nil (hc : Crowd order child 0 b) (p : Hash) : b.refs p = [] := by
  have hedges : b.edgesTo child = 0 := by
    have hheld := hc.held
    rw [Buffer.held] at hheld
    omega
  refine List.eq_nil_iff_forall_not_mem.2 fun k hk => ?_
  obtain ⟨rfl, -⟩ := hc.pointsOnlyTo p k hk
  exact edgesTo_eq_zero.1 hedges p hk

theorem insert (hc : Crowd order child 0 b) (hz : h ≠ Hash.zero) (hh : h ∉ order) (hn : order.length + 1 < 2 ^ 33) :
    Crowd (order ++ [h]) child 0 (b.insert h 1 (.raw [7])) := by
  have hmem : h ∉ b.table := fun hm => hh (hc.mem_iff.1 hm)
  obtain ⟨hpins, -, hpreimages⟩ := b.insert_frame h 1 (.raw [7])
  rw [hc.pins] at hpins
  rw [hc.preimages] at hpreimages
  have hbytes : (b.insert h 1 (.raw [7])).sumOf Staged.residentBytes ≤ 300 * ((order ++ [h]).length + 0) := by
    have hblob : (Staged.fresh 1 (.raw [7])).residentBytes = 233 := rfl
    have hold := hc.bytes
    rw [sumOf_insert hmem (fun _ _ => rfl), hblob, List.length_append, List.length_singleton]
    omega
  exact {
    wellFormed := hc.wellFormed.insert hz _ _
    accounted := hc.accounted.insert (inRange_of hpins hpreimages hbytes (by simpa using hn))
    bytes := hbytes
    flushOrder := by rw [flushOrder_insert hc.wellFormed.linked hmem, hc.flushOrder]
    pins := hpins
    preimages := hpreimages
    blob := fun k e he => by
      rw [nodeAt?_insert hmem] at he
      split at he
      · cases he
        exact ⟨rfl, rfl, fun _ => rfl⟩
      · obtain ⟨old, hold, rfl⟩ := Option.map_eq_some_iff.1 he
        exact hc.blob k old hold
    pointsOnlyTo := hc.pointsOnlyTo.insert hmem nofun
    held := by rw [held_insert hmem, hc.held]; rfl
    counted := by
      by_cases hchild : child = h
      · rw [hchild, parentsOf_insert_self hmem]
      by_cases hold : child ∈ b.table
      · have hnone : (Node.raw [7]).kids.count child = 0 := rfl
        rw [parentsOf_insert hmem hold (by rw [hc.counted, hnone]; decide), hc.counted, hnone]
      · exact parentsOf_of_not_mem fun hm => ((mem_insert hmem _ _ child).1 hm).elim hchild hold }

theorem reference (hc : Crowd order child n b) (hchild : child ∈ order) (hp : p ∈ order) (hne : p ≠ child)
    (hroom : (b.refs p).count child < Edges.maxCount) (hn : n + 1 < 2 ^ 32) (hlen : order.length < 2 ^ 32) :
    Crowd order child (n + 1) (b.reference child p) ∧
      ((b.reference child p).refs p).count child = (b.refs p).count child + 1 ∧
      ∀ k, k ≠ p → (b.reference child p).refs k = b.refs k := by
  have hmem : child ∈ b.table := hc.mem_iff.2 hchild
  have hpz : p ≠ Hash.zero := fun heq => hc.wellFormed.zero_not_mem (heq ▸ hc.mem_iff.2 hp)
  obtain ⟨e, he⟩ := Table.mem_iff_getElem?.1 (hc.mem_iff.2 hp)
  obtain ⟨hnode, -, -⟩ := hc.blob p _ (nodeAt?_of_getElem? he)
  have hcount : (e.edges.getD []).count child ≠ Edges.maxCount := by
    have hraw : e.embedded = [] := by
      rw [Staged.embedded, show e.node = .raw [7] from hnode]
      rfl
    rw [refs_of_getElem? he, Staged.references, hraw, List.append_nil,
      Edges.count_expand (hc.wellFormed.edges p e he).nodup] at hroom
    omega
  have hedge : b.reference child p = b.addEdge child p := by
    simp [Buffer.reference, hne.symm, hpz, hmem, Hash.isZero]
  have hbytes : (b.addEdge child p).sumOf Staged.residentBytes ≤ 300 * (order.length + (n + 1)) := by
    have hchange := sumOf_addEdge (f := Staged.residentBytes) he hcount fun _ => rfl
    have hold := hc.bytes
    have hgain : (e.addChild child).unlinked.residentBytes ≤ e.unlinked.residentBytes + 82 :=
      residentBytes_addChild_le (hc.wellFormed.edges p e he).pos
    omega
  rw [hedge]
  refine ⟨?_, by rw [count_refs_addEdge he hcount, if_pos rfl], fun k hk => refs_addEdge_of_ne he hcount hk⟩
  obtain ⟨hpins, -, hpreimages, -⟩ := b.addEdge_frame child p
  rw [hc.pins] at hpins
  rw [hc.preimages] at hpreimages
  exact {
    wellFormed := hedge ▸ hc.wellFormed.reference child p
    accounted := hedge ▸ hc.accounted.reference hc.wellFormed
      (hedge ▸ inRange_of hpins hpreimages hbytes (by omega))
    bytes := hbytes
    flushOrder := by rw [← hedge, flushOrder_reference hc.wellFormed.linked, hc.flushOrder]
    pins := hpins
    preimages := hpreimages
    blob := fun k e' he' => by
      rw [nodeAt?, getElem?_addEdge he hcount, Option.map_map] at he'
      obtain ⟨old, hold, rfl⟩ := Option.map_eq_some_iff.1 he'
      obtain ⟨hnode, hsize, hbare⟩ := hc.blob k _ (nodeAt?_of_getElem? hold)
      refine ⟨?_, ?_, fun hk => ?_⟩
      · rw [← hnode]
        simp only [Function.comp_apply]
        split <;> split <;> rfl
      · rw [← hsize]
        simp only [Function.comp_apply]
        split <;> split <;> rfl
      · subst hk
        simp only [Function.comp_apply, if_neg hne, if_true]
        exact hbare rfl
    pointsOnlyTo := hc.pointsOnlyTo.addEdge he hcount hne
    held := by rw [held_addEdge he hcount, if_pos rfl, hc.held]
    counted := by
      rw [parentsOf_addEdge he hcount hmem (by rw [hc.counted]; omega), if_pos rfl, hc.counted] }

end Crowd

/-! ## What a cap leaves -/

/-- A blob is all that is staged, nothing holds it, and it has counted `n` parents. -/
structure Stranded (child : Hash) (n : Nat) (b : Buffer) : Prop where
  wellFormed : b.WellFormed
  mem_iff : ∀ k, k ∈ b.table ↔ k = child
  blob : ∀ e, b.nodeAt? child = some e → e.node = .raw [7]
  refs : ∀ p, b.refs p = []
  pins : b.pins = []
  preimages : b.preimages = []
  counted : b.parentsOf child = n

/-- A node over a blob is staged and pinned, and the blob is not staged. -/
structure Forsaken (child keeper : Hash) (b : Buffer) : Prop where
  wellFormed : b.WellFormed
  mem_iff : ∀ k, k ∈ b.table ↔ k = keeper
  node : ∀ e : Staged, b.table[keeper]? = some e → e.node = .trie (.extension [] child)
  pinned : keeper ∈ b.pins
  preimages : b.preimages = []
  pointsOnlyTo : b.PointsOnlyTo child

theorem Stranded.pointsOnlyTo (hs : Stranded child n b) : b.PointsOnlyTo child := fun p k hk => by
  rw [hs.refs p] at hk
  cases hk

theorem Stranded.held (hs : Stranded child n b) : b.held child = 0 := by
  have hedges : b.edgesTo child = 0 := edgesTo_eq_zero.2 fun p hp => by
    rw [hs.refs p] at hp
    cases hp
  rw [Buffer.held, hedges, hs.pins]
  rfl

theorem charged_ge (nodes : List (Hash × Staged)) : 232 * nodes.length ≤ charged nodes := by
  induction nodes with
  | nil => exact Nat.zero_le _
  | cons node rest ih =>
    have hnode : 232 ≤ node.2.residentBytes := by
      have hmin : Hash.size + Staged.overhead = 232 := rfl
      unfold Staged.residentBytes Staged.payloadBytes
      omega
    rw [charged_cons, List.length_cons]
    omega

/-- A cap at the size of one blob has something to do. -/
theorem Crowd.over (hc : Crowd (parents ++ [child]) child n b) (hparents : parents ≠ [])
    (hn : (parents ++ [child]).length + n < 2 ^ 33) : ByteSize.ofNat 233 < b.residentSize := by
  have hlength : b.inOrder.length = parents.length + 1 := by
    have horder := congrArg List.length hc.flushOrder
    rwa [Buffer.flushOrder, List.length_map, List.length_append] at horder
  have hlimit : (ByteSize.ofNat 233).bytes = 233 := rfl
  have hge := charged_ge b.inOrder
  have hpos := List.length_pos_iff.2 hparents
  rw [ByteSize.lt_def, hc.accounted.charged_inOrder (hc.inRange hn) hc.wellFormed.linked]
  omega

/-- All nodes but the newest have to go for the others to be charged no more than one blob. -/
theorem Crowd.least (hc : Crowd (parents ++ [child]) child n b) :
    IsLeast { m | charged (b.inOrder.drop m) ≤ 233 } parents.length := by
  obtain ⟨older, newest, horder, rfl, hnewest⟩ := List.map_eq_append_iff.1 hc.flushOrder
  obtain ⟨⟨h, e⟩, rfl, rfl⟩ := List.map_eq_singleton_iff.1 hnewest
  have hmem : (h, e) ∈ b.inOrder := by
    rw [horder]
    exact List.mem_append_right _ List.mem_cons_self
  obtain ⟨hnode, hsize, hbare⟩ := hc.blob h _ (nodeAt?_of_getElem? (hc.wellFormed.linked.mem_inOrder hmem))
  have hcharged : charged [(h, e)] = 233 := by
    have hedges : e.edgeBytes = 0 := by
      rw [Staged.edgeBytes, show e.edges = none from hbare rfl]
    have hone : e.size = 1 := hsize
    rw [charged_cons, Staged.residentBytes, Staged.payloadBytes, hedges, hone]
    rfl
  rw [List.length_map]
  constructor
  · show charged (b.inOrder.drop older.length) ≤ 233
    rw [horder, List.drop_left, hcharged]
  · intro m hm
    have hle : charged (b.inOrder.drop m) ≤ 233 := hm
    have hge := charged_ge (b.inOrder.drop m)
    rw [List.length_drop, horder, List.length_append, List.length_singleton] at hge
    rw [horder] at hle
    omega

/-- What is left of the blobs when all but one of them are gone. -/
theorem Crowd.stranded (hc : Crowd (parents ++ [child]) child n b) (hw : b'.WellFormed)
    (hentry : ∀ h, b'.nodeAt? h = if h ∈ parents then none else b.nodeAt? h) (hpins : b'.pins = b.pins)
    (hpreimages : b'.preimages = []) : Stranded child n b' := by
  have hnodup : (parents ++ [child]).Nodup := hc.flushOrder ▸ hc.wellFormed.linked.nodup
  have hchild : child ∉ parents := fun hmem =>
    (List.nodup_append.1 hnodup).2.2 child hmem child (List.mem_singleton_self child) rfl
  have hsame : b'.nodeAt? child = b.nodeAt? child := by rw [hentry, if_neg hchild]
  have hgone : ∀ k, k ≠ child → b'.nodeAt? k = none := by
    intro k hk
    rw [hentry]
    split
    · rfl
    · next hkp =>
      have hmem : k ∉ b.table := fun hmem =>
        (List.mem_append.1 (hc.mem_iff.1 hmem)).elim hkp fun heq => hk (List.mem_singleton.1 heq)
      exact Option.eq_none_iff_forall_ne_some.2 fun e he => hmem (mem_iff_nodeAt?.2 ⟨e, he⟩)
  obtain ⟨e, he⟩ := mem_iff_nodeAt?.1 (hc.mem_iff.2 (List.mem_append_right parents (List.mem_singleton_self child)))
  obtain ⟨hnode, -, hbare⟩ := hc.blob child e he
  exact {
    wellFormed := hw
    mem_iff := fun k => by
      constructor
      · intro hk
        by_contra hne
        obtain ⟨e', he'⟩ := mem_iff_nodeAt?.1 hk
        rw [hgone k hne] at he'
        cases he'
      · rintro rfl
        exact mem_iff_nodeAt?.2 ⟨e, hsame.trans he⟩
    blob := fun e' he' => (hc.blob child e' (hsame ▸ he')).1
    refs := fun p => by
      by_cases hp : p = child
      · subst hp
        rw [Buffer.refs, hsame, he, Option.map_some, Option.getD_some, Staged.references, hbare rfl,
          Staged.embedded, hnode]
        rfl
      · rw [Buffer.refs, hgone p hp]
        rfl
    pins := hpins.trans hc.pins
    preimages := hpreimages
    counted := by rw [parentsOf, hsame, ← parentsOf, hc.counted] }

/-- A count of 2^32 - 1 is zero after the next edge. -/
theorem parentsOf_insert_wrapped {size : Nat} {node : Node} (hh : h ∉ b.table) (hk : k ∈ b.table)
    (hone : node.kids.count k = 1) (hfull : b.parentsOf k = 2 ^ 32 - 1) : (b.insert h size node).parentsOf k = 0 := by
  obtain ⟨e, he⟩ := mem_iff_nodeAt?.1 hk
  have hne : h ≠ k := fun heq => hh (heq ▸ hk)
  rw [parentsOf, he] at hfull
  rw [parentsOf, nodeAt?_insert hh, if_neg hne, he]
  have hgain : (Staged.fresh size node).embedded.count k = 1 := hone
  rw [hgain, Option.map_some, Option.map_some, Option.getD_some, Staged.gainParents, UInt32.toNat_add]
  simp only [Option.map_some, Option.getD_some] at hfull
  rw [hfull]
  rfl

/-- What is left when an uncounted node goes with its new parent: all but the two of them. -/
theorem Uncounted.mem_dereference_top {q : Hash} (hu : b.Uncounted h q) (hpz : p ≠ Hash.zero) (hp : p ∉ b.table)
    (hpp : p ∉ b.pins) (hbare : b.refs h = []) (size : Nat) (k : Hash) :
    k ∈ ((b.top p h size).dereference p).table ↔ k ≠ h ∧ k ∈ b.table := by
  have hz : h ≠ Hash.zero := fun heq => hu.wellFormed.zero_not_mem (heq ▸ hu.mem)
  have hph : p ≠ h := fun heq => hp (heq ▸ hu.mem)
  have hpin : p ∈ (b.top p h size).pins := by rw [pins_top hpz hp hpp]; simp
  have hrefs : ((b.top p h size).withoutPin p).refs p = [h] := by
    show (b.top p h size).refs p = [h]
    rw [refs_top hp, if_pos rfl, kids_extension hz]
  have hrefs' : ((b.top p h size).withoutPin p).refs h = [] := by
    show (b.top p h size).refs h = []
    rw [refs_top hp, if_neg hph, hbare]
  obtain ⟨hone, hone'⟩ := parentsOf_top hu hpz hp hpp size
  obtain ⟨e, e', -, -, heq⟩ := release_pair (b := (b.top p h size).withoutPin p) hone hrefs hone' hph
  have htable : ((b.top p h size).dereference p).table = ((b.top p h size).unpin p).table := rfl
  rw [hrefs', release] at heq
  rw [htable, unpin_eq, if_pos hpin, heq, mem_remove, mem_remove]
  show k ≠ h ∧ k ≠ p ∧ k ∈ (b.top p h size).table ↔ _
  rw [mem_top hp]
  constructor
  · rintro ⟨hkh, hkp, hmem⟩
    exact ⟨hkh, hmem.resolve_left hkp⟩
  · rintro ⟨hkh, hmem⟩
    exact ⟨hkh, fun heq => hp (heq ▸ hmem), .inr hmem⟩

theorem node_top (hp : p ∉ b.table) (h : Hash) (size : Nat) (k : Hash) :
    ((b.top p h size).nodeAt? k).map (·.node) =
      if p = k then some (.trie (.extension [] h)) else (b.nodeAt? k).map (·.node) := by
  have hinsert : ((b.insert p size (.trie (.extension [] h))).nodeAt? k).map (·.node) =
      if p = k then some (.trie (.extension [] h)) else (b.nodeAt? k).map (·.node) := by
    rw [nodeAt?_insert hp]
    split
    · rfl
    · rw [Option.map_map]
      rfl
  rw [← hinsert, top]
  obtain ⟨hsome, hnone⟩ := getElem?_reference (b.insert p size (.trie (.extension [] h))) p Hash.zero k
  cases hk : (b.insert p size (.trie (.extension [] h))).table[k]? with
  | none => rw [nodeAt?, nodeAt?, hk, hnone hk]
  | some e =>
    obtain ⟨e', he', hnode, -⟩ := hsome e hk
    rw [nodeAt?_of_getElem? hk, nodeAt?_of_getElem? he', Option.map_some, Option.map_some]
    exact congrArg some hnode

/-- The node over the blob takes its count back to zero, and holds it. -/
theorem Stranded.uncounted (hs : Stranded child (2 ^ 32 - 1) b) (hz : h ≠ Hash.zero) (hne : h ≠ child)
    (size : Nat) : (b.top h child size).Uncounted child h := by
  have hmem : child ∈ b.table := (hs.mem_iff child).2 rfl
  have hcz : child ≠ Hash.zero := fun heq => hs.wellFormed.zero_not_mem (heq ▸ hmem)
  have hnew : h ∉ b.table := fun hh => hne ((hs.mem_iff h).1 hh)
  have hunpinned : h ∉ b.pins := by simp [hs.pins]
  exact {
    wellFormed := (hs.wellFormed.insert hz size _).reference h Hash.zero
    mem := (mem_top hnew child size child).2 (.inr hmem)
    zero := by
      rw [top, parentsOf_reference_of_ne hne.symm]
      exact parentsOf_insert_wrapped hnew hmem (by rw [kids_extension hcz]; simp) hs.counted
    pinned := by rw [pins_top hz hnew hunpinned]; simp
    pinned_mem := (mem_top hnew child size h).2 (.inl rfl)
    path := .inr (by rw [refs_top hnew, if_pos rfl, kids_extension hcz]; simp) }

/-- A second node over the blob is pinned and let go of, and takes the blob along. -/
theorem Stranded.forsaken (hs : Stranded child (2 ^ 32 - 1) b) (hz : h ≠ Hash.zero) (hne : h ≠ child)
    (hpz : p ≠ Hash.zero) (hpc : p ≠ child) (hph : p ≠ h) (size size' : Nat) :
    Forsaken child h (((b.top h child size).top p child size').dereference p) := by
  have hu := hs.uncounted hz hne size
  have hnew : h ∉ b.table := fun hh => hne ((hs.mem_iff h).1 hh)
  have hunpinned : h ∉ b.pins := by simp [hs.pins]
  have hpins := pins_top hz hnew hunpinned child size
  have hpnew : p ∉ (b.top h child size).table := by
    rw [mem_top hnew, hs.mem_iff]
    exact not_or.2 ⟨hph, hpc⟩
  have hpunpinned : p ∉ (b.top h child size).pins := by simp [hpins, hs.pins, hph]
  have hbare : (b.top h child size).refs child = [] := by
    rw [refs_top hnew, if_neg hne, hs.refs]
  have hcz : child ≠ Hash.zero := fun heq => hs.wellFormed.zero_not_mem (heq ▸ (hs.mem_iff child).2 rfl)
  have hkids : ∀ {q}, q ≠ child → ∀ k ∈ (Node.trie (.extension [] child)).kids, k = child ∧ q ≠ child := by
    intro q hq k hk
    rw [kids_extension hcz] at hk
    exact ⟨List.mem_singleton.1 hk, hq⟩
  have hw := (hu.wellFormed.insert hpz size' (.trie (.extension [] child))).reference p Hash.zero
  obtain ⟨hr, -, hpins', hpreimages⟩ := remnant_dereference hw.linked p
  exact {
    wellFormed := hw.dereference p
    mem_iff := fun k => by
      rw [hu.mem_dereference_top hpz hpnew hpunpinned hbare, mem_top hnew, hs.mem_iff]
      constructor
      · rintro ⟨hk, hor⟩
        exact hor.resolve_right hk
      · rintro rfl
        exact ⟨hne, .inl rfl⟩
    node := fun e he => by
      obtain ⟨old, hold, hnode, -⟩ := hr.entry h e he
      have htop := node_top hpnew child size' h
      rw [if_neg hph, node_top hnew, if_pos rfl, top, nodeAt?_of_getElem? hold] at htop
      exact hnode.trans (Option.some.inj htop)
    pinned := by
      have hpins'' := pins_top hpz hpnew hpunpinned child size'
      rw [top] at hpins'' ⊢
      rw [hpins', hpins'', hpins, List.mem_erase_of_ne hph.symm]
      simp
    preimages := by
      refine hpreimages.trans ?_
      rw [preimages_reference, (insert_frame ..).2.2, top, preimages_reference, (insert_frame ..).2.2, hs.preimages]
    pointsOnlyTo := ((((hs.pointsOnlyTo.insert hnew (hkids hne)).reference_zero h).insert hpnew
      (hkids hpc)).reference_zero p).remnant hr }

theorem held_reference_le (b : Buffer) (child parent k : Hash) :
    (b.reference child parent).held k ≤ b.held k + 1 := by
  rcases reference_gain b child parent with heq | ⟨-, hheld, -⟩
  · rw [heq]
    exact Nat.le_add_right _ _
  · rw [hheld]
    split <;> omega

end Buffer

/-! ## Runs -/

section Runs

variable {σ : Type} [KeyValueStore σ] {content : Hash → Node}

/-- A proper command after which fewer than 2^32 edges and pins hold any staged node, whatever
it has counted, and no edges form a cycle. -/
structure EdgeBounded (content : Hash → Node) (db : Database σ) (c : Command) : Prop
    extends Proper content db c where
  edges : ∀ h ∈ (c.run db).buffer.table, (c.run db).buffer.held h < 2 ^ 32
  acyclic : (c.run db).buffer.Acyclic

theorem EdgeBounded.of_pointsOnlyTo {db : Database σ} {c : Command} {child : Hash} {b : Buffer}
    (hp : Proper content db c) (hb : (c.run db).buffer = b) (ht : b.PointsOnlyTo child)
    (hheld : child ∈ b.table → b.held child < 2 ^ 32) : EdgeBounded content db c where
  toProper := hp
  edges h hh := by
    rw [hb] at hh ⊢
    by_cases hchild : h = child
    · exact hchild ▸ hheld (hchild ▸ hh)
    · have hle := ht.held_le hchild
      omega
  acyclic := hb ▸ ht.acyclic

/-- Commands that leave the store and the clean cache alone. -/
def Command.InMemory (c : Command) : Prop :=
  c.staging? ≠ none ∨ (∃ child parent, c = .reference child parent) ∨ ∃ root, c = .dereference root

theorem run_inMemory {c : Command} (hc : c.InMemory) (db : Database σ) :
    ∃ buffer, c.run db = { db with buffer } := by
  rcases hc with hstaging | ⟨child, parent, rfl⟩ | ⟨root, rfl⟩
  · obtain ⟨x, hx⟩ := Option.ne_none_iff_exists'.1 hstaging
    rw [run_staging hx]
    split
    · exact ⟨db.buffer, rfl⟩
    · exact ⟨_, rfl⟩
  · simp only [Command.run, Database.reference]
    split
    · exact ⟨db.buffer, rfl⟩
    · exact ⟨_, rfl⟩
  · simp only [Command.run, Database.dereference]
    split
    · exact ⟨db.buffer, rfl⟩
    · exact ⟨_, rfl⟩

variable {db start : Database (Faulty σ)} {cs cs' : List (Option Nat × Command)}

theorem Database.runAll_append (db : Database (Faulty σ)) (cs cs' : List (Option Nat × Command)) :
    db.runAll (cs ++ cs') = (db.runAll cs).runAll cs' := by
  induction cs generalizing db with
  | nil => rfl
  | cons step rest ih => exact ih _

theorem Database.runAll_concat (db : Database (Faulty σ)) (cs : List (Option Nat × Command)) (c : Command) :
    db.runAll (cs ++ [(none, c)]) = c.run ((db.runAll cs).allowing none) :=
  db.runAll_append cs [(none, c)]

theorem AllAllowed.append {allowed : Database (Faulty σ) → Command → Prop} (h : AllAllowed allowed db cs)
    (h' : AllAllowed allowed (db.runAll cs) cs') : AllAllowed allowed db (cs ++ cs') := by
  induction cs generalizing db with
  | nil => exact h'
  | cons step rest ih => exact ⟨h.1, ih h.2 h'⟩

variable [LawfulStore σ] {ps : List Put}

/-- A database without a clean cache in front of a store that holds some puts. -/
structure Front (ps : List Put) (db : Database (Faulty σ)) : Prop where
  holds : LawfulStore.Holds db.disk ps
  failPuts : db.disk.failPuts = false
  cleans : db.cleans = none

theorem Front.runAll (hf : Front ps db) (hcs : ∀ step ∈ cs, step.2.InMemory) : Front ps (db.runAll cs) := by
  induction cs generalizing db with
  | nil => exact hf
  | cons step rest ih =>
    obtain ⟨hstep, hrest⟩ := List.forall_mem_cons.1 hcs
    obtain ⟨buffer, heq⟩ := run_inMemory hstep (db.allowing step.1)
    have hnext : Front ps (step.2.run (db.allowing step.1)) := by
      rw [heq]
      exact ⟨hf.holds, hf.failPuts, hf.cleans⟩
    exact ih hnext hrest

end Runs

/-! ## The run -/

section Crowds

variable {σ : Type} [KeyValueStore σ] {content : Hash → Node} {db : Database (Faulty σ)}
  {child keeper passer p : Hash} {order hs parents : List Hash} {n m : Nat}

/-- Stage blobs of one byte. -/
def stagingBlobs (hs : List Hash) : List (Option Nat × Command) := hs.map fun h => (none, .insertBlob h [7])

/-- Reference a node as often as each of its parents can. -/
def referencing (child : Hash) (parents : List Hash) : List (Option Nat × Command) :=
  parents.flatMap fun p => List.replicate Edges.maxCount (none, .reference child p)

/-- Stage and pin a node over another one. -/
def pinningOver (child h : Hash) : List (Option Nat × Command) :=
  [(none, .insert h [8] (.trie (.extension [] child))), (none, .reference h Hash.zero)]

/-- Pin two nodes over a blob, and let go of the second one. -/
def forsaking (child keeper passer : Hash) : List (Option Nat × Command) :=
  pinningOver child keeper ++ (pinningOver child passer ++ [(none, .dereference passer)])

/-- Count 65535 parents for each of the older blobs, store these, and let a node over the blob
that is left go while another one is pinned. -/
def wrapping (parents : List Hash) (child keeper passer : Hash) : List (Option Nat × Command) :=
  stagingBlobs (parents ++ [child]) ++ (referencing child parents ++
    ((none, .cap (ByteSize.ofNat 233)) :: forsaking child keeper passer))

theorem inMemory_stagingBlobs (hs : List Hash) : ∀ step ∈ stagingBlobs hs, step.2.InMemory := by
  intro step hstep
  obtain ⟨h, -, rfl⟩ := List.mem_map.1 hstep
  exact .inl (Option.some_ne_none _)

theorem inMemory_referencing (child : Hash) (parents : List Hash) :
    ∀ step ∈ referencing child parents, step.2.InMemory := by
  intro step hstep
  obtain ⟨p, -, hreference⟩ := List.mem_flatMap.1 hstep
  obtain rfl := (List.mem_replicate.1 hreference).2
  exact .inr (.inl ⟨child, p, rfl⟩)

theorem inMemory_pinningOver (child h : Hash) : ∀ step ∈ pinningOver child h, step.2.InMemory := by
  intro step hstep
  rcases List.mem_pair.1 hstep with rfl | rfl
  · exact .inl (Option.some_ne_none _)
  · exact .inr (.inl ⟨h, Hash.zero, rfl⟩)

theorem inMemory_forsaking (child keeper passer : Hash) :
    ∀ step ∈ forsaking child keeper passer, step.2.InMemory := by
  intro step hstep
  rcases List.mem_append.1 hstep with hstep | hstep
  · exact inMemory_pinningOver child keeper step hstep
  rcases List.mem_append.1 hstep with hstep | hstep
  · exact inMemory_pinningOver child passer step hstep
  · obtain rfl := List.mem_singleton.1 hstep
    exact .inr (.inr ⟨passer, rfl⟩)

theorem Buffer.Crowd.after_stagingBlobs (content : Hash → Node) (hc : db.buffer.Crowd order child 0)
    (hnodup : (order ++ hs).Nodup)
    (hhs : ∀ h ∈ hs, h ≠ Hash.zero ∧ content h = .raw [7]) (hlen : (order ++ hs).length < 2 ^ 32) :
    AllAllowed (EdgeBounded content) db (stagingBlobs hs) ∧
      (db.runAll (stagingBlobs hs)).buffer.Crowd (order ++ hs) child 0 := by
  induction hs generalizing db order with
  | nil => exact ⟨trivial, by rwa [List.append_nil]⟩
  | cons h rest ih =>
    obtain ⟨⟨hz, hcontent⟩, hrest⟩ := List.forall_mem_cons.1 hhs
    rw [List.append_cons] at hnodup hlen ⊢
    have hnew : h ∉ order := fun hmem => (List.nodup_append.1 (List.nodup_append.1 hnodup).1).2.2 h hmem h
      (List.mem_singleton_self h) rfl
    have hstaged : (Command.insertBlob h [7]).run (db.allowing none) =
        { db.allowing none with buffer := db.buffer.insert h 1 (.raw [7]) } := by
      rw [run_staging rfl, if_neg hz]
      rfl
    have hnext : ((Command.insertBlob h [7]).run (db.allowing none)).buffer.Crowd (order ++ [h]) child 0 := by
      rw [hstaged]
      exact hc.insert hz hnew (by simp only [List.length_append, List.length_singleton] at hlen; omega)
    obtain ⟨hall, hend⟩ := ih hnext hnodup hrest hlen
    have hproper : Proper content (db.allowing none) (.insertBlob h [7]) :=
      .of_staging rfl hcontent.symm (List.forall_mem_nil _)
    refine ⟨⟨.of_pointsOnlyTo hproper rfl hnext.pointsOnlyTo fun _ => ?_, hall⟩, hend⟩
    rw [hnext.held]
    decide

theorem Buffer.Crowd.after_references (content : Hash → Node) (hc : db.buffer.Crowd order child n)
    (hchild : child ∈ order) (hp : p ∈ order) (hne : p ≠ child)
    (hroom : (db.buffer.refs p).count child + m ≤ Edges.maxCount) (hn : n + m < 2 ^ 32)
    (hlen : order.length < 2 ^ 32) :
    let cs := List.replicate m (none, Command.reference child p)
    AllAllowed (EdgeBounded content) db cs ∧ (db.runAll cs).buffer.Crowd order child (n + m) ∧
      ∀ k, k ≠ p → (db.runAll cs).buffer.refs k = db.buffer.refs k := by
  induction m generalizing db n with
  | zero => exact ⟨trivial, hc, fun _ _ => rfl⟩
  | succ m ih =>
    have hcz : child ≠ Hash.zero := fun heq => hc.wellFormed.zero_not_mem (heq ▸ hc.mem_iff.2 hchild)
    obtain ⟨hc', hcount, hrefs⟩ := hc.reference hchild hp hne (by omega) (by omega) hlen
    have hrun : (Command.reference child p).run (db.allowing none) =
        { db.allowing none with buffer := db.buffer.reference child p } := by
      simp only [Command.run, Database.reference, if_neg (mt Hash.isZero_iff.1 hcz)]
      rfl
    have hnext : ((Command.reference child p).run (db.allowing none)).buffer = db.buffer.reference child p := by
      rw [hrun]
    rw [← hnext] at hc' hcount hrefs
    obtain ⟨hall, hend, hsame⟩ := ih hc' (by omega) (by omega)
    have hproper : Proper content (db.allowing none) (.reference child p) := .of_quiet rfl (by simp)
    refine ⟨⟨.of_pointsOnlyTo hproper rfl hc'.pointsOnlyTo fun _ => ?_, hall⟩, ?_, fun k hk => ?_⟩
    · rw [hc'.held]
      omega
    · rw [Nat.add_right_comm] at hend
      exact hend
    · exact (hsame k hk).trans (hrefs k hk)

theorem Buffer.Crowd.after_referencing (content : Hash → Node) (hc : db.buffer.Crowd order child n)
    (hchild : child ∈ order) (hsub : parents ⊆ order)
    (hnodup : parents.Nodup) (hne : child ∉ parents) (hnone : ∀ p ∈ parents, db.buffer.refs p = [])
    (hn : n + Edges.maxCount * parents.length < 2 ^ 32) (hlen : order.length < 2 ^ 32) :
    AllAllowed (EdgeBounded content) db (referencing child parents) ∧
      (db.runAll (referencing child parents)).buffer.Crowd order child (n + Edges.maxCount * parents.length) := by
  induction parents generalizing db n with
  | nil => exact ⟨trivial, hc⟩
  | cons p rest ih =>
    rw [List.nodup_cons] at hnodup
    obtain ⟨hp, hsub'⟩ := List.cons_subset.1 hsub
    obtain ⟨hpnone, hrest⟩ := List.forall_mem_cons.1 hnone
    obtain ⟨hpc, hrestc⟩ := not_or.1 (mt List.mem_cons.2 hne)
    rw [List.length_cons, Nat.mul_succ] at hn ⊢
    obtain ⟨hall, hmid, hsame⟩ := hc.after_references content (m := Edges.maxCount) hchild hp (Ne.symm hpc)
      (by rw [hpnone]; exact Nat.le_of_eq (Nat.zero_add _)) (by omega) hlen
    obtain ⟨hall', hend⟩ := ih hmid hsub' hnodup.2 hrestc
      (fun q hq => by rw [hsame q fun heq => hnodup.1 (heq ▸ hq)]; exact hrest q hq) (by omega)
    rw [referencing, List.flatMap_cons, Database.runAll_append]
    refine ⟨hall.append hall', ?_⟩
    rw [Nat.add_assoc, Nat.add_comm Edges.maxCount] at hend
    exact hend

theorem pinningOver_spec {h : Hash} (ht : db.buffer.PointsOnlyTo child) (hheld : db.buffer.held child + 2 < 2 ^ 32)
    (hmem : child ∈ db.buffer.table) (hcz : child ≠ Hash.zero) (hz : h ≠ Hash.zero) (hh : h ∉ db.buffer.table)
    (hcontent : content h = .trie (.extension [] child)) :
    let after := db.runAll (pinningOver child h)
    AllAllowed (EdgeBounded content) db (pinningOver child h) ∧ after.buffer = db.buffer.top h child 1 ∧
      after.buffer.PointsOnlyTo child ∧ after.buffer.held child ≤ db.buffer.held child + 2 := by
  have hne : h ≠ child := fun heq => hh (heq ▸ hmem)
  have hkids := Buffer.kids_extension hcz
  have hinsert : (Command.insert h [8] (.trie (.extension [] child))).run (db.allowing none) =
      { db.allowing none with buffer := db.buffer.insert h 1 (.trie (.extension [] child)) } := by
    rw [run_staging rfl, if_neg hz]
    rfl
  have ht' : (db.buffer.insert h 1 (.trie (.extension [] child))).PointsOnlyTo child :=
    ht.insert hh fun k hk => ⟨List.mem_singleton.1 (hkids ▸ hk), hne⟩
  have hheld' : (db.buffer.insert h 1 (.trie (.extension [] child))).held child = db.buffer.held child + 1 := by
    rw [Buffer.held_insert hh, hkids, List.count_singleton_self]
  have hpin : (Command.reference h Hash.zero).run
      (((Command.insert h [8] (.trie (.extension [] child))).run (db.allowing none)).allowing none) =
      { db.allowing none with buffer := db.buffer.top h child 1 } := by
    rw [hinsert]
    simp only [Command.run, Database.reference, if_neg (mt Hash.isZero_iff.1 hz)]
    rfl
  have ht'' : (db.buffer.top h child 1).PointsOnlyTo child := ht'.reference_zero h
  have hheld'' : (db.buffer.top h child 1).held child ≤ db.buffer.held child + 2 :=
    (Buffer.held_reference_le _ h Hash.zero child).trans (by rw [hheld'])
  have hproper : Proper content (db.allowing none) (.insert h [8] (.trie (.extension [] child))) :=
    .of_staging rfl hcontent.symm fun k hk => .inl (List.mem_singleton.1 (hkids ▸ hk) ▸ hmem)
  have hstaged : EdgeBounded content (db.allowing none) (.insert h [8] (.trie (.extension [] child))) :=
    .of_pointsOnlyTo hproper (by rw [hinsert]) ht' fun _ => by omega
  have hpinned : EdgeBounded content (((Command.insert h [8] (.trie (.extension [] child))).run
      (db.allowing none)).allowing none) (.reference h Hash.zero) :=
    .of_pointsOnlyTo (.of_quiet rfl (by simp)) (congrArg Database.buffer hpin) ht'' fun _ => hheld''.trans_lt hheld
  have hafter : db.runAll (pinningOver child h) = { db.allowing none with buffer := db.buffer.top h child 1 } := hpin
  rw [hafter]
  exact ⟨⟨hstaged, hpinned, trivial⟩, rfl, ht'', hheld''⟩

/-- **The blob is collected below a pinned node.** -/
theorem Buffer.Stranded.after_forsaking (hs : db.buffer.Stranded child (2 ^ 32 - 1))
    (hnodup : [child, keeper, passer, Hash.zero].Nodup)
    (hcontent : ∀ h ∈ [keeper, passer], content h = .trie (.extension [] child)) :
    AllAllowed (EdgeBounded content) db (forsaking child keeper passer) ∧
      (db.runAll (forsaking child keeper passer)).buffer.Forsaken child keeper := by
  simp only [List.nodup_cons, List.mem_cons, not_or, List.not_mem_nil] at hnodup
  obtain ⟨⟨hck, hcp, hcz, -⟩, ⟨hkp, hkz, -⟩, ⟨hpz, -⟩, -⟩ := hnodup
  have hkeeper := hcontent keeper List.mem_cons_self
  have hpasser := hcontent passer (List.mem_cons_of_mem _ List.mem_cons_self)
  have hmem : child ∈ db.buffer.table := (hs.mem_iff child).2 rfl
  have hnew : keeper ∉ db.buffer.table := fun hh => hck ((hs.mem_iff keeper).1 hh).symm
  obtain ⟨hall, hbuffer, ht, hheld⟩ :=
    pinningOver_spec hs.pointsOnlyTo (by rw [hs.held]; decide) hmem hcz hkz hnew hkeeper
  have hmem' : child ∈ (db.runAll (pinningOver child keeper)).buffer.table := by
    rw [hbuffer, Buffer.mem_top hnew]
    exact .inr hmem
  have hnew' : passer ∉ (db.runAll (pinningOver child keeper)).buffer.table := by
    rw [hbuffer, Buffer.mem_top hnew, hs.mem_iff]
    exact not_or.2 ⟨Ne.symm hkp, Ne.symm hcp⟩
  rw [hs.held] at hheld
  obtain ⟨hall', hbuffer', -⟩ := pinningOver_spec ht (by omega) hmem' hcz hpz hnew' hpasser
  have hrun : (Command.dereference passer).run
      (((db.runAll (pinningOver child keeper)).runAll (pinningOver child passer)).allowing none) =
      { ((db.runAll (pinningOver child keeper)).runAll (pinningOver child passer)).allowing none with
        buffer := ((db.buffer.top keeper child 1).top passer child 1).dereference passer } := by
    simp only [Command.run, Database.dereference, if_neg (mt Hash.isZero_iff.1 hpz)]
    rw [← hbuffer, ← hbuffer']
    rfl
  have hend := hs.forsaken hkz (Ne.symm hck) hpz (Ne.symm hcp) (Ne.symm hkp) 1 1
  refine ⟨hall.append (hall'.append ⟨.of_pointsOnlyTo (.of_dereference ?_) (congrArg Database.buffer hrun)
    hend.pointsOnlyTo fun hchild => absurd ((hend.mem_iff child).1 hchild) hck, trivial⟩), ?_⟩
  · show passer ∈ ((db.runAll (pinningOver child keeper)).runAll (pinningOver child passer)).buffer.pins
    rw [hbuffer', hbuffer, Buffer.pins_top hpz (hbuffer ▸ hnew') ?_]
    · simp
    · rw [Buffer.pins_top hkz hnew (by simp [hs.pins]), hs.pins]
      simpa using Ne.symm hkp
  · rw [forsaking, Database.runAll_append, Database.runAll_append]
    show ((Command.dereference passer).run _).buffer.Forsaken child keeper
    rw [hrun]
    exact hend

variable [LawfulStore σ]

theorem Buffer.Forsaken.unreadable {ps : List Put} (hb : db.buffer.Forsaken child keeper) (hf : Front ps db)
    (hchild : child ∉ nodeHashes ps) (hne : child ≠ keeper) (hz : child ≠ Hash.zero) :
    child ∉ db.buffer.table ∧ ¬ db.Stored child ∧ (db.node child).1 = .error (.notFound (.node child)) := by
  have hmem : child ∉ db.buffer.table := fun hmem => hne ((hb.mem_iff child).1 hmem)
  have hget : KeyValueStore.get db.disk child.bytes = .ok none := LawfulStore.get_node_none hf.holds hchild
  refine ⟨hmem, fun hstored => ?_, ?_⟩
  · obtain ⟨value, hvalue⟩ := hstored
    rw [hget] at hvalue
    cases hvalue
  · rw [Table.not_mem_iff_getElem?] at hmem
    simp only [Database.node, if_neg (mt Hash.isZero_iff.1 hz), Database.cached?, hf.cleans, hmem, Database.load, hget]

variable [RegularStore σ]

/-- The store takes all that a cap writes, if it takes the blob under any hash. -/
theorem Buffer.Crowd.ready (hc : db.buffer.Crowd order child n) (hf : Front [] db)
    (hfits : ∀ h : Hash, RegularStore.Fits σ ⟨h.bytes, [7]⟩) (limit : ByteSize) :
    Ready (db.allowing none).disk ((Flush.cap limit).puts (db.allowing none)) := by
  have hw : (db.allowing none).buffer.WellFormed := hc.wellFormed
  refine ⟨rfl, hf.failPuts, [], hf.holds.2, fun p hp => .inl ?_⟩
  rcases Flush.mem_puts.1 hp with ⟨x, hx, rfl⟩ | ⟨x, hx, rfl⟩
  · have hmem := Flush.preimages_subset _ _ hx
    rw [show (db.allowing none).buffer.preimages = [] from hc.preimages] at hmem
    cases hmem
  · obtain ⟨hnode, -, -⟩ := hc.blob x.1 _ (Buffer.nodeAt?_of_getElem? ((Flush.nodes_staged _ hw).1 x hx))
    have hencoded : (Database.nodePut x) = ⟨x.1.bytes, [7]⟩ := by
      rw [Database.nodePut, show x.2.node = .raw [7] from hnode]
      rfl
    exact hencoded ▸ hfits x.1

/-- **A cap stores all blobs but the newest**, and leaves its count as it is. -/
theorem Buffer.Crowd.after_cap (content : Hash → Node) (hc : db.buffer.Crowd (parents ++ [child]) child n)
    (hparents : parents ≠ [])
    (hn : (parents ++ [child]).length + n < 2 ^ 33) (hf : Front [] db)
    (hfits : ∀ h : Hash, RegularStore.Fits σ ⟨h.bytes, [7]⟩) :
    let c := Command.cap (ByteSize.ofNat 233)
    EdgeBounded content (db.allowing none) c ∧ (c.run (db.allowing none)).buffer.Stranded child n ∧
      ∃ ps, Front ps (c.run (db.allowing none)) ∧ nodeHashes ps = parents := by
  have hw : (db.allowing none).buffer.WellFormed := hc.wellFormed
  have hr : (db.allowing none).buffer.InRange := hc.inRange hn
  obtain ⟨after, hafter⟩ := Flush.run_ok (f := .cap (ByteSize.ofNat 233)) (by simp) (hc.ready hf hfits _)
  have hcap : (db.allowing none).cap (ByteSize.ofNat 233) = (.ok (), after) := hafter
  have hrun : (Command.cap (ByteSize.ofNat 233)).run (db.allowing none) = after := by
    rw [Command.run, hcap]
  obtain ⟨k, hk⟩ := Database.cap_succeeded hw hc.accounted hr (hc.over hparents hn) hcap
  obtain rfl : k = parents.length := hk.least.unique hc.least
  have htake : (db.allowing none).flushOrder.take parents.length = parents := by
    rw [show (db.allowing none).flushOrder = parents ++ [child] from hc.flushOrder, List.take_left]
  have hstranded : after.buffer.Stranded child n := by
    refine hc.stranded (hrun ▸ (run_effect _ _).wellFormed hw) (fun h => ?_) hk.pins ?_
    · rw [hk.entry, htake]
      rfl
    · rw [hk.preimages, show (db.allowing none).buffer.preimages = [] from hc.preimages]
      split <;> rfl
  obtain ⟨hwrote, -⟩ := Flush.succeeded hafter
  have hholds : LawfulStore.Holds after.disk ([] ++ (Flush.cap (ByteSize.ofNat 233)).puts (db.allowing none)) :=
    hwrote.holds hf.holds
  obtain ⟨-, hfail, batches, hjournal, hputs⟩ := Faulty.wrote_store hwrote
  obtain ⟨batches', hjournal', -, hkeys, -⟩ := hk.written
  obtain rfl : batches = batches' := List.append_cancel_left (hjournal.symm.trans hjournal')
  have hcleans : after.cleans = none := by
    obtain ⟨_, _, _, _, disk, buffer, -, -, -, heq, -⟩ := (db.allowing none).cap_spec (ByteSize.ofNat 233)
    rw [hcap] at heq
    rw [show after = _ from heq]
    exact hf.cleans
  intro c
  rw [hrun]
  refine ⟨.of_pointsOnlyTo (.of_quiet rfl (by simp)) (by rw [hrun]) hstranded.pointsOnlyTo fun _ => ?_, hstranded,
    (Flush.cap (ByteSize.ofNat 233)).puts (db.allowing none), ⟨?_, hfail.trans hf.failPuts, hcleans⟩, ?_⟩
  · rw [hstranded.held]
    decide
  · exact hholds
  · rw [← hputs, hkeys, htake]

/-- **A run in which a blob is collected below a pinned node**, although fewer than 2^32 edges
and pins hold any node at any time. -/
theorem wrapping_spec (content : Hash → Node) (parents : List Hash) (child keeper passer : Hash)
    (hstart : db.buffer = Buffer.empty) (hf : Front [] db) (hlength : parents.length = 65537)
    (hnodup : (parents ++ [child]).Nodup) (hz : Hash.zero ∉ parents)
    (hnodup' : [child, keeper, passer, Hash.zero].Nodup) (hblob : ∀ h ∈ parents ++ [child], content h = .raw [7])
    (hcontent : ∀ h ∈ [keeper, passer], content h = .trie (.extension [] child))
    (hfits : ∀ h : Hash, RegularStore.Fits σ ⟨h.bytes, [7]⟩) :
    let after := db.runAll (wrapping parents child keeper passer)
    AllAllowed (EdgeBounded content) db (wrapping parents child keeper passer) ∧
      after.buffer.Forsaken child keeper ∧ ∃ ps, Front ps after ∧ nodeHashes ps = parents := by
  have hcz : child ≠ Hash.zero := by
    rintro rfl
    simp at hnodup'
  have hne : child ∉ parents := fun hmem =>
    (List.nodup_append.1 hnodup).2.2 child hmem child (List.mem_singleton_self child) rfl
  have hcount : 0 + Edges.maxCount * parents.length = 2 ^ 32 - 1 := by
    rw [hlength]
    rfl
  have hlen : (parents ++ [child]).length = 65538 := by
    rw [List.length_append, hlength]
    rfl
  -- stage the blobs, count their references, store the older ones
  have hempty : db.buffer.Crowd [] child 0 := hstart ▸ .empty child
  have hblobs : ∀ h ∈ parents ++ [child], h ≠ Hash.zero ∧ content h = .raw [7] := by
    refine fun h hh => ⟨?_, hblob h hh⟩
    rintro rfl
    simp [hz, hcz.symm] at hh
  have hnodup'' : ([] ++ (parents ++ [child])).Nodup := hnodup
  obtain ⟨hstaged, hcrowd⟩ := hempty.after_stagingBlobs content hnodup'' hblobs
    (by rw [List.nil_append, hlen]; decide)
  rw [List.nil_append] at hcrowd
  obtain ⟨hreferenced, hfull⟩ := hcrowd.after_referencing content
    (List.mem_append_right parents (List.mem_singleton_self child)) (List.subset_append_left parents [child])
    (List.nodup_append.1 hnodup).1 hne (fun p _ => hcrowd.refs_eq_nil p) (by omega) (by omega)
  rw [hcount] at hfull
  have hfront : Front [] ((db.runAll (stagingBlobs (parents ++ [child]))).runAll (referencing child parents)) :=
    (hf.runAll (inMemory_stagingBlobs _)).runAll (inMemory_referencing child parents)
  obtain ⟨hcapped, hstranded, ps, hfront', hkeys⟩ := hfull.after_cap content
    (by rintro rfl; cases hlength) (by omega) hfront hfits
  obtain ⟨hforsaking, hforsaken⟩ := hstranded.after_forsaking hnodup' hcontent
  rw [wrapping, Database.runAll_append, Database.runAll_append]
  exact ⟨hstaged.append (hreferenced.append ⟨hcapped, hforsaking⟩), hforsaken, ps,
    hfront'.runAll (inMemory_forsaking child keeper passer), hkeys⟩

theorem Buffer.Forsaken.after_commit (content : Hash → Node) {ps : List Put}
    (hb : db.buffer.Forsaken child keeper) (hf : Front ps db) (hchild : child ∉ nodeHashes ps) (hne : child ≠ keeper)
    (hfits : RegularStore.Fits σ ⟨keeper.bytes, (Node.trie (.extension [] child)).encode⟩) :
    EdgeBounded content (db.allowing none) (.commit keeper) ∧ ((db.allowing none).commit keeper).1 = .ok () ∧
      ∃ qs, LawfulStore.Holds ((Command.commit keeper).run (db.allowing none)).disk qs ∧ keeper ∈ nodeHashes qs ∧
        child ∉ nodeHashes qs := by
  have hmem : keeper ∈ db.buffer.table := (hb.mem_iff keeper).2 rfl
  have hz : keeper ≠ Hash.zero := fun heq => hb.wellFormed.zero_not_mem (heq ▸ hmem)
  have hw : (db.allowing none).buffer.WellFormed := hb.wellFormed
  have honly : ∀ x ∈ (Flush.commit keeper).nodes (db.allowing none),
      x.1 = keeper ∧ x.2.node = .trie (.extension [] child) := by
    intro x hx
    have hentry : db.buffer.table[x.1]? = some x.2 := ((Flush.commit keeper).nodes_staged hw).1 x hx
    have hkey := (hb.mem_iff x.1).1 (Table.mem_iff_getElem?.2 ⟨x.2, hentry⟩)
    rw [hkey] at hentry
    exact ⟨hkey, hb.node _ hentry⟩
  have hready : Ready (db.allowing none).disk ((Flush.commit keeper).puts (db.allowing none)) := by
    refine ⟨rfl, hf.failPuts, ps, hf.holds.2, fun p hp => .inl ?_⟩
    rcases Flush.mem_puts.1 hp with ⟨x, hx, rfl⟩ | ⟨x, hx, rfl⟩
    · rw [show (Flush.commit keeper).preimages (db.allowing none) = [] from hb.preimages] at hx
      cases hx
    · obtain ⟨hkey, hnode⟩ := honly x hx
      rw [Database.nodePut, hkey, hnode]
      exact hfits
  obtain ⟨after, hafter⟩ := Flush.run_ok (f := .commit keeper) (fun heq => hz (Flush.commit.inj heq)) hready
  obtain ⟨hwrote, -⟩ := Flush.succeeded hafter
  have hcommit : (db.allowing none).commit keeper = (.ok (), after) := hafter
  have hbounded : EdgeBounded content (db.allowing none) (.commit keeper) := by
    obtain ⟨_, gone, -, -, -, hsame, -⟩ := Flush.spec (.commit keeper) (db.allowing none)
    have hr : Buffer.Remnant (db.allowing none).buffer ((Command.commit keeper).run (db.allowing none)).buffer :=
      hsame.remnant (Buffer.Remnant.discards hw.linked (gone.map (·.1))).1
    exact .of_pointsOnlyTo (.of_quiet rfl (by simp)) rfl (hb.pointsOnlyTo.remnant hr) fun hmem =>
      absurd ((hb.mem_iff child).1 (hr.mem hmem)) hne
  rw [Command.run, hcommit]
  refine ⟨hbounded, rfl, _, Wrote.holds hwrote hf.holds, ?_, ?_⟩
  · rw [nodeHashes_append, Flush.nodeHashes_puts, List.mem_append]
    exact .inr ((Buffer.mem_below hb.wellFormed).2 ⟨hmem, .refl⟩)
  · rw [nodeHashes_append, Flush.nodeHashes_puts, List.mem_append]
    rintro (hold | hnew)
    · exact hchild hold
    · obtain ⟨x, hx, rfl⟩ := List.mem_map.1 hnew
      exact hne (honly x hx).1

end Crowds

/-! ## Hashes for it -/

/-- A hash for each number below 2^32. -/
def Hash.numbered (i : Nat) : Hash := ⟨LittleEndian.encode 4 i ++ List.replicate 28 1, by simp⟩

theorem Hash.numbered_inj {i j : Nat} (hi : i < 2 ^ 32) (hj : j < 2 ^ 32) (heq : numbered i = numbered j) : i = j := by
  have hbytes := List.append_cancel_right (congrArg Hash.bytes heq)
  rw [← LittleEndian.decode_encode 4 i hi, hbytes, LittleEndian.decode_encode 4 j hj]

theorem Hash.numbered_ne {x : UInt8} (hx : x ≠ 1) (i : Nat) : numbered i ≠ .filled x := by
  intro heq
  have hlast := congrArg (fun h => h.bytes.getLast?) heq
  simp [numbered, filled, List.getLast?_append] at hlast
  exact hx hlast.symm

/-- The first `n` of these hashes. -/
-- irreducible, as 65537 of them are too many to be looked at
@[irreducible] def Hash.firstNumbered (n : Nat) : List Hash := (List.range n).map numbered

theorem Hash.length_firstNumbered (n : Nat) : (firstNumbered n).length = n := by
  rw [firstNumbered, List.length_map, List.length_range]

theorem Hash.nodup_firstNumbered {n : Nat} (hn : n ≤ 2 ^ 32) : (firstNumbered n).Nodup := by
  rw [firstNumbered]
  refine (List.nodup_map_iff_inj_on List.nodup_range).2 fun i hi j hj heq => ?_
  rw [List.mem_range] at hi hj
  exact numbered_inj (by omega) (by omega) heq

theorem Hash.filled_not_mem_firstNumbered {x : UInt8} (hx : x ≠ 1) (n : Nat) : filled x ∉ firstNumbered n := by
  rw [firstNumbered, List.mem_map]
  rintro ⟨i, -, heq⟩
  exact numbered_ne hx i heq

/-- Two nodes over one blob, and other blobs. -/
def overNewestBlob (h : Hash) : Node :=
  if h = .filled 3 ∨ h = .filled 4 then .trie (.extension [] (.filled 2)) else .raw [7]

/-- The blob counts 65535 references from each of 65537 others, loses sight of them in a cap,
and is collected below the first one of the two nodes when the second one goes. -/
def losingBlob : List (Option Nat × Command) :=
  wrapping (Hash.firstNumbered 65537) (.filled 2) (.filled 3) (.filled 4)

theorem losingBlob_spec {σ : Type} [KeyValueStore σ] [LawfulStore σ] [RegularStore σ] {disk : σ}
    (hdisk : LawfulStore.Holds disk []) (hfits : ∀ h : Hash, RegularStore.Fits σ ⟨h.bytes, [7]⟩) :
    let start := Database.ofValid (Faulty.reliable disk) Config.withoutCleanCache (by decide)
    AllAllowed (EdgeBounded overNewestBlob) start losingBlob ∧
      (start.runAll losingBlob).buffer.Forsaken (.filled 2) (.filled 3) ∧
      ∃ ps, Front ps (start.runAll losingBlob) ∧ Hash.filled 2 ∉ nodeHashes ps := by
  intro start
  have hother {x : UInt8} (hx : x ≠ 1) := Hash.filled_not_mem_firstNumbered hx 65537
  have hnodup : (Hash.firstNumbered 65537 ++ [Hash.filled 2]).Nodup := by
    refine List.nodup_append.2 ⟨Hash.nodup_firstNumbered (by decide), List.nodup_singleton _, ?_⟩
    rintro h hh k hk rfl
    obtain rfl := List.mem_singleton.1 hk
    exact hother (by decide) hh
  have hblob : ∀ h ∈ Hash.firstNumbered 65537 ++ [Hash.filled 2], overNewestBlob h = .raw [7] := by
    intro h hh
    refine if_neg ?_
    rintro (rfl | rfl)
    · exact (List.mem_append.1 hh).elim (hother (by decide)) (by decide)
    · exact (List.mem_append.1 hh).elim (hother (by decide)) (by decide)
  have hzero : Hash.zero ∉ Hash.firstNumbered 65537 := by
    rw [show Hash.zero = .filled 0 from rfl]
    exact hother (by decide)
  have hfront : Front [] start := ⟨⟨rfl, hdisk⟩, rfl, rfl⟩
  have hlength := Hash.length_firstNumbered 65537
  obtain ⟨hall, hforsaken, ps, hfront', hkeys⟩ := wrapping_spec overNewestBlob (Hash.firstNumbered 65537) (.filled 2)
    (.filled 3) (.filled 4) rfl hfront hlength hnodup hzero (by decide) hblob (by decide) hfits
  exact ⟨hall, hforsaken, ps, hfront', hkeys ▸ hother (by decide)⟩

/-- A commit of the node that is left ends the run with the node stored, and not the blob. -/
theorem losingBlob_committed {σ : Type} [KeyValueStore σ] [LawfulStore σ] [RegularStore σ] {disk : σ}
    (hdisk : LawfulStore.Holds disk []) (hfits : ∀ h : Hash, RegularStore.Fits σ ⟨h.bytes, [7]⟩)
    (hfits' : RegularStore.Fits σ ⟨(Hash.filled 3).bytes, (overNewestBlob (.filled 3)).encode⟩) :
    let start := Database.ofValid (Faulty.reliable disk) Config.withoutCleanCache (by decide)
    AllAllowed (EdgeBounded overNewestBlob) start (losingBlob ++ [(none, .commit (.filled 3))]) ∧
      ∃ qs, LawfulStore.Holds (start.runAll (losingBlob ++ [(none, .commit (.filled 3))])).disk.store qs ∧
        Hash.filled 3 ∈ nodeHashes qs ∧ Hash.filled 2 ∉ nodeHashes qs := by
  intro start
  obtain ⟨hall, hforsaken, ps, hfront, hnever⟩ := losingBlob_spec hdisk hfits
  obtain ⟨hcommit, -, qs, hqs, hkeeper, hchild⟩ :=
    hforsaken.after_commit overNewestBlob hfront hnever (by decide) hfits'
  refine ⟨hall.append ⟨hcommit, trivial⟩, qs, ?_, hkeeper, hchild⟩
  rw [Database.runAll_concat]
  exact hqs.2

end MerkleBuffer
