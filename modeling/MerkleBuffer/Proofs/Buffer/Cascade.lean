/-
Releases in any order.

A release lets go of what is pending in the order of a list, with the explicit references
of a node in the order in which they were made. Here the pending hashes are a multiset,
and any of them may come next (`ReleaseStep`): so go all orders in which a table of
references can be gone through, and the release itself is one run (`release_steps`).

Every run ends, as each step makes the table or the multiset smaller
(`wellFounded_releaseStep`). What keeps all runs together is `Cascade`: a node that is
left has counted down by as often as the start and the nodes that are gone let go of it,
and a node is gone only if each set that is closed under the release contains it
(`ClosedUnderRelease`). So what is gone in the end is the least closed set
(`Cascade.isLeast`), whatever the order was, and all runs end in one buffer
(`Cascade.unique`).
-/
import MerkleBuffer.Proofs.Buffer.Sizes

namespace MerkleBuffer

/-- A staged node without its parent count. -/
def Staged.uncounted (e : Staged) : Staged := { e with parents := 0 }

namespace Buffer

variable {b b' c c' : Buffer} {h k : Hash} {e : Staged} {gone gone' : List Hash} {start pending : Multiset Hash}

/-! ## Steps -/

/-- **One step of a release**, from a buffer and what is pending: any one of the pending
hashes is let go of. -/
inductive ReleaseStep : Buffer × Multiset Hash → Buffer × Multiset Hash → Prop where
  | skip (b : Buffer) (h : Hash) (rest : Multiset Hash) :
    h ∉ b.table → ReleaseStep (b, h ::ₘ rest) (b, rest)
  | clamp (b : Buffer) (h : Hash) (e : Staged) (rest : Multiset Hash) : b.table[h]? = some e → e.parents = 0 →
    ReleaseStep (b, h ::ₘ rest) (b.countClamped.remove h e, e.references + rest)
  | leave (b : Buffer) (h : Hash) (e : Staged) (rest : Multiset Hash) : b.table[h]? = some e → e.parents = 1 →
    ReleaseStep (b, h ::ₘ rest) (b.remove h e, e.references + rest)
  | lower (b : Buffer) (h : Hash) (e : Staged) (rest : Multiset Hash) :
    b.table[h]? = some e → e.parents ≠ 0 → e.parents ≠ 1 →
    ReleaseStep (b, h ::ₘ rest) ({ b with table := b.table.modify h Staged.loseParent }, rest)

/-- **A release ends**, whatever comes next at each step. -/
theorem wellFounded_releaseStep : WellFounded fun s t => ReleaseStep t s := by
  have hlex : WellFounded (Prod.Lex (· < ·) (· < ·) : Nat × Nat → Nat × Nat → Prop) :=
    Nat.lt_wfRel.wf.prod_lex Nat.lt_wfRel.wf
  refine Subrelation.wf ?_ (InvImage.wf (fun s : Buffer × Multiset Hash => (s.1.table.size, s.2.card)) hlex)
  intro t s hstep
  cases hstep with
  | skip b h rest hh => exact Prod.Lex.right _ (by simp)
  | clamp b h e rest he hzero =>
    have hlt := size_remove b.countClamped he
    exact Prod.Lex.left _ _ (Nat.lt_of_succ_le (Nat.le_of_eq hlt))
  | leave b h e rest he hone =>
    have hlt := size_remove b he
    exact Prod.Lex.left _ _ (Nat.lt_of_succ_le (Nat.le_of_eq hlt))
  | lower b h e rest he hzero hone =>
    simp only [InvImage, Std.ExtTreeMap.size_modify]
    exact Prod.Lex.right _ (by simp)

/-- A release stops only when nothing is pending any more. -/
theorem exists_releaseStep (b : Buffer) (hpending : pending ≠ 0) : ∃ t, ReleaseStep (b, pending) t := by
  obtain ⟨h, hh⟩ := Multiset.exists_mem_of_ne_zero hpending
  obtain ⟨rest, rfl⟩ := Multiset.exists_cons_of_mem hh
  cases he : b.table[h]? with
  | none => exact ⟨_, .skip b h rest (Table.not_mem_iff_getElem?.2 he)⟩
  | some e =>
    by_cases hzero : e.parents = 0
    · exact ⟨_, .clamp b h e rest he hzero⟩
    · by_cases hone : e.parents = 1
      · exact ⟨_, .leave b h e rest he hone⟩
      · exact ⟨_, .lower b h e rest he hzero hone⟩

/-- The release that is carried out is one of the runs. -/
theorem release_steps (b : Buffer) (pending : List Hash) :
    Relation.ReflTransGen ReleaseStep (b, ↑pending) (b.release pending, 0) := by
  have hadd : ∀ (e : Staged) (rest : List Hash),
      (↑(e.references ++ rest) : Multiset Hash) = e.references + (rest : Multiset Hash) :=
    fun _ _ => (Multiset.coe_add _ _).symm
  refine release_induct (I := fun c p => Relation.ReflTransGen ReleaseStep (b, ↑pending) (c, ↑p))
    (fun c h rest hh hI => hI.tail (.skip c h rest hh)) (fun c h e rest he hzero hI => ?_)
    (fun c h e rest he hone hI => ?_) (fun c h e rest he hzero hone hI => hI.tail (.lower c h e rest he hzero hone))
    b pending .refl
  · rw [hadd]
    exact hI.tail (.clamp c h e rest he hzero)
  · rw [hadd]
    exact hI.tail (.leave c h e rest he hone)

/-! ## The same buffer but for the counts -/

/-- `b'` is `b` with other parent counts and other statistics. -/
structure Recounted (b b' : Buffer) : Prop where
  entry : ∀ k, (b'.nodeAt? k).map Staged.uncounted = (b.nodeAt? k).map Staged.uncounted
  linked : b'.Linked b.flushOrder
  pins : b'.pins = b.pins
  preimages : b'.preimages = b.preimages
  payloadSize : b'.payloadSize = b.payloadSize
  edgesSize : b'.edgesSize = b.edgesSize
  preimagesSize : b'.preimagesSize = b.preimagesSize

namespace Recounted

theorem refl (hl : b.Linked b.flushOrder) : Recounted b b := ⟨fun _ => rfl, hl, rfl, rfl, rfl, rfl, rfl⟩

/-- The entry of a node in both buffers. -/
theorem getElem? (hr : Recounted b b') (he : b'.table[h]? = some e) :
    ∃ x : Staged, b.nodeAt? h = some x ∧ x.uncounted = e.unlinked.uncounted := by
  have hentry := hr.entry h
  rw [nodeAt?_of_getElem? he, Option.map_some] at hentry
  exact Option.map_eq_some_iff.1 hentry.symm

theorem mem (hr : Recounted b b') : h ∈ b'.table ↔ h ∈ b.table := by
  have hentry := congrArg Option.isSome (hr.entry h)
  rw [Option.isSome_map, Option.isSome_map] at hentry
  rw [mem_iff_nodeAt?, mem_iff_nodeAt?, ← Option.isSome_iff_exists, ← Option.isSome_iff_exists, hentry]

theorem refs (hr : Recounted b b') (p : Hash) : b'.refs p = b.refs p := by
  have href : ∀ o : Option Staged, (o.map Staged.uncounted).map Staged.references = o.map Staged.references :=
    fun o => by cases o <;> rfl
  rw [Buffer.refs, Buffer.refs, ← href, hr.entry, href]

theorem flushOrder (hr : Recounted b b') : b'.flushOrder = b.flushOrder := hr.linked.flushOrder_eq

theorem countClamped (hr : Recounted b b') : Recounted b b'.countClamped :=
  ⟨hr.entry, hr.linked.congr (fun _ => .rfl) (fun _ e he => ⟨e, he, rfl, rfl⟩) rfl rfl, hr.pins, hr.preimages,
    hr.payloadSize, hr.edgesSize, hr.preimagesSize⟩

theorem lower (hr : Recounted b b') (h : Hash) :
    Recounted b { b' with table := b'.table.modify h Staged.loseParent } where
  entry k := by
    rw [← hr.entry k, nodeAt?, nodeAt?, getElem?_lower]
    cases b'.table[k]? with
    | none => rfl
    | some e =>
      simp only [Option.map_some, Option.some.injEq]
      split <;> rfl
  linked := hr.linked.lower h
  pins := hr.pins
  preimages := hr.preimages
  payloadSize := hr.payloadSize
  edgesSize := hr.edgesSize
  preimagesSize := hr.preimagesSize

/-- A node is charged for whatever it counts. -/
theorem remove (hr : Recounted b b') (hl : b.Linked b.flushOrder) (he : b'.table[h]? = some e) :
    Recounted (b.discard h) (b'.remove h e) := by
  obtain ⟨x, hx, hsame⟩ := hr.getElem? he
  obtain ⟨hpayload, hedges, hpreimages⟩ := b'.sizes_remove h e
  obtain ⟨hpayload', hedges', hpreimages'⟩ := sizes_discard b h
  rw [hx] at hpayload' hedges'
  have hpay : x.uncounted.payload = e.unlinked.uncounted.payload := congrArg Staged.payload hsame
  have hedge : x.uncounted.edgeCost = e.unlinked.uncounted.edgeCost := congrArg Staged.edgeCost hsame
  refine ⟨fun k => ?_, ?_, ?_, ?_, ?_, ?_, ?_⟩
  · rw [nodeAt?_remove, nodeAt?_discard]
    split
    · rfl
    · exact hr.entry k
  · rw [flushOrder_discard hl, ← hr.flushOrder]
    exact flushOrder_remove hr.linked.self he
  · rw [pins_remove, pins_discard, hr.pins]
  · rw [preimages_remove, preimages_discard, hr.preimages]
  · rw [hpayload, hpayload', hr.payloadSize]
    exact congrArg (b.payloadSize - ·) hpay.symm
  · rw [hedges, hedges', hr.edgesSize]
    exact congrArg (b.edgesSize - ·) hedge.symm
  · rw [hpreimages, hpreimages', hr.preimagesSize]

/-- The counts and the statistics are all that can differ. -/
theorem ext (hr : Recounted b c) (hr' : Recounted b c') (hparents : ∀ k, c.parentsOf k = c'.parentsOf k)
    (hstats : c.stats = c'.stats) : c = c' := by
  have hnodes : ∀ k, c.nodeAt? k = c'.nodeAt? k := by
    intro k
    have hentry := (hr.entry k).trans (hr'.entry k).symm
    have hcount := hparents k
    rw [parentsOf, parentsOf] at hcount
    cases hc : c.nodeAt? k with
    | none =>
      rw [hc, Option.map_none] at hentry
      exact (Option.map_eq_none_iff.1 hentry.symm).symm
    | some x =>
      rw [hc, Option.map_some] at hentry
      obtain ⟨y, hy, hxy⟩ := Option.map_eq_some_iff.1 hentry.symm
      rw [hc, hy] at hcount
      have hsame : x.parents = y.parents := UInt32.toNat_inj.1 hcount
      rw [hy]
      cases x
      cases y
      simp_all [Staged.uncounted]
  obtain ⟨htable, hold, hnew⟩ := hr.linked.ext hr'.linked hnodes
  exact Buffer.ext htable hold hnew (hr.pins.trans hr'.pins.symm) (hr.preimages.trans hr'.preimages.symm)
    (hr.payloadSize.trans hr'.payloadSize.symm) (hr.edgesSize.trans hr'.edgesSize.symm)
    (hr.preimagesSize.trans hr'.preimagesSize.symm) hstats

end Recounted

/-! ## What is gone -/

/-- How often a hash is let go of: at the start, and by the nodes that are gone. -/
def drops (b : Buffer) (start : Multiset Hash) (gone : Finset Hash) (k : Hash) : Nat :=
  start.count k + ∑ p ∈ gone, (b.refs p).count k

theorem drops_mono {r s : Finset Hash} (hrs : r ⊆ s) (k : Hash) : b.drops start r k ≤ b.drops start s k :=
  Nat.add_le_add_left (Finset.sum_le_sum_of_subset hrs) _

theorem drops_concat (hh : h ∉ gone) (k : Hash) :
    b.drops start (gone ++ [h]).toFinset k = b.drops start gone.toFinset k + (b.refs h).count k := by
  have hset : (gone ++ [h]).toFinset = Insert.insert h gone.toFinset := by
    ext k
    simp
  rw [hset, drops, drops, Finset.sum_insert (by simpa using hh)]
  omega

/-- Staged nodes among which is each one that the start and they let go of as often as it
has counted parents, and at least once. -/
structure ClosedUnderRelease (b : Buffer) (start : Multiset Hash) (r : Finset Hash) : Prop where
  staged : r ⊆ b.staged
  closed : ∀ k ∈ b.staged, max 1 (b.parentsOf k) ≤ b.drops start r k → k ∈ r

/-- **The invariant of all runs**, from `b` with `start` pending: the nodes in `gone` have
left, and the others have counted down what they were let go of, as far as it is not
pending. None of them has come down to zero, and no node has left before its time. -/
structure Cascade (b : Buffer) (start : Multiset Hash) (gone : List Hash) (c : Buffer) (pending : Multiset Hash) :
    Prop where
  same : Recounted (b.discards gone) c
  nodup : gone.Nodup
  staged : ∀ h ∈ gone, h ∈ b.table
  counts : ∀ k ∈ c.table, c.parentsOf k + b.drops start gone.toFinset k = b.parentsOf k + pending.count k
  lowered : ∀ k ∈ c.table, c.parentsOf k ≤ b.parentsOf k
  zero : ∀ k ∈ c.table, c.parentsOf k = 0 → b.parentsOf k = 0
  least : ∀ r, b.ClosedUnderRelease start r → gone.toFinset ⊆ r

/-- `c` has counted those nodes of `gone` that had counted no parent. -/
def Clamped (b : Buffer) (gone : List Hash) (c : Buffer) : Prop :=
  c.stats = { b.stats with
    clampedDereferences := b.stats.clampedDereferences + (gone.filter (b.parentsOf · = 0)).length }

namespace Cascade

theorem refl (hl : b.Linked b.flushOrder) (start : Multiset Hash) : Cascade b start [] b start where
  same := .refl hl
  nodup := .nil
  staged _ hh := nomatch hh
  counts k _ := by simp [drops]
  lowered _ _ := Nat.le_refl _
  zero _ _ := id
  least _ _ := by simp

theorem mem (hc : Cascade b start gone c pending) : k ∈ c.table ↔ k ∈ b.table ∧ k ∉ gone := by
  rw [hc.same.mem, mem_discards, and_comm]

theorem refs (hc : Cascade b start gone c pending) (hk : k ∈ c.table) : c.refs k = b.refs k := by
  rw [hc.same.refs, Buffer.refs, nodeAt?_discards, if_neg (hc.mem.1 hk).2]
  rfl

/-- A node that leaves has been let go of often enough. -/
theorem drops_of_leave (hc : Cascade b start gone c (h ::ₘ pending)) (hh : h ∈ c.table) (hone : c.parentsOf h ≤ 1) :
    max 1 (b.parentsOf h) ≤ b.drops start gone.toFinset h := by
  have hcounts := hc.counts h hh
  have hlowered := hc.lowered h hh
  have hzero := hc.zero h hh
  rw [Multiset.count_cons_self] at hcounts
  omega

theorem skip (hc : Cascade b start gone c (h ::ₘ pending)) (hh : h ∉ c.table) : Cascade b start gone c pending :=
  { hc with
    counts := fun k hk => by
      have hne : k ≠ h := fun heq => hh (heq ▸ hk)
      rw [hc.counts k hk, Multiset.count_cons_of_ne hne] }

theorem lower (hc : Cascade b start gone c (h ::ₘ pending)) (he : c.table[h]? = some e) (hzero : e.parents ≠ 0)
    (hone : e.parents ≠ 1) : Cascade b start gone { c with table := c.table.modify h Staged.loseParent } pending := by
  have hsame := hc.same.lower h
  have hmem : ∀ k, k ∈ ({ c with table := c.table.modify h Staged.loseParent } : Buffer).table → k ∈ c.table :=
    fun k hk => hc.same.mem.2 (hsame.mem.1 hk)
  have hparents : ∀ k, _ := parentsOf_lower he hzero
  refine ⟨hsame, hc.nodup, hc.staged, fun k hk => ?_, fun k hk => ?_, fun k hk hcount => ?_, hc.least⟩
  · have hcounts := hc.counts k (hmem k hk)
    have hpar := hparents k
    rw [Multiset.count_cons] at hcounts
    simp only [eq_comm (a := k)] at hcounts
    omega
  · have hlowered := hc.lowered k (hmem k hk)
    have hpar := hparents k
    omega
  · have hpar := hparents k
    by_cases hk' : h = k
    · subst hk'
      rw [hcount, if_pos rfl, Nat.zero_add, parentsOf_of_getElem? he] at hpar
      exact absurd (UInt32.toNat_inj.1 hpar.symm) hone
    · rw [hcount, if_neg hk'] at hpar
      exact hc.zero k (hmem k hk) hpar.symm

theorem countClamped (hc : Cascade b start gone c pending) : Cascade b start gone c.countClamped pending :=
  { hc with same := hc.same.countClamped }

/-- A node leaves and lets go of its children. -/
theorem leave (hl : b.Linked b.flushOrder) (hc : Cascade b start gone c (h ::ₘ pending)) (he : c.table[h]? = some e)
    (hone : e.parents.toNat ≤ 1) : Cascade b start (gone ++ [h]) (c.remove h e) (e.references + pending) := by
  have hh : h ∈ c.table := Table.mem_iff_getElem?.2 ⟨e, he⟩
  have hgone : h ∉ gone := (hc.mem.1 hh).2
  have hrefs : b.refs h = e.references := by rw [← hc.refs hh, refs_of_getElem? he]
  -- the nodes that are left are as they were
  have hleft : ∀ k ∈ (c.remove h e).table, k ≠ h ∧ k ∈ c.table ∧ (c.remove h e).parentsOf k = c.parentsOf k := by
    intro k hk
    obtain ⟨hne, hmem⟩ := (mem_remove c h e k).1 hk
    exact ⟨hne, hmem, by rw [parentsOf_remove, if_neg hne.symm]⟩
  refine ⟨?_, ?_, ?_, fun k hk => ?_, fun k hk => ?_, fun k hk hcount => ?_, fun r hr => ?_⟩
  · rw [discards_append]
    exact hc.same.remove (Remnant.discards hl gone).2 he
  · exact List.nodup_append.2 ⟨hc.nodup, List.nodup_singleton h, fun x hx y hy heq =>
      hgone (List.mem_singleton.1 hy ▸ heq ▸ hx)⟩
  · intro k hk
    rcases List.mem_append.1 hk with hk | hk
    · exact hc.staged k hk
    · exact List.mem_singleton.1 hk ▸ (hc.mem.1 hh).1
  · obtain ⟨hne, hmem, hpar⟩ := hleft k hk
    have hcounts := hc.counts k hmem
    rw [Multiset.count_cons_of_ne hne] at hcounts
    rw [hpar, drops_concat hgone, hrefs, Multiset.count_add, Multiset.coe_count]
    omega
  · obtain ⟨-, hmem, hpar⟩ := hleft k hk
    exact hpar ▸ hc.lowered k hmem
  · obtain ⟨-, hmem, hpar⟩ := hleft k hk
    exact hc.zero k hmem (hpar ▸ hcount)
  · intro k hk
    rcases List.mem_append.1 (List.mem_toFinset.1 hk) with hk | hk
    · exact hc.least r hr (List.mem_toFinset.2 hk)
    · obtain rfl := List.mem_singleton.1 hk
      have hparents : c.parentsOf k ≤ 1 := (parentsOf_of_getElem? he).trans_le hone
      exact hr.closed k (mem_staged.2 (hc.mem.1 hh).1)
        (Nat.le_trans (hc.drops_of_leave hh hparents) (drops_mono (hc.least r hr) k))

theorem parents_eq_zero (hc : Cascade b start gone c pending) (he : c.table[h]? = some e) :
    e.parents = 0 ↔ b.parentsOf h = 0 := by
  have hh : h ∈ c.table := Table.mem_iff_getElem?.2 ⟨e, he⟩
  have hparents : c.parentsOf h = e.parents.toNat := parentsOf_of_getElem? he
  have hlowered := hc.lowered h hh
  rw [← UInt32.toNat_inj, ← hparents]
  exact ⟨hc.zero h hh, fun h0 => Nat.le_zero.1 (h0 ▸ hlowered)⟩

/-- **Each step keeps the invariant**, and counts a node that leaves if it had counted no
parent. -/
theorem step (hl : b.Linked b.flushOrder) (hc : Cascade b start gone c pending) (hclamped : Clamped b gone c)
    {c' : Buffer} {pending' : Multiset Hash} (hstep : ReleaseStep (c, pending) (c', pending')) :
    ∃ more, Cascade b start (gone ++ more) c' pending' ∧ Clamped b (gone ++ more) c' := by
  cases hstep with
  | skip _ h _ hh => exact ⟨[], by simpa using hc.skip hh, by simpa using hclamped⟩
  | clamp _ h e _ he hzero =>
    refine ⟨[h], hc.countClamped.leave hl he (by simp [hzero]), ?_⟩
    rw [Clamped, stats_remove, List.filter_append]
    simp [Buffer.countClamped, show c.stats = _ from hclamped, (hc.parents_eq_zero he).1 hzero, Nat.add_assoc]
  | leave _ h e _ he hone =>
    refine ⟨[h], hc.leave hl he (by simp [hone]), ?_⟩
    have hcounted : b.parentsOf h ≠ 0 := mt (hc.parents_eq_zero he).2 (by simp [hone])
    rw [Clamped, stats_remove, List.filter_append]
    simp [show c.stats = _ from hclamped, hcounted]
  | lower _ h e _ he hzero hone =>
    refine ⟨[], by simpa using hc.lower he hzero hone, ?_⟩
    rw [List.append_nil]
    exact hclamped

/-- **A whole run keeps it.** -/
theorem run (hl : b.Linked b.flushOrder) {s : Buffer × Multiset Hash}
    (hrun : Relation.ReflTransGen ReleaseStep (b, start) s) :
    ∃ gone, Cascade b start gone s.1 s.2 ∧ Clamped b gone s.1 := by
  induction hrun with
  | refl => exact ⟨[], .refl hl start, rfl⟩
  | tail _ hstep ih =>
    obtain ⟨gone, hc, hclamped⟩ := ih
    obtain ⟨more, hnext⟩ := hc.step hl hclamped hstep
    exact ⟨gone ++ more, hnext⟩

/-! ## The end of a run -/

/-- **What is gone in the end is the least closed set.** -/
theorem isLeast (hc : Cascade b start gone c 0) : IsLeast {r | b.ClosedUnderRelease start r} gone.toFinset := by
  refine ⟨⟨fun h hh => mem_staged.2 (hc.staged h (List.mem_toFinset.1 hh)), fun k hk hdrops => ?_⟩, fun r hr =>
    hc.least r hr⟩
  by_contra hno
  have hmem : k ∈ c.table := hc.mem.2 ⟨mem_staged.1 hk, fun hg => hno (List.mem_toFinset.2 hg)⟩
  have hcounts := hc.counts k hmem
  have hzero := hc.zero k hmem
  rw [Multiset.count_zero] at hcounts
  omega

/-- **All runs end in the same buffer.** -/
theorem unique (hl : b.Linked b.flushOrder) (hc : Cascade b start gone c 0) (hc' : Cascade b start gone' c' 0)
    (hclamped : Clamped b gone c) (hclamped' : Clamped b gone' c') : c = c' := by
  have hset : gone.toFinset = gone'.toFinset := hc.isLeast.unique hc'.isLeast
  have hperm : gone.Perm gone' := List.perm_of_nodup_nodup_toFinset_eq hc.nodup hc'.nodup hset
  have hsame' := hc'.same
  rw [← discards_perm hl hperm] at hsame'
  refine hc.same.ext hsame' (fun k => ?_) ?_
  · by_cases hk : k ∈ c.table
    · have hk' : k ∈ c'.table := hsame'.mem.2 (hc.same.mem.1 hk)
      have hcounts := hc.counts k hk
      have hcounts' := hc'.counts k hk'
      rw [hset] at hcounts
      omega
    · have hk' : k ∉ c'.table := fun hk' => hk (hc.same.mem.2 (hsame'.mem.1 hk'))
      rw [parentsOf_of_not_mem hk, parentsOf_of_not_mem hk']
  · have hlength := (hperm.filter fun k => decide (b.parentsOf k = 0)).length_eq
    rw [show c.stats = _ from hclamped, show c'.stats = _ from hclamped', hlength]

end Cascade

/-! ## Dereferences -/

/-- Nothing belongs to the least closed set that it and the start do not let go of. -/
theorem le_drops_of_isLeast {r : Finset Hash} (hr : IsLeast {r | b.ClosedUnderRelease start r} r) (hk : k ∈ r) :
    max 1 (b.parentsOf k) ≤ b.drops start r k := by
  by_contra hlt
  have hclosed : b.ClosedUnderRelease start (r.erase k) := by
    refine ⟨(Finset.erase_subset k r).trans hr.1.staged, fun x hx hdrops => ?_⟩
    have hle : max 1 (b.parentsOf x) ≤ b.drops start r x :=
      Nat.le_trans hdrops (drops_mono (Finset.erase_subset k r) x)
    exact Finset.mem_erase.2 ⟨fun heq => hlt (heq ▸ hle), hr.1.closed x hx hle⟩
  exact Finset.notMem_erase k r (hr.2 hclosed hk)

/-- The buffer that a dereference starts to release in: if there was a pin on the root, it
is off. -/
def cut (b : Buffer) (root : Hash) : Buffer := if root ∈ b.pins then b.withoutPin root else b

/-- What a dereference counts after its release has left `after`. -/
def tallied (b : Buffer) (root : Hash) (after : Buffer) : Buffer :=
  { after with stats := { after.stats with
    unpinnedDereferences :=
      after.stats.unpinnedDereferences + if root ∉ b.pins ∧ b.table.contains root then 1 else 0
    gcNodes := after.stats.gcNodes + (b.length - after.length)
    gcSize := after.stats.gcSize + (b.payloadSize - after.payloadSize) } }

variable {root : Hash}

theorem dereference_eq (b : Buffer) (root : Hash) :
    b.dereference root = b.tallied root ((b.cut root).release [root]) := by
  rw [dereference, unpin_eq]
  rfl

theorem table_cut (b : Buffer) (root : Hash) : (b.cut root).table = b.table := by
  unfold cut
  split <;> rfl

theorem stats_cut (b : Buffer) (root : Hash) : (b.cut root).stats = b.stats := by
  unfold cut
  split <;> rfl

theorem linked_cut (hl : b.Linked b.flushOrder) (root : Hash) : (b.cut root).Linked (b.cut root).flushOrder := by
  unfold cut
  split
  · have hcut : (b.withoutPin root).Linked b.flushOrder :=
      hl.congr (fun _ => .rfl) (fun _ e he => ⟨e, he, rfl, rfl⟩) rfl rfl
    exact hcut.self
  · exact hl

theorem flushOrder_cut (b : Buffer) (root : Hash) : (b.cut root).flushOrder = b.flushOrder := by
  unfold cut
  split <;> rfl

theorem drops_cut (b : Buffer) (root : Hash) : (b.cut root).drops = b.drops := by
  unfold cut
  split <;> rfl

theorem parentsOf_cut (b : Buffer) (root : Hash) : (b.cut root).parentsOf = b.parentsOf := by
  unfold cut
  split <;> rfl

theorem closedUnderRelease_cut {r : Finset Hash} :
    (b.cut root).ClosedUnderRelease start r ↔ b.ClosedUnderRelease start r := by
  unfold cut
  split <;> exact ⟨fun hr => ⟨hr.1, hr.2⟩, fun hr => ⟨hr.1, hr.2⟩⟩

/-- Each run of the release ends where the dereference does. -/
theorem tallied_of_run (hl : b.Linked b.flushOrder)
    (hrun : Relation.ReflTransGen ReleaseStep (b.cut root, {root}) (c, 0)) : b.tallied root c = b.dereference root := by
  have hlcut := linked_cut hl root
  obtain ⟨gone, hc, hclamped⟩ := Cascade.run hlcut hrun
  obtain ⟨gone', hc', hclamped'⟩ := Cascade.run hlcut (release_steps (b.cut root) [root])
  have hsame : c = (b.cut root).release [root] := hc.unique hlcut hc' hclamped hclamped'
  rw [dereference_eq, hsame]

/-- The nodes that a dereference removes. -/
def removed (b : Buffer) (root : Hash) : Finset Hash := b.staged \ (b.dereference root).staged

/-- **What a dereference removes** is the least set that is closed under the release of
its root; the nodes that are left keep their order and count down what it lets go of, and
the removed ones that had counted nobody are counted themselves. -/
theorem removed_spec (hl : b.Linked b.flushOrder) (root : Hash) :
    IsLeast {r | b.ClosedUnderRelease {root} r} (b.removed root) ∧
      (∀ k, k ∈ (b.dereference root).table ↔ k ∈ b.table ∧ k ∉ b.removed root) ∧
      (∀ k ∈ (b.dereference root).table,
        (b.dereference root).parentsOf k + b.drops {root} (b.removed root) k = b.parentsOf k) ∧
      (b.dereference root).flushOrder = b.flushOrder.filter (· ∉ b.removed root) ∧
      ((b.cut root).release [root]).stats = { b.stats with
        clampedDereferences :=
          b.stats.clampedDereferences + ((b.removed root).filter (b.parentsOf · = 0)).card } := by
  have hlcut := linked_cut hl root
  obtain ⟨gone, hc, hclamped⟩ := Cascade.run hlcut (release_steps (b.cut root) [root])
  have hsame : SameNodes ((b.cut root).release [root]) (b.dereference root) := by
    rw [dereference_eq]
    exact ⟨rfl, rfl, rfl, rfl⟩
  have hmem : ∀ k, k ∈ (b.dereference root).table ↔ k ∈ b.table ∧ k ∉ gone := by
    intro k
    rw [hsame.table, hc.mem, table_cut]
  have hgone : b.removed root = gone.toFinset := by
    ext k
    have hstaged := hc.staged k
    rw [table_cut] at hstaged
    rw [removed, Finset.mem_sdiff, mem_staged, mem_staged, hmem, List.mem_toFinset]
    tauto
  rw [hgone]
  refine ⟨?_, fun k => ?_, fun k hk => ?_, ?_, ?_⟩
  · have hleast := hc.isLeast
    simp only [closedUnderRelease_cut] at hleast
    exact hleast
  · rw [hmem, List.mem_toFinset]
  · have hcounts := hc.counts k (hsame.table ▸ hk)
    rw [Multiset.count_zero, drops_cut, parentsOf_cut] at hcounts
    rw [hsame.parentsOf]
    exact hcounts
  · rw [hsame.flushOrder, hc.same.flushOrder, flushOrder_discards hlcut, flushOrder_cut]
    simp
  · have hfilter : gone.toFinset.filter (b.parentsOf · = 0) = (gone.filter (b.parentsOf · = 0)).toFinset := by
      ext k
      simp
    rw [Clamped, stats_cut, parentsOf_cut] at hclamped
    rw [hclamped, hfilter, List.toFinset_card_of_nodup (hc.nodup.filter _)]

theorem stats_dereference (hl : b.Linked b.flushOrder) (root : Hash) :
    (b.dereference root).stats = { b.stats with
      clampedDereferences := b.stats.clampedDereferences + ((b.removed root).filter (b.parentsOf · = 0)).card
      unpinnedDereferences :=
        b.stats.unpinnedDereferences + if root ∉ b.pins ∧ b.table.contains root then 1 else 0
      gcNodes := b.stats.gcNodes + (b.removed root).card
      gcSize := b.stats.gcSize + (b.payloadSize - (b.dereference root).payloadSize) } := by
  obtain ⟨-, hmem, -, -, hstats⟩ := removed_spec hl root
  have hsubset : (b.dereference root).staged ⊆ b.staged := fun k hk => mem_staged.2 ((hmem k).1 (mem_staged.1 hk)).1
  have hcard : b.length - (b.dereference root).length = (b.removed root).card := by
    rw [removed, Finset.card_sdiff_of_subset hsubset, card_staged, card_staged]
  rw [← hcard, dereference_eq, tallied, hstats]
  rfl

end Buffer

end MerkleBuffer
