/-
Lists in which children come before their parents.

`ChildrenFirst needs done l`: every hash of `l` comes after all that it needs,
where `done` came before the list. Dropping the nodes of such a list one by one
keeps exact counts exact (`Exact.discards`). A list in the order of staging is of
this kind if every node was staged after what it needs (`ChildrenFirst.of_before`).
-/
import MerkleBuffer.Proofs.Buffer.Counts
import Mathlib.Logic.Relation

namespace MerkleBuffer

/-- Every hash of a list comes after what it needs, where `done` came before. -/
def ChildrenFirst (needs : Hash → Hash → Prop) (done : List Hash) : List Hash → Prop
  | [] => True
  | h :: rest => (∀ c, needs h c → c ∈ done) ∧ ChildrenFirst needs (h :: done) rest

namespace ChildrenFirst

variable {needs needs' : Hash → Hash → Prop} {done done' l xs ys : List Hash}

theorem mono (hneeds : ∀ h ∈ l, ∀ c, needs' h c → needs h c) (hdone : ∀ h ∈ done, h ∈ done')
    (hc : ChildrenFirst needs done l) : ChildrenFirst needs' done' l := by
  induction l generalizing done done' with
  | nil => trivial
  | cons h rest ih =>
    refine ⟨fun c hn => hdone c (hc.1 c (hneeds h List.mem_cons_self c hn)),
      ih (fun k hk => hneeds k (List.mem_cons_of_mem _ hk)) (fun k hk => ?_) hc.2⟩
    rcases List.mem_cons.1 hk with rfl | hk
    · exact List.mem_cons_self
    · exact List.mem_cons_of_mem _ (hdone k hk)

theorem append : ChildrenFirst needs done (xs ++ ys) ↔
    ChildrenFirst needs done xs ∧ ChildrenFirst needs (xs.reverse ++ done) ys := by
  induction xs generalizing done with
  | nil => simp [ChildrenFirst]
  | cons h rest ih =>
    rw [List.cons_append, ChildrenFirst, ChildrenFirst, ih, List.reverse_cons, List.append_assoc, and_assoc]
    rfl

theorem of_known {known : List Hash} (hc : ChildrenFirst (fun h c => needs h c ∧ c ∉ known) done l) :
    ChildrenFirst needs (done ++ known) l := by
  induction l generalizing done with
  | nil => trivial
  | cons h rest ih =>
    refine ⟨fun c hn => ?_, ih hc.2⟩
    by_cases hknown : c ∈ known
    · exact List.mem_append_right _ hknown
    · exact List.mem_append_left _ (hc.1 c ⟨hn, hknown⟩)

end ChildrenFirst

/-! ## Older and newer -/

/-- `c` stands before `p` in a list. -/
def Before (order : List Hash) (c p : Hash) : Prop := [c, p].Sublist order

namespace Before

variable {order order' xs ys : List Hash} {c p : Hash}

theorem append_left (h : Before order c p) (ys : List Hash) : Before (order ++ ys) c p :=
  List.Sublist.trans h (List.sublist_append_left order ys)

theorem append_singleton (hc : c ∈ order) (p : Hash) : Before (order ++ [p]) c p :=
  (List.singleton_sublist.2 hc).append (List.Sublist.refl [p])

theorem sublist (h : Before order c p) (hsub : order'.Sublist order) (hnodup : order.Nodup) (hc : c ∈ order')
    (hp : p ∈ order') : Before order' c p := by
  unfold Before at h ⊢
  induction hsub with
  | slnil => cases hc
  | cons a hsub ih =>
    obtain ⟨ha, hnodup⟩ := List.nodup_cons.1 hnodup
    refine ih ?_ hnodup hc hp
    cases h with
    | cons _ h => exact h
    | cons_cons _ h => exact absurd (hsub.subset hc) ha
  | cons_cons a hsub ih =>
    obtain ⟨ha, hnodup⟩ := List.nodup_cons.1 hnodup
    cases h with
    | cons_cons _ h =>
      have hpc : p ≠ c := fun heq => ha (heq ▸ h.subset (List.mem_singleton_self p))
      exact .cons_cons _ (List.singleton_sublist.2 ((List.mem_cons.1 hp).resolve_left hpc))
    | cons _ h =>
      have hca : c ≠ a := fun heq => ha (heq ▸ h.subset List.mem_cons_self)
      have hpa : p ≠ a := fun heq => ha (heq ▸ h.subset (by simp))
      exact .cons _ (ih h hnodup ((List.mem_cons.1 hc).resolve_left hca) ((List.mem_cons.1 hp).resolve_left hpa))

theorem mem_of_split (h : Before (xs ++ p :: ys) c p) (hnodup : (xs ++ p :: ys).Nodup) : c ∈ xs := by
  have hxs : p ∉ xs := fun hm => (List.nodup_append.1 hnodup).2.2 p hm p List.mem_cons_self rfl
  have hys : p ∉ ys := (List.nodup_cons.1 (List.nodup_append.1 hnodup).2.1).1
  obtain ⟨as, bs, hsplit, has, hbs⟩ := List.sublist_append_iff.1 h
  cases as with
  | nil =>
    rw [List.nil_append] at hsplit
    subst hsplit
    cases hbs with
    | cons _ hbs => exact absurd (hbs.subset (by simp)) hys
    | cons_cons _ hbs => exact absurd (hbs.subset (by simp)) hys
  | cons a as =>
    obtain ⟨rfl, -⟩ := List.cons.inj hsplit
    exact has.subset List.mem_cons_self

theorem idxOf_lt (h : Before order c p) (hnodup : order.Nodup) : order.idxOf c < order.idxOf p := by
  obtain ⟨xs, ys, rfl⟩ := List.append_of_mem (List.Sublist.subset h (by simp : p ∈ [c, p]))
  have hxs : p ∉ xs := fun hm => (List.nodup_append.1 hnodup).2.2 p hm p List.mem_cons_self rfl
  have hc : c ∈ xs := h.mem_of_split hnodup
  rw [List.idxOf_append_of_mem hc, List.idxOf_append_of_notMem hxs, List.idxOf_cons_self, Nat.add_zero]
  exact List.idxOf_lt_length_of_mem hc

end Before

/-- A list in which each hash stands behind all that it needs. -/
theorem ChildrenFirst.of_before {needs : Hash → Hash → Prop} {done rest : List Hash}
    (hnodup : (done.reverse ++ rest).Nodup)
    (hneeds : ∀ h ∈ rest, ∀ c, needs h c → Before (done.reverse ++ rest) c h) : ChildrenFirst needs done rest := by
  induction rest generalizing done with
  | nil => trivial
  | cons h rest ih =>
    refine ⟨fun c hc => ?_, ih ?_ fun k hk c hc => ?_⟩
    · exact List.mem_reverse.1 ((hneeds h List.mem_cons_self c hc).mem_of_split hnodup)
    · simpa using hnodup
    · have hbefore := hneeds k (List.mem_cons_of_mem _ hk) c hc
      simpa using hbefore

theorem ChildrenFirst.before {needs : Hash → Hash → Prop} {l : List Hash} {h c : Hash} (hc : ChildrenFirst needs [] l)
    (hh : h ∈ l) (hn : needs h c) : Before l c h := by
  obtain ⟨xs, ys, rfl⟩ := List.append_of_mem hh
  have hxs := (append.1 hc).2.1 c hn
  rw [List.append_nil, List.mem_reverse] at hxs
  exact (List.singleton_sublist.2 hxs).append (List.singleton_sublist.2 List.mem_cons_self)

/-- What a hash of the list needs is in the list itself. -/
theorem ChildrenFirst.closed {needs : Hash → Hash → Prop} {l : List Hash} {h c : Hash} (hc : ChildrenFirst needs [] l)
    (hh : h ∈ l) (hn : needs h c) : c ∈ l :=
  List.Sublist.subset (hc.before hh hn) List.mem_cons_self

namespace Buffer

variable {b b' : Buffer} {h k c p : Hash} {e : Staged}

/-- A staged node points to a staged child. -/
def Points (b : Buffer) (p c : Hash) : Prop := c ∈ b.refs p ∧ c ∈ b.table

/-- No staged node can be reached from itself. -/
def Acyclic (b : Buffer) : Prop := ∀ h, ¬ Relation.TransGen b.Points h h

/-- Every staged child was staged before its parents. -/
def ChildrenOlder (b : Buffer) : Prop := ∀ p c, b.Points p c → Before b.flushOrder c p

theorem Points.mem (h : b.Points p c) : p ∈ b.table := mem_of_mem_refs h.1

theorem ChildrenOlder.acyclic (ho : b.ChildrenOlder) (hl : b.Linked b.flushOrder) : b.Acyclic := by
  have hlt : ∀ p c, Relation.TransGen b.Points p c → b.flushOrder.idxOf c < b.flushOrder.idxOf p := by
    intro p c hpc
    induction hpc with
    | single hpc => exact (ho _ _ hpc).idxOf_lt hl.nodup
    | tail _ hpc ih => exact Nat.lt_trans ((ho _ _ hpc).idxOf_lt hl.nodup) ih
  exact fun h hhh => Nat.lt_irrefl _ (hlt h h hhh)

theorem SameNodes.childrenOlder (hs : SameNodes b b') (ho : b.ChildrenOlder) : b'.ChildrenOlder := by
  rintro p c ⟨hc, hmem⟩
  rw [hs.flushOrder]
  exact ho p c ⟨hs.refs p ▸ hc, hs.table ▸ hmem⟩

theorem Remnant.points (hr : Remnant b b') (h : b'.Points p c) : b.Points p c :=
  ⟨hr.refs h.mem ▸ h.1, hr.mem h.2⟩

theorem ChildrenOlder.remnant (ho : b.ChildrenOlder) (hr : Remnant b b') (hl : b.Linked b.flushOrder)
    (hl' : b'.Linked b'.flushOrder) : b'.ChildrenOlder := fun p c hpc =>
  (ho p c (hr.points hpc)).sublist hr.order hl.nodup ((hl'.mem_iff c).2 hpc.2) ((hl'.mem_iff p).2 hpc.mem)

theorem ChildrenOlder.insert {size : Nat} {node : Node} (ho : b.ChildrenOlder) (hl : b.Linked b.flushOrder)
    (hh : h ∉ b.table) (hnone : b.held h = 0) (hself : h ∉ node.kids) : (b.insert h size node).ChildrenOlder := by
  rintro p c ⟨hc, hmem⟩
  rw [flushOrder_insert hl hh]
  rw [refs_insert hh] at hc
  rw [mem_insert hh] at hmem
  split at hc
  · next heq =>
    subst heq
    have hne : c ≠ h := fun heq => hself (heq ▸ hc)
    exact Before.append_singleton ((hl.mem_iff c).2 (hmem.resolve_left hne)) h
  · have hne : c ≠ h := by
      rintro rfl
      exact absurd (held_pos_of_mem_refs hc) (by omega)
    exact (ho p c ⟨hc, hmem.resolve_left hne⟩).append_left [h]

theorem ChildrenOlder.reference {child parent : Hash} (ho : b.ChildrenOlder) (hl : b.Linked b.flushOrder)
    (hbefore : parent ≠ Hash.zero → child ≠ parent → child ∈ b.table → parent ∈ b.table →
      Before b.flushOrder child parent) : (b.reference child parent).ChildrenOlder := by
  rintro p c ⟨hc, hmem⟩
  rw [flushOrder_reference hl]
  rw [mem_reference] at hmem
  rcases mem_refs_reference hc with hc | ⟨rfl, rfl, hz, hne, hchild, hparent⟩
  · exact ho p c ⟨hc, hmem⟩
  · exact hbefore hz hne hchild hparent

/-- The oldest nodes come after their staged children. -/
theorem ChildrenOlder.childrenFirst {hs : List Hash} (ho : b.ChildrenOlder) (hl : b.Linked b.flushOrder)
    (hinitial : hs <+: b.flushOrder) : ChildrenFirst b.Points [] hs := by
  have hall : ChildrenFirst b.Points [] b.flushOrder := .of_before hl.nodup fun p _ c hpc => ho p c hpc
  obtain ⟨rest, hrest⟩ := hinitial
  rw [← hrest] at hall
  exact (ChildrenFirst.append.1 hall).1

/-! ## Dropping a list of nodes -/

/-- Drop nodes one by one. -/
def discards (b : Buffer) (hs : List Hash) : Buffer := hs.foldl discard b

theorem discards_append (b : Buffer) (xs ys : List Hash) : b.discards (xs ++ ys) = (b.discards xs).discards ys :=
  List.foldl_append

theorem SameNodes.setNext (hs : SameNodes b b') (p next : Option Hash) :
    SameNodes (b.setNext p next) (b'.setNext p next) := by
  cases p with
  | none => exact ⟨hs.table, rfl, hs.newest, hs.pins⟩
  | some p =>
    simp only [Buffer.setNext, hs.table]
    split
    · exact ⟨rfl, hs.oldest, hs.newest, hs.pins⟩
    · exact ⟨rfl, rfl, hs.newest, hs.pins⟩

theorem SameNodes.setPrev (hs : SameNodes b b') (n prev : Option Hash) :
    SameNodes (b.setPrev n prev) (b'.setPrev n prev) := by
  cases n with
  | none => exact ⟨hs.table, hs.oldest, rfl, hs.pins⟩
  | some n =>
    simp only [Buffer.setPrev, hs.table]
    split
    · exact ⟨rfl, hs.oldest, hs.newest, hs.pins⟩
    · exact ⟨rfl, hs.oldest, rfl, hs.pins⟩

theorem SameNodes.discard (hs : SameNodes b b') (h : Hash) : SameNodes (b.discard h) (b'.discard h) := by
  rw [Buffer.discard, Buffer.discard, hs.table]
  split
  · exact hs
  · next e _ =>
    have herase : SameNodes
        { b with
          table := b.table.erase h, payloadSize := b.payloadSize - e.payload,
          edgesSize := b.edgesSize - e.edgeCost }
        { b' with
          table := b'.table.erase h, payloadSize := b'.payloadSize - e.payload,
          edgesSize := b'.edgesSize - e.edgeCost } :=
      ⟨congrArg (·.erase h) hs.table, hs.oldest, hs.newest, hs.pins⟩
    exact (herase.setNext _ _).setPrev _ _

theorem SameNodes.discards (hs : SameNodes b b') (l : List Hash) : SameNodes (b.discards l) (b'.discards l) := by
  induction l generalizing b b' with
  | nil => exact hs
  | cons h rest ih => exact ih (hs.discard h)

/-- What each single drop keeps, dropping a list keeps. -/
theorem discards_induct {I : Buffer → Prop} {hs : List Hash} (hstep : ∀ b, ∀ h ∈ hs, I b → I (b.discard h))
    (hb : I b) :
    I (b.discards hs) := by
  induction hs generalizing b with
  | nil => exact hb
  | cons h rest ih =>
    exact ih (fun b k hk => hstep b k (List.mem_cons_of_mem _ hk)) (hstep b h List.mem_cons_self hb)

theorem mem_discard (b : Buffer) (h k : Hash) : k ∈ (b.discard h).table ↔ k ≠ h ∧ k ∈ b.table := by
  rw [mem_iff_nodeAt?, mem_iff_nodeAt?, nodeAt?_discard]
  by_cases hk : h = k
  · simp [hk]
  · simp [hk, Ne.symm hk]

theorem mem_discards (b : Buffer) (hs : List Hash) (k : Hash) :
    k ∈ (b.discards hs).table ↔ k ∉ hs ∧ k ∈ b.table := by
  induction hs generalizing b with
  | nil => simp [discards]
  | cons h rest ih =>
    have heq : b.discards (h :: rest) = (b.discard h).discards rest := rfl
    rw [heq, ih, mem_discard, List.mem_cons, not_or]
    tauto

theorem discards_frame (b : Buffer) (hs : List Hash) : (b.discards hs).pins = b.pins ∧
    (b.discards hs).stats = b.stats ∧ (b.discards hs).preimages = b.preimages :=
  discards_induct (I := fun c => c.pins = b.pins ∧ c.stats = b.stats ∧ c.preimages = b.preimages)
    (fun _ _ _ hI => by rw [pins_discard, stats_discard, preimages_discard]; exact hI) ⟨rfl, rfl, rfl⟩

theorem Remnant.discards (hl : b.Linked b.flushOrder) (hs : List Hash) :
    Remnant b (b.discards hs) ∧ (b.discards hs).Linked (b.discards hs).flushOrder :=
  discards_induct (I := fun c => Remnant b c ∧ c.Linked c.flushOrder)
    (fun _ h _ hI => ⟨hI.1.trans (Remnant.discard hI.2 h).1, (Remnant.discard hI.2 h).2⟩) ⟨.refl b, hl⟩

theorem WellFormed.discards (hw : b.WellFormed) (hs : List Hash) : (b.discards hs).WellFormed :=
  discards_induct (I := WellFormed) (fun _ h _ hw => hw.discard h) hw

theorem held_discards_le (b : Buffer) (hs : List Hash) (k : Hash) : (b.discards hs).held k ≤ b.held k :=
  discards_induct (I := fun c => c.held k ≤ b.held k)
    (fun c h _ hI => Nat.le_trans (Nat.le.intro (held_discard c h k)) hI) (Nat.le_refl _)

/-- What only loses edges needs no room. -/
theorem HasRoom.discards (hs : List Hash) (hsame : SameNodes (b.discards hs) b') : HasRoom b b' := by
  intro h _
  have hpar := b.parentsOf_lt h
  have hheld := held_discards_le b hs h
  rw [hsame.held]
  omega

theorem Covers.discards {P : Hash → Prop} {hs : List Hash} (hc : Covers P b []) (hhs : ∀ h ∈ hs, ¬ P h) :
    Covers P (b.discards hs) [] :=
  discards_induct (I := fun c => Covers P c []) (fun _ h hh hc => hc.discard (hhs h hh)) hc

/-- **Dropping nodes children first keeps the counts exact**: no node that leaves
has left a child behind. -/
theorem Exact.discards {hs done : List Hash} (hx : Exact b []) (hfirst : ChildrenFirst b.Points done hs)
    (hdone : ∀ h ∈ done, h ∉ b.table) : Exact (b.discards hs) [] := by
  induction hs generalizing b done with
  | nil => exact hx
  | cons h rest ih =>
    have hx' : Exact (b.discard h) [] := hx.discard fun c hc hmem => absurd hmem (hdone c (hfirst.1 c ⟨hc, hmem⟩))
    have hpoints : ∀ p c, (b.discard h).Points p c → b.Points p c := by
      rintro p c ⟨hc, hmem⟩
      rw [refs_discard] at hc
      split at hc
      · cases hc
      · exact ⟨hc, ((mem_discard b h c).1 hmem).2⟩
    refine ih hx' (hfirst.2.mono (fun p _ => hpoints p) fun _ hk => hk) fun k hk hmem => ?_
    obtain ⟨hne, hmem⟩ := (mem_discard b h k).1 hmem
    rcases List.mem_cons.1 hk with rfl | hk
    · exact hne rfl
    · exact hdone k hk hmem

end Buffer

end MerkleBuffer
