/-
What a walk lists in any graph, also in one with cycles.

The walk below a root lists exactly the staged nodes that can be reached from the
root (`mem_below`), each of them once, and all but the root stand before a node
that points to them (`hangs_below`). So when the first nodes of the list are
gone, the others can still be reached through nodes that are left, and a new walk
lists just these (`below_discards`).
-/
import MerkleBuffer.Proofs.Buffer.Walk

namespace MerkleBuffer

open Relation (ReflTransGen)

/-- Every hash of a list is `root` or stands before one that leads to it. -/
def HangsFrom (leads : Hash → Hash → Prop) (root : Hash) : List Hash → Prop
  | [] => True
  | h :: rest => (h = root ∨ ∃ p ∈ rest, leads p h) ∧ HangsFrom leads root rest

namespace HangsFrom

variable {leads : Hash → Hash → Prop} {root h : Hash} {l xs ys : List Hash}

theorem of_append (hl : HangsFrom leads root (xs ++ ys)) : HangsFrom leads root ys := by
  induction xs with
  | nil => exact hl
  | cons x rest ih => exact ih hl.2

/-- The last hash of such a list is the root. -/
theorem root_mem (hl : HangsFrom leads root l) (hh : h ∈ l) : root ∈ l := by
  induction l generalizing h with
  | nil => cases hh
  | cons x rest ih =>
    rcases hl.1 with rfl | ⟨p, hp, -⟩
    · exact List.mem_cons_self
    · exact List.mem_cons_of_mem _ (ih hl.2 hp)

theorem path (hl : HangsFrom leads root l) (hh : h ∈ l) :
    ReflTransGen (fun p c => leads p c ∧ p ∈ l ∧ c ∈ l) root h := by
  induction l generalizing h with
  | nil => cases hh
  | cons x rest ih =>
    have hlonger : ∀ k ∈ rest, ReflTransGen (fun p c => leads p c ∧ p ∈ x :: rest ∧ c ∈ x :: rest) root k :=
      fun k hk => ReflTransGen.mono (fun p c hpc =>
        ⟨hpc.1, List.mem_cons_of_mem _ hpc.2.1, List.mem_cons_of_mem _ hpc.2.2⟩) _ _ (ih hl.2 hk)
    rcases List.mem_cons.1 hh with rfl | hh
    · rcases hl.1 with rfl | ⟨p, hp, hpx⟩
      · exact .refl
      · exact (hlonger p hp).tail ⟨hpx, List.mem_cons_of_mem _ hp, List.mem_cons_self⟩
    · exact hlonger h hh

end HangsFrom

namespace Buffer

variable {b : Buffer} {root h k : Hash} {e : Staged} {unseen : Table} {steps rest : List Step}

/-! ## The state of a walk -/

/-- The node that a step returns from. -/
def Step.left? : Step → Option Hash
  | .enter _ => none
  | .leave h _ => some h

/-- Every step is about the root, or about a child of a node that is still to be
left. -/
def Hung (root : Hash) : List Step → Prop
  | [] => True
  | s :: rest => (s.hash = root ∨ ∃ p e, Step.leave p e ∈ rest ∧ s.hash ∈ e.children) ∧ Hung root rest

theorem Hung.enter (hashes : List Hash) (hsub : ∀ c ∈ hashes, c ∈ e.children)
    (hh : Hung root (.leave h e :: rest)) : Hung root (hashes.map .enter ++ .leave h e :: rest) := by
  induction hashes with
  | nil => exact hh
  | cons c cs ih =>
    refine ⟨.inr ⟨h, e, by simp, hsub c List.mem_cons_self⟩, ih fun k hk => hsub k (List.mem_cons_of_mem _ hk)⟩

/-- A walk through `b` from `root`: a node that is not unseen is entered once, and
every step has been reached from the root. -/
structure Roaming (b : Buffer) (root : Hash) (unseen : Table) (steps : List Step) : Prop where
  unseen_le : ∀ (h : Hash) (e : Staged), unseen[h]? = some e → b.table[h]? = some e
  entered : ∀ (h : Hash) (e : Staged), Step.leave h e ∈ steps → b.table[h]? = some e ∧ h ∉ unseen
  nodup : (steps.filterMap Step.left?).Nodup
  hung : Hung root steps

namespace Roaming

theorem start (b : Buffer) (root : Hash) : Roaming b root b.table [.enter root] where
  unseen_le _ _ he := he
  entered h e hs := by simp at hs
  nodup := .nil
  hung := ⟨.inl rfl, trivial⟩

theorem leave (hr : Roaming b root unseen (.leave h e :: rest)) : Roaming b root unseen rest where
  unseen_le := hr.unseen_le
  entered k x hs := hr.entered k x (List.mem_cons_of_mem _ hs)
  nodup := (List.nodup_cons.1 hr.nodup).2
  hung := hr.hung.2

theorem skip (hr : Roaming b root unseen (.enter h :: rest)) : Roaming b root unseen rest where
  unseen_le := hr.unseen_le
  entered k x hs := hr.entered k x (List.mem_cons_of_mem _ hs)
  nodup := hr.nodup
  hung := hr.hung.2

theorem enter (hr : Roaming b root unseen (.enter h :: rest)) (he : unseen[h]? = some e) :
    Roaming b root (unseen.erase h) (e.children.map .enter ++ .leave h e :: rest) where
  unseen_le k x hx := by
    rw [Table.getElem?_erase] at hx
    split at hx
    · cases hx
    · exact hr.unseen_le k x hx
  entered k x hs := by
    have hs' : Step.leave k x = .leave h e ∨ Step.leave k x ∈ rest := by simpa using hs
    rcases hs' with heq | hs
    · cases heq
      exact ⟨hr.unseen_le h e he, by simp⟩
    · obtain ⟨hget, hseen⟩ := hr.entered k x (List.mem_cons_of_mem _ hs)
      exact ⟨hget, fun hm => hseen (Std.ExtTreeMap.mem_of_mem_erase hm)⟩
  nodup := by
    have hnone : (e.children.map Step.enter).filterMap Step.left? = [] := by simp [Step.left?]
    have hrest : (rest.filterMap Step.left?).Nodup := hr.nodup
    rw [List.filterMap_append, hnone, List.nil_append]
    refine List.nodup_cons.2 ⟨fun hm => ?_, hrest⟩
    obtain ⟨s, hs, hleft⟩ := List.mem_filterMap.1 hm
    cases s with
    | enter k => cases hleft
    | leave k x =>
      obtain rfl : k = h := Option.some.inj hleft
      exact (hr.entered k x (List.mem_cons_of_mem _ hs)).2 (Table.mem_iff_getElem?.2 ⟨e, he⟩)
  hung := Hung.enter e.children (fun _ hc => hc) ⟨hr.hung.1, hr.hung.2⟩

end Roaming

/-! ## What comes out -/

theorem mem_postorder_of_leave (unseen : Table) (hs : Step.leave h e ∈ steps) : (h, e) ∈ postorder unseen steps := by
  fun_induction postorder unseen steps with
  | case1 => cases hs
  | case2 unseen k x rest ih =>
    rcases List.mem_cons.1 hs with heq | hs
    · cases heq
      exact List.mem_cons_self
    · exact List.mem_cons_of_mem _ (ih hs)
  | case3 unseen k rest hnone ih => exact ih (by simpa using hs)
  | case4 unseen k rest x hx ih => exact ih (by simpa using Or.inr (by simpa using hs))

/-- What a walk lists was unseen or is still to be left, with what is staged
there. -/
theorem postorder_entry (hr : Roaming b root unseen steps) {x : Hash × Staged} (hx : x ∈ postorder unseen steps) :
    b.table[x.1]? = some x.2 ∧ (x.1 ∈ unseen ∨ x.1 ∈ steps.filterMap Step.left?) := by
  fun_induction postorder unseen steps with
  | case1 => cases hx
  | case2 unseen h e rest ih =>
    have hleft : (Step.leave h e :: rest).filterMap Step.left? = h :: rest.filterMap Step.left? := rfl
    rw [hleft]
    rcases List.mem_cons.1 hx with rfl | hx
    · exact ⟨(hr.entered h e List.mem_cons_self).1, .inr List.mem_cons_self⟩
    · obtain ⟨hget, hfrom⟩ := ih hr.leave hx
      exact ⟨hget, hfrom.imp_right (List.mem_cons_of_mem _)⟩
  | case3 unseen h rest hnone ih => exact ih hr.skip hx
  | case4 unseen h rest e he ih =>
    obtain ⟨hget, hfrom⟩ := ih (hr.enter he) hx
    refine ⟨hget, ?_⟩
    rcases hfrom with hu | hl
    · exact .inl (Std.ExtTreeMap.mem_of_mem_erase hu)
    · have hl' : x.1 = h ∨ x.1 ∈ rest.filterMap Step.left? := by simpa [Step.left?] using hl
      rcases hl' with heq | hl
      · exact .inl (heq ▸ Table.mem_iff_getElem?.2 ⟨e, he⟩)
      · exact .inr hl

theorem nodup_postorder (hr : Roaming b root unseen steps) : ((postorder unseen steps).map (·.1)).Nodup := by
  fun_induction postorder unseen steps with
  | case1 => exact .nil
  | case2 unseen h e rest ih =>
    refine List.nodup_cons.2 ⟨fun hm => ?_, ih hr.leave⟩
    obtain ⟨x, hx, rfl⟩ := List.mem_map.1 hm
    rcases (postorder_entry hr.leave hx).2 with hu | hl
    · exact (hr.entered x.1 e List.mem_cons_self).2 hu
    · exact (List.nodup_cons.1 hr.nodup).1 hl
  | case3 unseen h rest hnone ih => exact ih hr.skip
  | case4 unseen h rest e he ih => exact ih (hr.enter he)

/-- A node comes out before the one through which the walk has entered it. -/
theorem hangs_postorder (hw : b.WellFormed) (hr : Roaming b root unseen steps) :
    HangsFrom b.Points root ((postorder unseen steps).map (·.1)) := by
  fun_induction postorder unseen steps with
  | case1 => trivial
  | case2 unseen h e rest ih =>
    refine ⟨hr.hung.1.imp_right ?_, ih hr.leave⟩
    rintro ⟨p, x, hp, hc⟩
    have hget := (hr.entered p x (List.mem_cons_of_mem _ hp)).1
    have hstaged : h ∈ b.table := Table.mem_iff_getElem?.2 ⟨e, (hr.entered h e List.mem_cons_self).1⟩
    exact ⟨p, List.mem_map.2 ⟨_, mem_postorder_of_leave unseen hp, rfl⟩, (hw.mem_children hget).1 hc, hstaged⟩
  | case3 unseen h rest hnone ih => exact ih hr.skip
  | case4 unseen h rest e he ih => exact ih (hr.enter he)

/-- The unseen nodes that are to be entered come out, and so do the unseen
children of the unseen nodes that come out. -/
theorem postorder_closed (hr : Roaming b root unseen steps) :
    (∀ h, Step.enter h ∈ steps → h ∈ unseen → h ∈ (postorder unseen steps).map (·.1)) ∧
      ∀ x ∈ postorder unseen steps, x.1 ∈ unseen → ∀ c ∈ x.2.children, c ∈ unseen →
        c ∈ (postorder unseen steps).map (·.1) := by
  fun_induction postorder unseen steps with
  | case1 => exact ⟨by simp, by simp⟩
  | case2 unseen h e rest ih =>
    obtain ⟨henter, hclosed⟩ := ih hr.leave
    refine ⟨fun k hk hu => List.mem_cons_of_mem _ (henter k (by simpa using hk) hu), fun x hx hu c hc hcu => ?_⟩
    rcases List.mem_cons.1 hx with rfl | hx
    · exact absurd hu (hr.entered h e List.mem_cons_self).2
    · exact List.mem_cons_of_mem _ (hclosed x hx hu c hc hcu)
  | case3 unseen h rest hnone ih =>
    obtain ⟨henter, hclosed⟩ := ih hr.skip
    refine ⟨fun k hk hu => ?_, hclosed⟩
    rcases List.mem_cons.1 hk with heq | hk
    · cases heq
      exact absurd hu (Table.not_mem_iff_getElem?.2 hnone)
    · exact henter k hk hu
  | case4 unseen h rest e he ih =>
    have hr' := hr.enter he
    obtain ⟨henter, hclosed⟩ := ih hr'
    have hself : h ∈ (postorder (unseen.erase h) (e.children.map .enter ++ .leave h e :: rest)).map (·.1) :=
      List.mem_map.2 ⟨(h, e), mem_postorder_of_leave _ (by simp), rfl⟩
    have herase : ∀ k, k ≠ h → k ∈ unseen → k ∈ unseen.erase h := fun k hne hk => by
      simpa [Std.ExtTreeMap.mem_erase, hk] using Ne.symm hne
    refine ⟨fun k hk hu => ?_, fun x hx hu c hc hcu => ?_⟩
    · by_cases hkh : k = h
      · exact hkh ▸ hself
      · have hk' : Step.enter k ∈ rest := by simpa [hkh] using hk
        exact henter k (by simp [hk']) (herase k hkh hu)
    · by_cases hch : c = h
      · exact hch ▸ hself
      by_cases hxh : x.1 = h
      · -- the node entered here: its children are the next to be entered
        have hxe : x.2 = e := by
          have hget := (postorder_entry hr' hx).1
          rw [hxh, hr.unseen_le h e he] at hget
          exact (Option.some.inj hget).symm
        exact henter c (by simp [← hxe, hc]) (herase c hch hcu)
      · exact hclosed x hx (herase x.1 hxh hu) c hc (herase c hch hcu)

/-! ## The nodes below a root -/

/-- The hashes of the nodes below a root, in the order of the walk. -/
def below (b : Buffer) (root : Hash) : List Hash := (b.subtree root).map (·.1)

theorem subtree_entry {x : Hash × Staged} (hx : x ∈ b.subtree root) : b.table[x.1]? = some x.2 :=
  (postorder_entry (.start b root) hx).1

theorem mem_of_mem_below (hh : h ∈ b.below root) : h ∈ b.table := by
  obtain ⟨x, hx, rfl⟩ := List.mem_map.1 hh
  exact Table.mem_iff_getElem?.2 ⟨x.2, subtree_entry hx⟩

theorem nodup_below (b : Buffer) (root : Hash) : (b.below root).Nodup := nodup_postorder (.start b root)

theorem hangs_below (hw : b.WellFormed) (root : Hash) : HangsFrom b.Points root (b.below root) :=
  hangs_postorder hw (.start b root)

/-- **The walk lists what can be reached from a staged root**, and nothing else. -/
theorem mem_below (hw : b.WellFormed) : h ∈ b.below root ↔ root ∈ b.table ∧ ReflTransGen b.Points root h := by
  obtain ⟨henter, hclosed⟩ := postorder_closed (.start b root)
  constructor
  · intro hh
    have hhangs := hangs_below hw root
    exact ⟨mem_of_mem_below (hhangs.root_mem hh), ReflTransGen.mono (fun _ _ hpc => hpc.1) _ _ (hhangs.path hh)⟩
  · rintro ⟨hroot, hpath⟩
    induction hpath with
    | refl => exact henter root (by simp) hroot
    | @tail p c _ hpc ih =>
      obtain ⟨x, hx, rfl⟩ := List.mem_map.1 ih
      have hget := subtree_entry hx
      exact hclosed x hx (Table.mem_iff_getElem?.2 ⟨_, hget⟩) c ((hw.mem_children hget).2 hpc.1) hpc.2

/-- **What is left of a walk hangs together**: when its first nodes are gone, a new
walk from the root lists the others. -/
theorem below_discards {gone left : List Hash} (hw : b.WellFormed) (hb : b.below root = gone ++ left) :
    ((b.discards gone).below root).Perm left := by
  have hr := (Remnant.discards hw.linked gone).1
  have hw' := hw.discards gone
  have hnodup := b.nodup_below root
  have hhangs := hangs_below hw root
  rw [hb] at hnodup hhangs
  have hstaged : ∀ k ∈ left, k ∈ (b.discards gone).table := fun k hk =>
    (mem_discards b gone k).2 ⟨fun hg => (List.nodup_append.1 hnodup).2.2 k hg k hk rfl,
      mem_of_mem_below (hb ▸ List.mem_append_right gone hk)⟩
  refine (List.perm_ext_iff_of_nodup (nodup_below _ root) (List.nodup_append.1 hnodup).2.1).2 fun k => ?_
  rw [mem_below hw']
  constructor
  · rintro ⟨hroot, hpath⟩
    have hk : k ∈ (b.discards gone).table := by
      rcases hpath.cases_tail with rfl | ⟨p, -, hpk⟩
      · exact hroot
      · exact hpk.2
    have hmem : k ∈ b.below root := (mem_below hw).2 ⟨hr.mem hroot, ReflTransGen.mono (fun _ _ => hr.points) _ _ hpath⟩
    rw [hb] at hmem
    exact (List.mem_append.1 hmem).resolve_left ((mem_discards b gone k).1 hk).1
  · intro hk
    refine ⟨hstaged root (hhangs.of_append.root_mem hk), ReflTransGen.mono (fun p c hpc => ?_) _ _
      (hhangs.of_append.path hk)⟩
    exact ⟨hr.refs (hstaged p hpc.2.1) ▸ hpc.1.1, hstaged c hpc.2.2⟩

end Buffer

end MerkleBuffer
