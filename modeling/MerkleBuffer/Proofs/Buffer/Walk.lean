/-
The walk below a root lists children before parents.

A hash that is still to be left has everything above it on the stack below it
in the graph (`Stack`). When such a hash is met a second time, each node between
the two can be reached from it and so lies on a cycle with it. A child that has
not come out when its parent is left is therefore one from which the parent can
be reached; without cycles there is none.
-/
import MerkleBuffer.Buffer.Subtree
import MerkleBuffer.Proofs.Buffer.ChildrenFirst

namespace MerkleBuffer.Buffer

open Relation (TransGen ReflTransGen)

variable {b : Buffer} {h k : Hash} {e : Staged} {steps : List Step} {done done' above above' : List Hash}

/-- The node that a step is about. -/
def Step.hash : Step → Hash
  | .enter h => h
  | .leave h _ => h

/-- `h` has the staged child `c`, from which it cannot be reached. -/
def OneWay (b : Buffer) (h c : Hash) : Prop :=
  b.Points h c ∧ ¬ ReflTransGen b.Points c h

theorem Acyclic.oneWay (hacyc : b.Acyclic) (hhk : b.Points h k) : b.OneWay h k :=
  ⟨hhk, fun hback => hacyc h (.head' hhk hback)⟩

/-- The steps of a walk that has listed `done`, where `above` stands above them:
a node that is to be left has only its descendants above it, and each of its
staged children is done or above or leads back to it. -/
def Stack (b : Buffer) (done above : List Hash) : List Step → Prop
  | [] => True
  | .enter h :: rest => Stack b done (h :: above) rest
  | .leave h e :: rest => b.table[h]? = some e ∧ (∀ x ∈ above, TransGen b.Points h x ∨ x ∉ b.table) ∧
      (∀ c, b.OneWay h c → c ∈ done ∨ c ∈ above) ∧ Stack b done (h :: above) rest

/-- What stands above a node that is to be left can be reached from it. -/
theorem Stack.below (hs : Stack b done above steps) (hh : .leave h e ∈ steps) :
    ∀ x ∈ above, x ∈ b.table → TransGen b.Points h x := by
  induction steps generalizing above with
  | nil => cases hh
  | cons step rest ih =>
    intro x hx hmem
    cases step with
    | enter k =>
      have hrest : .leave h e ∈ rest := by simpa using hh
      exact ih hs hrest x (List.mem_cons_of_mem _ hx) hmem
    | leave k e' =>
      obtain ⟨-, hbelow, -, hrest⟩ := hs
      rcases List.mem_cons.1 hh with heq | hh
      · cases heq
        exact (hbelow x hx).resolve_right (not_not_intro hmem)
      · exact ih hrest hh x (List.mem_cons_of_mem _ hx) hmem

/-- Hashes may go from above the stack if they are done or still to be left, and
what they lead to may come in their place. -/
theorem Stack.mono (hs : Stack b done above steps)
    (habove : ∀ x ∈ above', x ∈ b.table → ∃ y ∈ above, ReflTransGen b.Points y x)
    (hkeep : ∀ x ∈ above, x ∈ b.table → x ∈ above' ∨ x ∈ done' ∨ ∃ e, Step.leave x e ∈ steps)
    (hdone : ∀ x ∈ done, x ∈ done') :
    Stack b done' above' steps := by
  induction steps generalizing above above' with
  | nil => trivial
  | cons step rest ih =>
    have hcons : ∀ h, (∀ x e, Step.leave x e = step → x = h) →
        Stack b done (h :: above) rest → Stack b done' (h :: above') rest := by
      intro h hstep hrest
      refine ih hrest (fun x hx hmem => ?_) (fun x hx hmem => ?_)
      · rcases List.mem_cons.1 hx with rfl | hx
        · exact ⟨x, List.mem_cons_self, .refl⟩
        · obtain ⟨y, hy, hyx⟩ := habove x hx hmem
          exact ⟨y, List.mem_cons_of_mem _ hy, hyx⟩
      · rcases List.mem_cons.1 hx with rfl | hx
        · exact .inl List.mem_cons_self
        · rcases hkeep x hx hmem with ha | hd | ⟨e, he⟩
          · exact .inl (List.mem_cons_of_mem _ ha)
          · exact .inr (.inl hd)
          · rcases List.mem_cons.1 he with heq | he
            · exact .inl (hstep x e heq ▸ List.mem_cons_self)
            · exact .inr (.inr ⟨e, he⟩)
    cases step with
    | enter h => exact hcons h (fun _ _ heq => nomatch heq) hs
    | leave h e =>
      obtain ⟨he, hbelow, hkids, hrest⟩ := hs
      refine ⟨he, fun x hx => ?_, fun c hc => ?_, hcons h (fun _ _ heq => by cases heq; rfl) hrest⟩
      · by_cases hmem : x ∈ b.table
        · obtain ⟨y, hy, hyx⟩ := habove x hx hmem
          rcases hyx.cases_head with rfl | ⟨z, hyz, -⟩
          · exact hbelow _ hy
          · exact .inl (((hbelow y hy).resolve_right (not_not_intro hyz.mem)).trans_left hyx)
        · exact .inr hmem
      · rcases hkids c hc with hd | ha
        · exact .inl (hdone c hd)
        · rcases hkeep c ha hc.1.2 with ha | hd | ⟨e', hl⟩
          · exact .inr ha
          · exact .inl hd
          · -- `c` is left no sooner than `h`, so `h` can be reached from it
            rcases List.mem_cons.1 hl with heq | hl
            · cases heq
              exact absurd .refl hc.2
            · have hback := hrest.below hl h List.mem_cons_self (Table.mem_iff_getElem?.2 ⟨e, he⟩)
              exact absurd hback.to_reflTransGen hc.2

theorem stack_enter (hashes : List Hash) :
    Stack b done above (hashes.map .enter ++ steps) ↔ Stack b done (hashes.reverse ++ above) steps := by
  induction hashes generalizing above with
  | nil => rfl
  | cons h rest ih =>
    rw [List.reverse_cons, List.append_assoc]
    exact ih

/-- The state of a walk: nodes that are not unseen are listed or still to be
left. -/
structure Walking (b : Buffer) (unseen : Table) (steps : List Step) (done : List Hash) : Prop where
  unseen_le : ∀ (h : Hash) (e : Staged), unseen[h]? = some e → b.table[h]? = some e
  seen : ∀ h ∈ b.table, h ∈ unseen ∨ h ∈ done ∨ ∃ e, Step.leave h e ∈ steps
  stack : Stack b done [] steps

namespace Walking

variable {unseen : Table} {rest : List Step}

theorem leave (hw : Walking b unseen (.leave h e :: rest) done) : Walking b unseen rest (h :: done) where
  unseen_le := hw.unseen_le
  seen k hk := by
    rcases hw.seen k hk with hu | hd | ⟨e', hl⟩
    · exact .inl hu
    · exact .inr (.inl (List.mem_cons_of_mem _ hd))
    · rcases List.mem_cons.1 hl with heq | hl
      · cases heq
        exact .inr (.inl List.mem_cons_self)
      · exact .inr (.inr ⟨e', hl⟩)
  stack := by
    obtain ⟨-, -, -, hrest⟩ := hw.stack
    refine hrest.mono (fun x hx => by cases hx) (fun x hx _ => .inr (.inl ?_))
      (fun x hx => List.mem_cons_of_mem _ hx)
    exact List.mem_singleton.1 hx ▸ List.mem_cons_self

/-- A hash that was met before is done or still to be left. -/
theorem met (hw : Walking b unseen (.enter h :: rest) done) (hh : h ∉ unseen) (hmem : h ∈ b.table) :
    h ∈ done ∨ ∃ e, Step.leave h e ∈ rest := by
  rcases hw.seen h hmem with hu | hd | ⟨e, hl⟩
  · exact absurd hu hh
  · exact .inl hd
  · exact .inr ⟨e, by simpa using hl⟩

theorem skip (hw : Walking b unseen (.enter h :: rest) done) (hh : h ∉ unseen) : Walking b unseen rest done where
  unseen_le := hw.unseen_le
  seen k hk := by
    rcases hw.seen k hk with hu | hd | ⟨e, hl⟩
    · exact .inl hu
    · exact .inr (.inl hd)
    · exact .inr (.inr ⟨e, by simpa using hl⟩)
  stack := by
    have hrest : Stack b done [h] rest := hw.stack
    refine hrest.mono (fun x hx => by cases hx) (fun x hx hmem => .inr ?_) (fun x hx => hx)
    obtain rfl := List.mem_singleton.1 hx
    exact hw.met hh hmem

theorem enter (hw : Walking b unseen (.enter h :: rest) done) (hwf : b.WellFormed) (he : unseen[h]? = some e) :
    Walking b (unseen.erase h) (e.children.map .enter ++ .leave h e :: rest) done where
  unseen_le k x hx := by
    rw [Table.getElem?_erase] at hx
    split at hx
    · cases hx
    · exact hw.unseen_le k x hx
  seen k hk := by
    by_cases heq : h = k
    · subst heq
      exact .inr (.inr ⟨e, by simp⟩)
    · rcases hw.seen k hk with hu | hd | ⟨e', hl⟩
      · rw [Table.mem_iff_getElem?, Table.getElem?_erase, if_neg heq]
        exact .inl (Table.mem_iff_getElem?.1 hu)
      · exact .inr (.inl hd)
      · have hrest : .leave k e' ∈ rest := by simpa using hl
        exact .inr (.inr ⟨e', by simp [hrest]⟩)
  stack := by
    have hget := hw.unseen_le h e he
    have hrest : Stack b done [h] rest := hw.stack
    have hpoints : ∀ c ∈ e.children, c ∈ b.table → b.Points h c := fun c hc hmem =>
      ⟨(hwf.mem_children hget).1 hc, hmem⟩
    rw [stack_enter, List.append_nil]
    refine ⟨hget, fun x hx => ?_, fun c hc => .inr ?_, hrest.mono (fun x hx hmem => ?_) (fun x hx _ => .inl ?_)
      (fun x hx => hx)⟩
    · by_cases hmem : x ∈ b.table
      · exact .inl (.single (hpoints x (List.mem_reverse.1 hx) hmem))
      · exact .inr hmem
    · exact List.mem_reverse.2 ((hwf.mem_children hget).2 hc.1.1)
    · refine ⟨h, List.mem_singleton_self h, ?_⟩
      rcases List.mem_cons.1 hx with rfl | hx
      · exact .refl
      · exact .single (hpoints x (List.mem_reverse.1 hx) hmem)
    · exact List.mem_singleton.1 hx ▸ List.mem_cons_self

end Walking

/-- What a walk lists is staged and comes after its children, those apart that
lead back to it, and every staged hash that a step is about is listed. -/
theorem postorder_spec (hwf : b.WellFormed) {unseen : Table} (hw : Walking b unseen steps done) :
    (∀ p ∈ postorder unseen steps, b.table[p.1]? = some p.2) ∧
      ChildrenFirst b.OneWay done ((postorder unseen steps).map (·.1)) ∧
      ∀ s ∈ steps, s.hash ∈ b.table → s.hash ∈ done ∨ s.hash ∈ (postorder unseen steps).map (·.1) := by
  fun_induction postorder unseen steps generalizing done with
  | case1 => exact ⟨by simp, trivial, by simp⟩
  | case2 unseen h e rest ih =>
    obtain ⟨hentry, hfirst, hlisted⟩ := ih hw.leave
    obtain ⟨he, -, hkids, -⟩ := hw.stack
    refine ⟨List.forall_mem_cons.2 ⟨he, hentry⟩, ⟨fun c hc => (hkids c hc).resolve_right (by simp), hfirst⟩, ?_⟩
    refine List.forall_mem_cons.2 ⟨fun _ => .inr List.mem_cons_self, fun s hs hmem => ?_⟩
    rcases hlisted s hs hmem with hd | hl
    · rcases List.mem_cons.1 hd with heq | hd
      · exact .inr (heq ▸ List.mem_cons_self)
      · exact .inl hd
    · exact .inr (List.mem_cons_of_mem _ hl)
  | case3 unseen h rest hnone ih =>
    have hh : h ∉ unseen := Table.not_mem_iff_getElem?.2 hnone
    obtain ⟨hentry, hfirst, hlisted⟩ := ih (hw.skip hh)
    refine ⟨hentry, hfirst, List.forall_mem_cons.2 ⟨fun hmem => ?_, hlisted⟩⟩
    rcases hw.met hh hmem with hd | ⟨e, hl⟩
    · exact .inl hd
    · exact hlisted (.leave h e) hl hmem
  | case4 unseen h rest e he ih =>
    obtain ⟨hentry, hfirst, hlisted⟩ := ih (hw.enter hwf he)
    refine ⟨hentry, hfirst, List.forall_mem_cons.2 ⟨fun hmem => ?_, fun s hs hmem => ?_⟩⟩
    · exact hlisted (.leave h e) (by simp) hmem
    · exact hlisted s (by simp [hs]) hmem

/-- **Children before parents**: every node of a subtree is staged and comes
after its staged children, those apart from which it can be reached, and a
staged root is in its subtree. -/
theorem subtree_order (hwf : b.WellFormed) (root : Hash) :
    (∀ p ∈ b.subtree root, b.table[p.1]? = some p.2) ∧ ChildrenFirst b.OneWay [] ((b.subtree root).map (·.1)) ∧
      (root ∈ b.table → root ∈ (b.subtree root).map (·.1)) := by
  have hw : Walking b b.table [.enter root] [] := ⟨fun _ _ he => he, fun h hh => .inl hh, trivial⟩
  obtain ⟨hentry, hfirst, hlisted⟩ := postorder_spec hwf hw
  exact ⟨hentry, hfirst, fun hmem => (hlisted _ (List.mem_singleton_self _) hmem).resolve_left (by simp)⟩

/-- In a buffer without cycles a node of a subtree comes after all its staged
children. -/
theorem subtree_spec (hwf : b.WellFormed) (hacyc : b.Acyclic) (root : Hash) :
    (∀ p ∈ b.subtree root, b.table[p.1]? = some p.2) ∧ ChildrenFirst b.Points [] ((b.subtree root).map (·.1)) ∧
      (root ∈ b.table → root ∈ (b.subtree root).map (·.1)) := by
  obtain ⟨hentry, hfirst, hroot⟩ := subtree_order hwf root
  exact ⟨hentry, hfirst.mono (fun _ _ _ hpc => hacyc.oneWay hpc) fun _ hh => hh, hroot⟩

end MerkleBuffer.Buffer
