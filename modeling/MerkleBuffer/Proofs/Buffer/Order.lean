/-
The order of staging as a list.

`Linked b order`: the links of the nodes and the two ends of the buffer spell
out `order`, which holds every staged hash once. Staging appends to the list
(`Linked.insert`), taking a node out leaves the others in their order
(`Linked.remove`), and walking the links reads the list back (`Linked.inOrder_eq`).
-/
import MerkleBuffer.Proofs.Buffer.Entries

namespace MerkleBuffer.Buffer

/-- The links of the staged nodes spell out `order`. -/
structure Linked (b : Buffer) (order : List Hash) : Prop where
  nodup : order.Nodup
  mem_iff : ∀ h, h ∈ order ↔ h ∈ b.table
  oldest : b.oldest = order.head?
  newest : b.newest = order.getLast?
  /-- Each node knows the one before it and the one behind it -/
  link : ∀ xs h ys, order = xs ++ h :: ys →
    ∃ e, b.table[h]? = some e ∧ e.prev = xs.getLast? ∧ e.next = ys.head?

theorem Linked.empty : Linked Buffer.empty [] where
  nodup := .nil
  mem_iff h := by simp [Buffer.empty]
  oldest := rfl
  newest := rfl
  link xs h ys hs := by simp at hs

/-- Whatever changes neither links nor ends keeps the order. -/
theorem Linked.congr {b b' : Buffer} {order : List Hash} (hl : Linked b order)
    (hmem : ∀ h, h ∈ b'.table ↔ h ∈ b.table)
    (hlinks : ∀ (h : Hash) (e : Staged), b.table[h]? = some e →
      ∃ e' : Staged, b'.table[h]? = some e' ∧ e'.prev = e.prev ∧ e'.next = e.next)
    (hold : b'.oldest = b.oldest) (hnew : b'.newest = b.newest) : Linked b' order where
  nodup := hl.nodup
  mem_iff h := (hl.mem_iff h).trans (hmem h).symm
  oldest := hold.trans hl.oldest
  newest := hnew.trans hl.newest
  link xs h ys hs := by
    obtain ⟨e, he, hprev, hnext⟩ := hl.link xs h ys hs
    obtain ⟨e', he', hp, hn⟩ := hlinks h e he
    exact ⟨e', he', hp.trans hprev, hn.trans hnext⟩

/-- The usual case of `congr`: every entry is changed by a function that keeps
the links. -/
theorem Linked.map {b b' : Buffer} {order : List Hash} (hl : Linked b order) {f : Hash → Staged → Staged}
    (hf : ∀ h, b'.table[h]? = (b.table[h]?).map (f h))
    (hkeep : ∀ h e, (f h e).prev = e.prev ∧ (f h e).next = e.next)
    (hold : b'.oldest = b.oldest) (hnew : b'.newest = b.newest) : Linked b' order := by
  refine hl.congr (fun h => ?_) (fun h e he => ?_) hold hnew
  · rw [Table.mem_iff_getElem?, Table.mem_iff_getElem?, hf]
    cases b.table[h]? <;> simp
  · exact ⟨f h e, by rw [hf, he]; rfl, hkeep h e⟩

/-! ## Splitting a list without repetitions -/

theorem getLast?_ne_of_nodup {xs ys : List Hash} {k : Hash} (hnodup : (xs ++ k :: ys).Nodup) (hys : ys ≠ []) :
    (xs ++ k :: ys).getLast? ≠ some k := by
  intro hlast
  have hk : k ∈ ys := by
    obtain ⟨zs, z, rfl⟩ := (List.eq_nil_or_concat ys).resolve_left hys
    have hz : z = k := by
      rw [List.concat_eq_append, ← List.cons_append, ← List.append_assoc, List.getLast?_concat] at hlast
      exact Option.some.inj hlast
    simp [hz]
  exact (List.nodup_cons.1 (List.nodup_append.1 hnodup).2.1).1 hk

/-! ## Staging -/

theorem Linked.insert {b : Buffer} {order : List Hash} (hl : Linked b order) {h : Hash} (hh : h ∉ b.table)
    (size : Nat) (node : Node) : Linked (b.insert h size node) (order ++ [h]) where
  nodup := by
    have hnot : h ∉ order := fun hm => hh ((hl.mem_iff h).1 hm)
    rw [List.nodup_append]
    exact ⟨hl.nodup, by simp, fun a ha c hc => by
      rw [List.mem_singleton.1 hc]
      exact fun heq => hnot (heq ▸ ha)⟩
  mem_iff k := by
    rw [mem_insert hh, List.mem_append, List.mem_singleton, hl.mem_iff k, or_comm]
  oldest := by
    rw [insert_of_not_mem hh]
    show b.oldest.or (some h) = _
    rw [hl.oldest]
    cases order <;> rfl
  newest := by
    rw [insert_of_not_mem hh]
    simp
  link xs k ys hs := by
    rcases List.eq_nil_or_concat ys with rfl | ⟨ys', y, rfl⟩
    · -- the node just staged: the former newest stands before it
      obtain ⟨hxs, hk⟩ := List.append_inj' hs rfl
      obtain rfl : h = k := by simpa using hk
      subst hxs
      have hnewest : b.newest ≠ some h := by
        rw [hl.newest]
        exact fun heq => hh ((hl.mem_iff h).1 (List.mem_of_getLast? heq))
      refine ⟨_, by rw [getElem?_insert hh, if_pos rfl, Option.map_some], ?_, ?_⟩
      · exact hl.newest
      · simp [hnewest, Staged.fresh]
    · have hs' : order ++ [h] = (xs ++ k :: ys') ++ [y] := by simpa using hs
      obtain ⟨horder, hy⟩ := List.append_inj' hs' rfl
      obtain rfl : h = y := by simpa using hy
      obtain ⟨e, he, hprev, hnext⟩ := hl.link xs k ys' horder
      have hk : h ≠ k := by
        rintro rfl
        exact hh (Table.mem_iff_getElem?.2 ⟨e, he⟩)
      have hget := getElem?_insert hh size node k
      rw [if_neg hk, he, Option.map_some, Option.map_some] at hget
      refine ⟨_, hget, hprev, ?_⟩
      by_cases hys : ys' = []
      · subst hys
        have hlast : b.newest = some k := by rw [hl.newest, horder]; simp
        have hsome : b.oldest.isSome := by rw [hl.oldest, horder]; cases xs <;> rfl
        exact if_pos ⟨hsome, hlast⟩
      · have hlast : b.newest ≠ some k := by
          rw [hl.newest, horder]
          exact getLast?_ne_of_nodup (horder ▸ hl.nodup) hys
        have hhead : (ys' ++ [h]).head? = ys'.head? := by
          cases ys' with
          | nil => exact absurd rfl hys
          | cons y rest => rfl
        rw [List.concat_eq_append, hhead]
        exact (if_neg fun hand => hlast hand.2).trans hnext

/-! ## Taking nodes out -/

theorem mem_remove (b : Buffer) (h : Hash) (e : Staged) (k : Hash) :
    k ∈ (b.remove h e).table ↔ k ≠ h ∧ k ∈ b.table := by
  rw [mem_iff_nodeAt?, mem_iff_nodeAt?, nodeAt?_remove]
  by_cases hk : h = k
  · simp [hk]
  · simp [hk, Ne.symm hk]

/-- The ends of the list after a node was taken out between two neighbours. -/
theorem ends_remove {b : Buffer} {h : Hash} {e : Staged} (hprev : ∀ p, e.prev = some p → p ∈ (b.table.erase h))
    (hnext : ∀ n, e.next = some n → n ∈ (b.table.erase h)) :
    (b.remove h e).oldest = (if e.prev = none then e.next else b.oldest) ∧
      (b.remove h e).newest = (if e.next = none then e.prev else b.newest) := by
  obtain ⟨hold, hnew⟩ := ends_setNext (b := { b with
    table := b.table.erase h
    payloadSize := b.payloadSize - e.payload
    edgesSize := b.edgesSize - e.edgeCost }) hprev e.next
  have hmem : ∀ n, e.next = some n → n ∈ (({ b with
      table := b.table.erase h
      payloadSize := b.payloadSize - e.payload
      edgesSize := b.edgesSize - e.edgeCost } : Buffer).setNext e.prev e.next).table := by
    intro n hn
    rw [Table.mem_iff_getElem?, getElem?_setNext]
    obtain ⟨x, hx⟩ := Table.mem_iff_getElem?.1 (hnext n hn)
    exact ⟨_, by rw [hx]; rfl⟩
  obtain ⟨hnew', hold'⟩ := ends_setPrev hmem e.prev
  rw [hnew] at hnew'
  exact ⟨hold'.trans hold, hnew'⟩

theorem Linked.remove {b : Buffer} {xs ys : List Hash} {h : Hash} {e : Staged} (hl : Linked b (xs ++ h :: ys))
    (he : b.table[h]? = some e) : Linked (b.remove h e) (xs ++ ys) := by
  obtain ⟨e', he', hprev, hnext⟩ := hl.link xs h ys rfl
  obtain rfl : e = e' := by rw [he] at he'; exact Option.some.inj he'
  have hnodup := hl.nodup
  rw [List.nodup_append, List.nodup_cons] at hnodup
  obtain ⟨hxs, ⟨hh, hys⟩, hdisj⟩ := hnodup
  have hstaged : ∀ k, k ∈ xs ∨ k ∈ ys → k ∈ b.table.erase h := by
    intro k hk
    rw [Table.mem_iff_getElem?, Table.getElem?_erase]
    have hne : h ≠ k := by
      rintro rfl
      rcases hk with hk | hk
      · exact hdisj h hk h (by simp) rfl
      · exact hh hk
    simp only [hne, if_false]
    exact Table.mem_iff_getElem?.1 ((hl.mem_iff k).1 (by simpa using hk.imp_right .inr))
  obtain ⟨hold, hnew⟩ := ends_remove (b := b) (e := e) (h := h)
    (fun p hp => hstaged p (.inl (List.mem_of_getLast? (hprev ▸ hp))))
    (fun n hn => hstaged n (.inr (List.mem_of_head? (hnext ▸ hn))))
  refine ⟨?_, fun k => ?_, ?_, ?_, fun as k cs hs => ?_⟩
  · exact List.nodup_append.2 ⟨hxs, hys, fun a ha c hc => hdisj a ha c (by simp [hc])⟩
  · rw [mem_remove, ← hl.mem_iff]
    constructor
    · intro hk
      refine ⟨?_, by simpa using (List.mem_append.1 hk).imp_right .inr⟩
      rintro rfl
      rcases List.mem_append.1 hk with hk | hk
      · exact hdisj k hk k (by simp) rfl
      · exact hh hk
    · rintro ⟨hne, hk⟩
      simpa [hne] using hk
  · rw [hold, hprev, hnext, hl.oldest]
    cases xs <;> simp
  · rw [hnew, hprev, hnext, hl.newest]
    rcases List.eq_nil_or_concat ys with rfl | ⟨zs, z, rfl⟩
    · simp
    · rw [List.concat_eq_append, ← List.append_assoc, ← List.cons_append, ← List.append_assoc, List.getLast?_concat,
        List.getLast?_concat]
      simp
  · -- the neighbours of another node change only where `h` stood between them
    have hget := getElem?_remove b h e k
    have hbehind : ∀ ds, ys = ds ++ k :: cs → as = xs ++ ds → ∃ e', (b.remove h e).table[k]? = some e' ∧
        e'.prev = as.getLast? ∧ e'.next = cs.head? := by
      rintro ds rfl rfl
      obtain ⟨x, hx, hxp, hxn⟩ := hl.link (xs ++ h :: ds) k cs (by simp)
      have hkh : h ≠ k := by rintro rfl; exact hh (by simp)
      rw [if_neg hkh, hx, Option.map_some] at hget
      refine ⟨_, hget, ?_, ?_⟩
      · show (if e.next = some k then e.prev else x.prev) = _
        cases ds with
        | nil => rw [if_pos (by rw [hnext]; rfl), hprev, List.append_nil]
        | cons d ds =>
          have hdk : d ≠ k := fun heq => (List.nodup_cons.1 hys).1 (by simp [heq])
          rw [if_neg (by rw [hnext]; simpa using hdk), hxp]
          rw [List.getLast?_append, List.getLast?_append, List.getLast?_cons_cons,
            List.getLast?_eq_some_getLast (List.cons_ne_nil d ds), Option.some_or]
      · have hk : e.prev ≠ some k := by
          rw [hprev]
          exact fun heq => hdisj k (List.mem_of_getLast? heq) k (by simp) rfl
        exact (if_neg hk).trans hxn
    rcases List.append_eq_append_iff.1 hs with ⟨ds, has, hds⟩ | ⟨ds, hds, hcs⟩
    · exact hbehind ds hds has
    cases ds with
    | nil => exact hbehind [] hcs.symm (by simpa using hds.symm)
    | cons d ds =>
      obtain ⟨rfl, rfl⟩ : k = d ∧ cs = ds ++ ys := by simpa using hcs
      subst hds
      obtain ⟨x, hx, hxp, hxn⟩ := hl.link as k (ds ++ h :: ys) (by simp)
      have hkh : h ≠ k := fun heq => hdisj k (by simp) h (by simp) heq.symm
      rw [if_neg hkh, hx, Option.map_some] at hget
      refine ⟨_, hget, ?_, ?_⟩
      · have hk : e.next ≠ some k := by
          rw [hnext]
          exact fun heq => hdisj k (by simp) k (by simp [List.mem_of_head? heq]) rfl
        exact (if_neg hk).trans hxp
      · show (if e.prev = some k then e.next else x.next) = _
        cases ds with
        | nil => rw [if_pos (by rw [hprev]; simp), hnext, List.nil_append]
        | cons d ds =>
          rw [if_neg (by rw [hprev]; exact getLast?_ne_of_nodup hxs (by simp)), hxn]
          rfl

/-! ## Reading the order back -/

theorem Linked.length {b : Buffer} {order : List Hash} (hl : Linked b order) : order.length = b.table.size := by
  rw [← Std.ExtTreeMap.length_keys]
  refine List.Perm.length_eq ((List.perm_ext_iff_of_nodup hl.nodup Std.ExtTreeMap.nodup_keys).2 fun h => ?_)
  rw [hl.mem_iff, Std.ExtTreeMap.mem_keys]

/-- Walking the links from some node on reads off the rest of the order. -/
theorem Linked.nodesFrom {b : Buffer} {order : List Hash} (hl : Linked b order) (xs ys : List Hash)
    (hs : order = xs ++ ys) {n : Nat} (hn : ys.length ≤ n) :
    (Buffer.nodesFrom b.table n ys.head?).map (·.1) = ys ∧
      ∀ p ∈ Buffer.nodesFrom b.table n ys.head?, b.table[p.1]? = some p.2 := by
  induction n generalizing xs ys with
  | zero =>
    obtain rfl := List.eq_nil_of_length_eq_zero (Nat.le_zero.1 hn)
    simp [Buffer.nodesFrom]
  | succ n ih =>
    cases ys with
    | nil => simp [Buffer.nodesFrom]
    | cons h ys =>
      obtain ⟨e, he, -, hnext⟩ := hl.link xs h ys hs
      obtain ⟨hmap, hget⟩ := ih (xs ++ [h]) ys (by simpa using hs) (by simpa using hn)
      rw [List.head?_cons, Buffer.nodesFrom]
      simp only [he, hnext]
      refine ⟨by rw [List.map_cons, hmap], fun p hp => ?_⟩
      rcases List.mem_cons.1 hp with rfl | hp
      · exact he
      · exact hget p hp

theorem Linked.flushOrder_eq {b : Buffer} {order : List Hash} (hl : Linked b order) : b.flushOrder = order := by
  have h := (hl.nodesFrom [] order rfl (Nat.le_of_eq hl.length)).1
  rw [← hl.oldest] at h
  exact h

theorem Linked.mem_inOrder {b : Buffer} {order : List Hash} (hl : Linked b order) {p : Hash × Staged}
    (hp : p ∈ b.inOrder) : b.table[p.1]? = some p.2 := by
  have h := (hl.nodesFrom [] order rfl (Nat.le_of_eq hl.length)).2
  rw [← hl.oldest] at h
  exact h p hp

end MerkleBuffer.Buffer
