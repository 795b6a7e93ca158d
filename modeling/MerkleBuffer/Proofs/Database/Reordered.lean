/-
Runs in which maps come in any order.

The explicit references of a node make up a map, and a map has no order of its own: in
two processes it may be listed in two orders. Two buffers are `Reordered` if each node has
the same references in both, in any two orders. They have the same edges and the same
order of staging. `ReachableReordered` lets the order change before every command.
-/
import MerkleBuffer.Proofs.Database.Runs

namespace MerkleBuffer

/-- The same staged node, with its explicit references in another order. -/
def Staged.Reordered (e e' : Staged) : Prop :=
  ∃ edges, Option.Rel List.Perm e.edges edges ∧ e' = { e with edges }

/-- The same buffer, with the explicit references of each node in another order. -/
structure Buffer.Reordered (b b' : Buffer) : Prop where
  entry : ∀ h : Hash, Option.Rel Staged.Reordered b.table[h]? b'.table[h]?
  others : b' = { b with table := b'.table }

namespace Staged.Reordered

variable {e e' : Staged}

theorem edges (hr : e.Reordered e') : (e.edges.getD []).Perm (e'.edges.getD []) := by
  obtain ⟨edges, hedges, rfl⟩ := hr
  show (e.edges.getD []).Perm (edges.getD [])
  generalize e.edges = old at hedges
  cases hedges with
  | none => rfl
  | some hperm => exact hperm

theorem references (hr : e.Reordered e') : e.references.Perm e'.references := by
  have hembedded : e'.embedded = e.embedded := by
    obtain ⟨edges, -, rfl⟩ := hr
    rfl
  rw [Staged.references, Staged.references, hembedded]
  exact (hr.edges.flatMap_right _).append_right _

theorem links (hr : e.Reordered e') : e'.prev = e.prev ∧ e'.next = e.next := by
  obtain ⟨edges, -, rfl⟩ := hr
  exact ⟨rfl, rfl⟩

end Staged.Reordered

namespace Buffer

variable {b b' : Buffer} {h p : Hash} {e e' : Staged}

namespace Reordered

theorem getElem? (hr : b.Reordered b') (h : Hash) : b.table[h]? = none ∧ b'.table[h]? = none ∨
    ∃ e e' : Staged, b.table[h]? = some e ∧ b'.table[h]? = some e' ∧ e.Reordered e' := by
  have hentry := hr.entry h
  generalize b.table[h]? = x, b'.table[h]? = x' at hentry
  cases hentry with
  | none => exact .inl ⟨rfl, rfl⟩
  | some hsame => exact .inr ⟨_, _, rfl, rfl, hsame⟩

theorem mem_iff (hr : b.Reordered b') : h ∈ b'.table ↔ h ∈ b.table := by
  rw [Table.mem_iff_getElem?, Table.mem_iff_getElem?]
  rcases hr.getElem? h with ⟨he, he'⟩ | ⟨e, e', he, he', -⟩ <;> simp [he, he']

theorem linked (hr : b.Reordered b') {order : List Hash} (hl : b.Linked order) : b'.Linked order := by
  refine hl.congr (fun h => hr.mem_iff) (fun h e he => ?_) ?_ ?_
  · rcases hr.getElem? h with ⟨hnone, -⟩ | ⟨x, e', hx, he', hsame⟩
    · rw [he] at hnone
      cases hnone
    · obtain rfl := Option.some.inj (he.symm.trans hx)
      exact ⟨e', he', hsame.links⟩
  · rw [hr.others]
  · rw [hr.others]

theorem pins (hr : b.Reordered b') : b'.pins = b.pins := by rw [hr.others]

theorem wellFormed (hr : b.Reordered b') (hw : b.WellFormed) : b'.WellFormed where
  linked := (hr.linked hw.linked).self
  zero_not_mem := fun hz => hw.zero_not_mem (hr.mem_iff.1 hz)
  edges h e' he' := by
    rcases hr.getElem? h with ⟨-, hnone⟩ | ⟨e, x, he, hx, hsame⟩
    · rw [he'] at hnone
      cases hnone
    · obtain rfl := Option.some.inj (he'.symm.trans hx)
      have hwf := hw.edges h e he
      exact ⟨(hsame.edges.map _).nodup hwf.nodup, fun y hy => hwf.pos y (hsame.edges.mem_iff.2 hy)⟩
  pins_nodup := hr.pins ▸ hw.pins_nodup
  zero_not_pinned := hr.pins ▸ hw.zero_not_pinned

theorem points (hr : b.Reordered b') : b'.Points = b.Points := by
  have hrefs : ∀ p c, c ∈ b'.refs p ↔ c ∈ b.refs p := by
    intro p c
    rcases hr.getElem? p with ⟨he, he'⟩ | ⟨e, e', he, he', hsame⟩
    · simp [refs, nodeAt?, he, he']
    · rw [refs_of_getElem? he, refs_of_getElem? he']
      exact hsame.references.mem_iff.symm
  funext p c
  rw [Points, Points, hrefs, hr.mem_iff]

end Reordered

/-- The buffer with every map listed from its end. -/
def reversed (b : Buffer) : Buffer :=
  { b with table := b.table.map fun _ e => { e with edges := e.edges.map List.reverse } }

theorem reordered_reversed (b : Buffer) : b.Reordered b.reversed := by
  refine ⟨fun h => ?_, rfl⟩
  have hget : b.reversed.table[h]? = (b.table[h]?).map fun e => { e with edges := e.edges.map List.reverse } :=
    Std.ExtTreeMap.getElem?_map
  rw [hget]
  cases b.table[h]? with
  | none => exact .none
  | some e =>
    refine .some ⟨_, ?_, rfl⟩
    cases e.edges with
    | none => exact .none
    | some edges => exact .some (List.reverse_perm edges).symm

end Buffer

/-! ## Runs -/

section Runs

variable {σ : Type} [KeyValueStore σ] {start db : Database (Faulty σ)}

/-- The states of runs from `start` in which the maps of the buffer may come in another
order before each command, and any write may fail. -/
inductive ReachableReordered (start : Database (Faulty σ)) : Database (Faulty σ) → Prop
  | start : ReachableReordered start start
  | reorder {db : Database (Faulty σ)} {b : Buffer} (before : ReachableReordered start db)
      (hb : db.buffer.Reordered b) : ReachableReordered start { db with buffer := b }
  | step {db : Database (Faulty σ)} (before : ReachableReordered start db) (writes : Option Nat) (c : Command) :
      ReachableReordered start (c.run (db.allowing writes))

theorem ReachableReordered.wellFormed (hr : ReachableReordered start db) (hw : start.buffer.WellFormed) :
    db.buffer.WellFormed := by
  induction hr with
  | start => exact hw
  | reorder _ hb ih => exact hb.wellFormed ih
  | step _ writes c ih => exact (run_effect c _).wellFormed ih

/-- The runs in which the maps keep their order are among them. -/
theorem Reachable.reordered {allowed : Database (Faulty σ) → Command → Prop} (hr : Reachable allowed start db) :
    ReachableReordered start db := by
  induction hr with
  | start => exact .start
  | step _ writes c _ ih => exact .step ih writes c

end Runs

end MerkleBuffer
