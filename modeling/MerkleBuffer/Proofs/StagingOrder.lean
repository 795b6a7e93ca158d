/-
The list of staged nodes is the order in which they were staged.

`Linked` spells the links out as one list. Walking them forward from the oldest node
or backward from the newest therefore visits every staged node once (`Follows`), and
of two nodes one is the next of the other exactly when the other is its previous one.
Every command that stages nothing leaves a part of the list in its order, and one that
does appends to it, so the list is at all times what is left of the sequence in which
nodes were staged, each at its last place (`run_flushOrder`).
-/
import MerkleBuffer.Proofs.Database.Recorded
import MerkleBuffer.Proofs.Buffer.Discards
import MerkleBuffer.Proofs.Lists

namespace MerkleBuffer

/-- Following a link of the staged nodes from `cursor` on visits these hashes, one
after another, and then comes to an end. -/
inductive Follows (link : Staged → Option Hash) (table : Table) : Option Hash → List Hash → Prop
  | done : Follows link table none []
  | node {h : Hash} {e : Staged} {hs : List Hash} (he : table[h]? = some e) (rest : Follows link table (link e) hs) :
      Follows link table (some h) (h :: hs)

namespace Buffer

variable {b b' : Buffer} {order staged : List Hash} {h k : Hash}

/-- Whether `k` is the neighbour of the staged node `h` that a link leads to. -/
def LeadsTo (b : Buffer) (link : Staged → Option Hash) (h k : Hash) : Prop :=
  ∃ e, b.table[h]? = some e ∧ link e = some k

/-- The staged nodes form a doubly linked list, in the order in which they were
staged; `staged` are all hashes that were staged so far. -/
structure FlushList (b : Buffer) (staged : List Hash) : Prop where
  forward : Follows Staged.next b.table b.oldest b.flushOrder
  backward : Follows Staged.prev b.table b.newest b.flushOrder.reverse
  last : b.flushOrder.getLast? = b.newest
  nodup : b.flushOrder.Nodup
  mem_iff (h : Hash) : h ∈ b.flushOrder ↔ h ∈ b.table
  inverse (h k : Hash) : b.LeadsTo Staged.next h k ↔ b.LeadsTo Staged.prev k h
  oldest_eq_none : b.oldest = none ↔ b.table = ∅
  newest_eq_none : b.newest = none ↔ b.table = ∅
  order : b.flushOrder = staged.dedup.filter (b.table.contains ·)

/-- The meta-root is no staged node, and neither an end nor a link of the list leads to it.
What it holds are the pins: every staged node can be pinned, once, and nothing but pinning
and dereferencing changes them. -/
structure MetaRootApart {σ : Type} [KeyValueStore σ] (db : Database σ) : Prop where
  not_mem : Hash.zero ∉ db.buffer.table
  oldest : db.buffer.oldest ≠ some Hash.zero
  newest : db.buffer.newest ≠ some Hash.zero
  next (h : Hash) : ¬ db.buffer.LeadsTo Staged.next h Hash.zero
  prev (h : Hash) : ¬ db.buffer.LeadsTo Staged.prev h Hash.zero
  pins : db.buffer.pins.Nodup ∧ Hash.zero ∉ db.buffer.pins
  pinned (h : Hash) : h ∈ db.buffer.table → (db.reference h Hash.zero).2.buffer.pins =
    if h ∈ db.buffer.pins then db.buffer.pins else db.buffer.pins ++ [h]
  dereferenced (h : Hash) : (db.dereference h).2.buffer.pins = db.buffer.pins.erase h
  kept (c : Command) : (∀ h, c ≠ .reference h Hash.zero) → (∀ h, c ≠ .dereference h) →
    (c.run db).buffer.pins = db.buffer.pins

/-! ## Walking the links -/

theorem Linked.forward (hl : b.Linked order) (xs ys : List Hash) (hs : order = xs ++ ys) :
    Follows Staged.next b.table ys.head? ys := by
  induction ys generalizing xs with
  | nil => exact .done
  | cons h rest ih =>
    obtain ⟨e, he, -, hnext⟩ := hl.link xs h rest hs
    refine .node he ?_
    rw [hnext]
    exact ih (xs ++ [h]) (by simpa using hs)

theorem Linked.backward (hl : b.Linked order) (xs ys : List Hash) (hs : order = xs.reverse ++ ys) :
    Follows Staged.prev b.table xs.head? xs := by
  induction xs generalizing ys with
  | nil => exact .done
  | cons h rest ih =>
    have hs' : order = rest.reverse ++ h :: ys := by simpa using hs
    obtain ⟨e, he, hprev, -⟩ := hl.link rest.reverse h ys hs'
    refine .node he ?_
    rw [hprev, List.getLast?_reverse]
    exact ih (h :: ys) hs'

theorem Linked.leadsTo_next_iff (hl : b.Linked order) :
    b.LeadsTo Staged.next h k ↔ ∃ xs ys, order = xs ++ h :: k :: ys := by
  constructor
  · rintro ⟨e, he, hnext⟩
    obtain ⟨xs, ys, hs⟩ := List.append_of_mem ((hl.mem_iff h).2 (Table.mem_iff_getElem?.2 ⟨e, he⟩))
    obtain ⟨e', he', -, hnext'⟩ := hl.link xs h ys hs
    obtain rfl : e = e' := Option.some.inj (he.symm.trans he')
    obtain ⟨ys, rfl⟩ := List.head?_eq_some_iff.1 (hnext'.symm.trans hnext)
    exact ⟨xs, ys, hs⟩
  · rintro ⟨xs, ys, hs⟩
    obtain ⟨e, he, -, hnext⟩ := hl.link xs h (k :: ys) hs
    exact ⟨e, he, hnext⟩

theorem Linked.leadsTo_prev_iff (hl : b.Linked order) :
    b.LeadsTo Staged.prev k h ↔ ∃ xs ys, order = xs ++ h :: k :: ys := by
  constructor
  · rintro ⟨e, he, hprev⟩
    obtain ⟨xs, ys, hs⟩ := List.append_of_mem ((hl.mem_iff k).2 (Table.mem_iff_getElem?.2 ⟨e, he⟩))
    obtain ⟨e', he', hprev', -⟩ := hl.link xs k ys hs
    obtain rfl : e = e' := Option.some.inj (he.symm.trans he')
    obtain ⟨xs, rfl⟩ := List.getLast?_eq_some_iff.1 (hprev'.symm.trans hprev)
    exact ⟨xs, ys, by simpa using hs⟩
  · rintro ⟨xs, ys, hs⟩
    obtain ⟨e, he, hprev, -⟩ := hl.link (xs ++ [h]) k ys (by simpa using hs)
    exact ⟨e, he, by simpa using hprev⟩

theorem Linked.eq_nil_iff (hl : b.Linked order) : order = [] ↔ b.table = ∅ := by
  rw [← List.length_eq_zero_iff, hl.length, ← Std.ExtTreeMap.isEmpty_iff, Std.ExtTreeMap.isEmpty_eq_size_beq_zero,
    beq_iff_eq]

theorem FlushList.of_linked (hl : b.Linked b.flushOrder)
    (horder : b.flushOrder = staged.dedup.filter (b.table.contains ·)) : b.FlushList staged where
  forward := by
    rw [hl.oldest]
    exact hl.forward [] b.flushOrder rfl
  backward := by
    have hback := hl.backward b.flushOrder.reverse [] (by simp)
    rwa [List.head?_reverse, ← hl.newest] at hback
  last := hl.newest.symm
  nodup := hl.nodup
  mem_iff := hl.mem_iff
  inverse h k := hl.leadsTo_next_iff.trans hl.leadsTo_prev_iff.symm
  oldest_eq_none := by rw [hl.oldest, List.head?_eq_none_iff, hl.eq_nil_iff]
  newest_eq_none := by rw [hl.newest, List.getLast?_eq_none_iff, hl.eq_nil_iff]
  order := horder

theorem Effect.pins_eq {c : Command} (he : Effect b c b') (hpin : ∀ h, c ≠ .reference h Hash.zero)
    (hunpin : ∀ h, c ≠ .dereference h) : b'.pins = b.pins := by
  cases he with
  | same _ hsame => exact hsame.pins
  | insert => exact (insert_frame ..).1
  | @reference child parent _ =>
    refine (pins_reference b child parent).resolve_right fun hzero => ?_
    obtain ⟨rfl, -⟩ := hzero
    exact hpin child rfl
  | @dereference root _ => exact absurd rfl (hunpin root)
  | cap _ _ hsame => exact hsame.pins.trans (b.discards_frame _).1
  | commit _ _ hsame => exact hsame.pins.trans (b.discards_frame _).1

theorem MetaRootApart.of_wellFormed {σ : Type} [KeyValueStore σ] {db : Database σ} (hw : db.buffer.WellFormed) :
    MetaRootApart db := by
  have hl := hw.linked
  have hnot : Hash.zero ∉ db.buffer.flushOrder := mt (hl.mem_iff _).1 hw.zero_not_mem
  refine ⟨hw.zero_not_mem, fun heq => ?_, fun heq => ?_, fun h hto => ?_, fun h hto => ?_,
    ⟨hw.pins_nodup, hw.zero_not_pinned⟩, fun h hh => ?_, fun h => ?_, fun c => (run_effect c db).pins_eq⟩
  · exact hnot (List.mem_of_head? (hl.oldest.symm.trans heq))
  · exact hnot (List.mem_of_getLast? (hl.newest.symm.trans heq))
  · obtain ⟨xs, ys, hs⟩ := hl.leadsTo_next_iff.1 hto
    exact hnot (hs ▸ by simp)
  · obtain ⟨xs, ys, hs⟩ := hl.leadsTo_prev_iff.1 hto
    exact hnot (hs ▸ by simp)
  · have hz : h ≠ Hash.zero := fun heq => hw.zero_not_mem (heq ▸ hh)
    have hpin : (db.reference h Hash.zero).2.buffer = db.buffer.pin h := by
      simp [Database.reference, Buffer.reference, Hash.isZero, hz, hh]
    rw [hpin]
    split
    · next hold => rw [pin, if_pos hold]
    · next hnew => exact pins_pin hnew
  · by_cases hz : h = Hash.zero
    · rw [Database.dereference, if_pos (Hash.isZero_iff.2 hz), hz, List.erase_of_not_mem hw.zero_not_pinned]
    · rw [Database.dereference, if_neg (mt Hash.isZero_iff.1 hz)]
      exact (remnant_dereference hl h).2.2.1

end Buffer

/-! ## The order of staging -/

namespace Buffer

variable {b b' : Buffer} {staged : List Hash} {h : Hash}

/-- A part of the list keeps the order, and the hashes that it has lost stay in the
sequence of those that were staged. -/
theorem flushOrder_part (hsub : b'.flushOrder.Sublist b.flushOrder) (hl : b.Linked b.flushOrder)
    (hl' : b'.Linked b'.flushOrder) (horder : b.flushOrder = staged.dedup.filter (b.table.contains ·)) :
    b'.flushOrder = staged.dedup.filter (b'.table.contains ·) := by
  have hpart : b'.flushOrder = b.flushOrder.filter (b'.table.contains ·) :=
    sublist_eq_filter hsub hl.nodup fun k => by rw [hl'.mem_iff, Std.ExtTreeMap.contains_iff_mem]
  rw [hpart, horder, List.filter_filter]
  refine List.filter_congr fun k _ => ?_
  cases hk : b'.table.contains k with
  | false => rw [Bool.false_and]
  | true =>
    have hmem : k ∈ b.table := (hl.mem_iff k).1 (hsub.subset ((hl'.mem_iff k).2 (Std.ExtTreeMap.contains_iff_mem.1 hk)))
    rw [Bool.true_and, Std.ExtTreeMap.contains_iff_mem.2 hmem]

theorem flushOrder_staged {size : Nat} {node : Node} (hl : b.Linked b.flushOrder) (hh : h ∉ b.table)
    (horder : b.flushOrder = staged.dedup.filter (b.table.contains ·)) :
    (b.insert h size node).flushOrder =
      (staged ++ [h]).dedup.filter ((b.insert h size node).table.contains ·) := by
  have hself : ((b.insert h size node).table.contains h) = true :=
    Std.ExtTreeMap.contains_iff_mem.2 ((mem_insert hh size node h).2 (.inl rfl))
  -- among the hashes that were staged before, those in the table stay the same
  have hbefore : ∀ k, b.table.contains k = (((b.insert h size node).table.contains k) && decide (k ≠ h)) := by
    intro k
    have hmem := mem_insert hh size node k
    rw [Bool.eq_iff_iff]
    simp only [Std.ExtTreeMap.contains_iff_mem, Bool.and_eq_true, decide_eq_true_eq, hmem]
    constructor
    · exact fun hk => ⟨.inr hk, fun heq => hh (heq ▸ hk)⟩
    · exact fun hk => hk.1.resolve_left hk.2
  rw [dedup_concat, List.filter_append, List.filter_filter, flushOrder_insert hl hh, horder,
    List.filter_cons_of_pos hself, List.filter_nil, List.filter_congr fun k _ => hbefore k]

theorem Effect.flushOrder_sublist {c : Command} (he : Effect b c b') (hl : b.Linked b.flushOrder)
    (hc : c.staging? = none) : b'.flushOrder.Sublist b.flushOrder := by
  cases he with
  | same _ hsame => rw [hsame.flushOrder]
  | insert hstaging _ _ => rw [hc] at hstaging; cases hstaging
  | reference _ => rw [flushOrder_reference hl]
  | dereference _ => exact (remnant_dereference hl _).1.order
  | cap _ _ hsame =>
    rw [hsame.flushOrder]
    exact (Remnant.discards hl _).1.order
  | commit _ _ hsame =>
    rw [hsame.flushOrder]
    exact (Remnant.discards hl _).1.order

end Buffer

section Runs

variable {σ : Type} [KeyValueStore σ]

/-- The hash that a command stages newly, if it stages one. -/
def Command.stages (c : Command) (db : Database σ) : List Hash :=
  match c.staging? with
  | none => []
  | some (h, _, _) => if h.isZero || db.buffer.table.contains h then [] else [h]

/-- The hashes that the commands of a list stage newly, in their order. -/
def Database.stagings (db : Database (Faulty σ)) : List (Option Nat × Command) → List Hash
  | [] => []
  | (writes, c) :: rest => c.stages (db.allowing writes) ++ (c.run (db.allowing writes)).stagings rest

/-- **The list is what is left of the sequence of staging**: one command. -/
theorem run_flushOrder (c : Command) {db : Database σ} {staged : List Hash} (hw : db.buffer.WellFormed)
    (horder : db.buffer.flushOrder = staged.dedup.filter (db.buffer.table.contains ·)) :
    (c.run db).buffer.flushOrder = (staged ++ c.stages db).dedup.filter ((c.run db).buffer.table.contains ·) := by
  cases hc : c.staging? with
  | none =>
    have hnil : c.stages db = [] := by rw [Command.stages, hc]
    have heffect := run_effect c db
    rw [hnil, List.append_nil]
    exact Buffer.flushOrder_part (heffect.flushOrder_sublist hw.linked hc) hw.linked (heffect.wellFormed hw).linked
      horder
  | some staging =>
    obtain ⟨h, size, node⟩ := staging
    rw [run_staging hc]
    by_cases hz : h = Hash.zero
    · have hnil : c.stages db = [] := by simp [Command.stages, hc, hz, Hash.isZero_iff.2]
      rw [if_pos hz, hnil, List.append_nil, horder]
    rw [if_neg hz]
    by_cases hh : h ∈ db.buffer.table
    · have hnil : c.stages db = [] := by simp [Command.stages, hc, hh]
      rw [Buffer.insert_of_mem hh, hnil, List.append_nil, horder]
    · have hstages : c.stages db = [h] := by
        simp [Command.stages, hc, hh, Bool.eq_false_iff.2 (mt Hash.isZero_iff.1 hz)]
      rw [hstages]
      exact Buffer.flushOrder_staged hw.linked hh horder

/-! ## Runs -/

/-- A database in a run: its buffer is in order, and the store was never given the
meta-root. -/
structure InStagingOrder (staged : List Hash) (db : Database (Faulty σ)) : Prop where
  wellFormed : db.buffer.WellFormed
  order : db.buffer.flushOrder = staged.dedup.filter (db.buffer.table.contains ·)
  journal : ∀ batch ∈ db.disk.journal, ∀ p ∈ batch, p.key ≠ Hash.zero.bytes

theorem InStagingOrder.run {staged : List Hash} {db : Database (Faulty σ)} (hs : InStagingOrder staged db)
    (writes : Option Nat) (c : Command) :
    InStagingOrder (staged ++ c.stages (db.allowing writes)) (c.run (db.allowing writes)) where
  wellFormed := (run_effect c (db.allowing writes)).wellFormed hs.wellFormed
  order := run_flushOrder c hs.wellFormed hs.order
  journal := by
    obtain ⟨qs, hwrote, hqs⟩ := @run_wrote _ _ c (db.allowing writes) hs.wellFormed
    obtain ⟨-, -, batches, hjournal, hflatten⟩ := Faulty.wrote_store hwrote
    intro batch hbatch p hp heq
    rw [hjournal] at hbatch
    cases List.mem_append.1 hbatch with
    | inl hbatch => exact hs.journal batch hbatch p hp heq
    | inr hbatch =>
      have hmem : p ∈ qs := hflatten ▸ List.mem_flatten.2 ⟨batch, hbatch, hp⟩
      rcases hqs p hmem with ⟨x, rfl⟩ | ⟨x, hx, rfl⟩
      · exact secureKey_ne_bytes x.1 Hash.zero heq
      · have hzero : x.1 = Hash.zero := Hash.ext heq
        exact hs.wellFormed.zero_not_mem (hzero ▸ Table.mem_iff_getElem?.2 ⟨x.2, hx⟩)

theorem InStagingOrder.runAll {staged : List Hash} {db : Database (Faulty σ)} (hs : InStagingOrder staged db)
    (cs : List (Option Nat × Command)) : InStagingOrder (staged ++ db.stagings cs) (db.runAll cs) := by
  induction cs generalizing staged db with
  | nil => rwa [Database.stagings, List.append_nil]
  | cons step rest ih =>
    obtain ⟨writes, c⟩ := step
    rw [Database.stagings, ← List.append_assoc]
    exact ih (hs.run writes c)

/-- **The staged nodes are a doubly linked list in the order in which they were
staged, and the meta-root stays apart from it**, after any commands over any store,
whichever of their writes fail. -/
theorem flush_list_faithful (disk : σ) (config : Config) (hv : config.Valid) (cs : List (Option Nat × Command)) :
    let start := Database.ofValid (Faulty.reliable disk) config hv
    (start.runAll cs).buffer.FlushList (start.stagings cs) ∧ Buffer.MetaRootApart (start.runAll cs) ∧
      ∀ batch ∈ (start.runAll cs).disk.journal, ∀ p ∈ batch, p.key ≠ Hash.zero.bytes := by
  intro start
  have hstart : InStagingOrder [] start := ⟨.empty, rfl, by simp [start, Database.ofValid, Faulty.reliable]⟩
  have hs := hstart.runAll cs
  rw [List.nil_append] at hs
  exact ⟨.of_linked hs.wellFormed.linked hs.order, .of_wellFormed hs.wellFormed, hs.journal⟩

end Runs

/-- Two blobs, of which a cap evicts the older one. It is staged again. -/
def restagedBlob : List (Option Nat × Command) :=
  [(none, .insertBlob (.filled 1) [7]), (none, .insertBlob (.filled 2) [8]), (none, .cap (ByteSize.ofNat 300)),
    (none, .insertBlob (.filled 1) [7])]

/-- What was staged again stands at its last place. -/
theorem flush_list_faithful_restagedBlob :
    let db := (Database.new (.reliable MemoryStore.empty)).runAll restagedBlob
    db.buffer.FlushList [.filled 1, .filled 2, .filled 1] ∧ db.buffer.flushOrder = [.filled 2, .filled 1] := by
  intro db
  have hstagings : (Database.new (.reliable MemoryStore.empty)).stagings restagedBlob =
      [.filled 1, .filled 2, .filled 1] := by decide +kernel
  obtain ⟨hlist, -⟩ := flush_list_faithful MemoryStore.empty Config.standard Config.valid_standard restagedBlob
  have hlist' : db.buffer.FlushList [.filled 1, .filled 2, .filled 1] := hstagings ▸ hlist
  have hboth : db.buffer.table.contains (.filled 1) = true ∧ db.buffer.table.contains (.filled 2) = true := by
    decide +kernel
  refine ⟨hlist', ?_⟩
  rw [hlist'.order]
  have hdedup : [Hash.filled 1, .filled 2, .filled 1].dedup = [.filled 2, .filled 1] := by decide
  rw [hdedup, List.filter_cons_of_pos hboth.2, List.filter_cons_of_pos hboth.1, List.filter_nil]

end MerkleBuffer
