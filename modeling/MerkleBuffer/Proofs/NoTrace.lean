/-
Staging a trie and releasing it leaves no trace.

The nodes of a trie come in with children before parents, so those of them that are new
lie on top of what was staged before. A dereference of the root then takes back the new
nodes, and whatever they had counted on the old ones, but for what the statistics say
about collected nodes.
-/
import Mathlib
import MerkleBuffer.Proofs.Buffer.OnTop
import MerkleBuffer.Proofs.Database.Runs
import MerkleBuffer.Proofs.ExactCollection
import MerkleBuffer.Store.Memory

namespace MerkleBuffer

namespace Buffer

open Relation (ReflTransGen)

variable {b : Buffer} {root : Hash} {nodes : List (Hash × Nat × Node)}

/-- The nodes of a trie in the order in which they are to be staged: a hash comes once, and
no node points to itself or to one that comes after it. All of them can be reached from
the root, from one staged node to the next. Some may be staged already, but not the root.
Nothing points to one that is not, and no pin holds it. -/
structure TrieOver (b : Buffer) (root : Hash) (nodes : List (Hash × Nat × Node)) : Prop where
  nodup : (nodes.map (·.1)).Nodup
  zero_not_mem : Hash.zero ∉ nodes.map (·.1)
  childrenFirst : nodes.Pairwise fun x y => y.1 ∉ x.2.2.kids
  loopless : ∀ x ∈ nodes, x.1 ∉ x.2.2.kids
  root_mem : root ∈ nodes.map (·.1)
  root_new : root ∉ b.table
  reachable : ∀ x ∈ nodes, ReflTransGen (b.stageAll nodes).Points root x.1
  unreferenced : ∀ x ∈ nodes, x.1 ∉ b.table → ∀ p, x.1 ∉ b.refs p
  unpinned : ∀ x ∈ nodes, x.1 ∉ b.table → x.1 ∉ b.pins

namespace TrieOver

theorem onTop (ht : TrieOver b root nodes) : OnTop b (b.newOf nodes) := by
  have hsub : (b.newOf nodes).Sublist nodes := List.filter_sublist
  refine ⟨ht.nodup.sublist (hsub.map _), fun x hx => (mem_newOf.1 hx).2, fun x hx => ?_, ht.childrenFirst.sublist hsub,
    fun x hx => ht.loopless x (hsub.subset hx)⟩
  obtain ⟨hmem, hnew⟩ := mem_newOf.1 hx
  rw [held, edgesTo_eq_zero.2 (ht.unreferenced x hmem hnew), if_neg (ht.unpinned x hmem hnew)]

theorem root_mem_newOf (ht : TrieOver b root nodes) : root ∈ (b.newOf nodes).map (·.1) := by
  obtain ⟨x, hx, rfl⟩ := List.mem_map.1 ht.root_mem
  exact List.mem_map_of_mem (mem_newOf.2 ⟨hx, ht.root_new⟩)

theorem root_ne_zero (ht : TrieOver b root nodes) : root ≠ Hash.zero := by
  intro heq
  exact ht.zero_not_mem (heq ▸ ht.root_mem)

end TrieOver

end Buffer

namespace Database

variable {σ : Type} [KeyValueStore σ] {db : Database σ} {root : Hash} {nodes : List (Hash × Nat × Node)}

/-- The database after some commands, whatever their outcomes. -/
def runEach (db : Database σ) (cs : List Command) : Database σ := cs.foldl (fun db c => c.run db) db

theorem runEach_append (db : Database σ) (cs cs' : List Command) :
    db.runEach (cs ++ cs') = (db.runEach cs).runEach cs' := List.foldl_append

/-- Commands that stage nodes do just that. -/
theorem runEach_staging (hz : Hash.zero ∉ nodes.map (·.1)) {cs : List Command}
    (hcs : cs.map Command.staging? = nodes.map some) :
    db.runEach cs = { db with buffer := db.buffer.stageAll nodes } := by
  induction nodes generalizing cs db with
  | nil =>
    obtain rfl := List.map_eq_nil_iff.1 hcs
    rfl
  | cons x rest ih =>
    obtain ⟨c, cs, rfl, hc, hcs⟩ := List.map_eq_cons_iff.1 hcs
    obtain ⟨hx, hrest⟩ := not_or.1 (mt List.mem_cons.2 hz)
    have hrun : c.run db = { db with buffer := db.buffer.insert x.1 x.2.1 x.2.2 } := by
      rw [run_staging hc, if_neg (Ne.symm hx)]
    show (c.run db).runEach cs = _
    rw [hrun, ih hrest hcs, Buffer.stageAll_cons]

/-- A staged node is pinned once, however often this is asked for. -/
theorem runEach_pin (hz : root ≠ Hash.zero) (hmem : root ∈ db.buffer.table) {n : Nat} (hn : 0 < n) :
    db.runEach (List.replicate n (.reference root Hash.zero)) = { db with buffer := db.buffer.pin root } := by
  have hrun : ∀ db' : Database σ, root ∈ db'.buffer.table →
      (Command.reference root Hash.zero).run db' = { db' with buffer := db'.buffer.pin root } := by
    intro db' hmem'
    have hzero : root.isZero = false := Bool.eq_false_iff.2 (mt Hash.isZero_iff.1 hz)
    have hself : Hash.zero.isZero = true := by decide
    simp [Command.run, reference, Buffer.reference, hzero, hself, hz, hmem']
  have hpinned : root ∈ (db.buffer.pin root).pins := by
    unfold Buffer.pin
    split
    · exact ‹_›
    · exact List.mem_append_right _ List.mem_cons_self
  have hstays : root ∈ (db.buffer.pin root).table := by
    unfold Buffer.pin
    split
    · exact hmem
    · exact Std.ExtTreeMap.mem_modify.2 hmem
  have hagain : (db.buffer.pin root).pin root = db.buffer.pin root := by
    rw [Buffer.pin, if_pos hpinned]
  obtain ⟨m, rfl⟩ := Nat.exists_eq_succ_of_ne_zero hn.ne'
  clear hn
  induction m with
  | zero => exact hrun db hmem
  | succ m ih =>
    rw [List.replicate_succ', runEach_append, ih]
    show (Command.reference root Hash.zero).run { db with buffer := db.buffer.pin root } = _
    rw [hrun _ hstays, hagain]

end Database

/-- **Staging a trie and releasing it leaves no trace.** In a well-formed state with exact
counts, in which every staged node has a parent, let a trie be staged with children before
parents, its root be pinned any number of times, and dereferenced once. Then the database
is what it was, but that the nodes which were new count as collected, with the bytes of
their encodings and hashes. Counts have to stay below 2^32 in the meantime. The two totals
of bytes are counters of 64 bits: one that stopped at its largest value on the way, and
only such a one, may come back with less. -/
theorem staging_leaves_no_trace {σ : Type} [KeyValueStore σ] {db : Database σ} (hw : db.buffer.WellFormed)
    (hx : db.buffer.CountsExact) (hheld : ∀ h ∈ db.buffer.staged, 0 < db.buffer.parentsOf h) {root : Hash}
    {nodes : List (Hash × Nat × Node)} (ht : Buffer.TrieOver db.buffer root nodes)
    (hcounts : ∀ h ∈ (db.buffer.stageAll nodes).staged, ((db.buffer.stageAll nodes).pin root).held h < 2 ^ 32)
    {cs : List Command} (hcs : cs.map Command.staging? = nodes.map some) {n : Nat} (hn : 0 < n) :
    let new := db.buffer.newOf nodes
    ∃ payloadSize edgesSize : ByteSize,
      db.runEach (cs ++ List.replicate n (.reference root Hash.zero) ++ [.dereference root]) =
          { db with buffer := { db.buffer with
            payloadSize, edgesSize
            stats := { db.buffer.stats with
              gcNodes := db.buffer.stats.gcNodes + new.length
              gcSize := db.buffer.stats.gcSize + ByteSize.ofNat (Buffer.payloadOf new) } } } ∧
        (db.buffer.payloadSize.bytes + Buffer.payloadOf new < 2 ^ 64 → payloadSize = db.buffer.payloadSize) ∧
        (db.buffer.edgesSize.bytes + Staged.edgeSize < 2 ^ 64 → edgesSize = db.buffer.edgesSize) := by
  intro new
  have ho := ht.onTop
  have hstage : db.buffer.stageAll nodes = db.buffer.stageAll new := Buffer.stageAll_newOf ht.nodup
  have hreach := ht.reachable
  rw [hstage] at hcounts hreach
  have hmem : root ∈ (db.buffer.stageAll new).table := ho.mem_stageAll.2 (.inr ht.root_mem_newOf)
  have hrestored := ho.dereference hw.linked ((Buffer.countsExact_iff hw).1 hx)
    (fun k hk => hheld k (Buffer.mem_staged.2 hk)) ht.root_mem_newOf
    (fun x hx => hreach x (Buffer.mem_newOf.1 hx).1) (fun k hk => hcounts k (Buffer.mem_staged.2 hk))
  have hzero : ¬ root.isZero = true := fun hz => ht.root_ne_zero (Hash.isZero_iff.1 hz)
  refine ⟨_, _, ?_, ByteSize.add_sub_ofNat, ByteSize.add_sub_ofNat⟩
  calc db.runEach (cs ++ List.replicate n (.reference root Hash.zero) ++ [.dereference root])
    _ = (Command.dereference root).run { db with buffer := (db.buffer.stageAll new).pin root } := by
        rw [Database.runEach_append, Database.runEach_append, Database.runEach_staging ht.zero_not_mem hcs, hstage,
          Database.runEach_pin ht.root_ne_zero hmem hn]
        rfl
    _ = { db with buffer := ((db.buffer.stageAll new).pin root).dereference root } := by
        rw [Command.run, Database.dereference, if_neg hzero]
    _ = _ := by rw [hrestored]

/-- A pinned extension over a blob that it holds explicitly as well. -/
def pinnedExtension : List (Option Nat × Command) :=
  [(none, .insertBlob (.filled 1) [7]), (none, .insert (.filled 2) [8, 9] (.trie (.extension [] (.filled 1)))),
    (none, .reference (.filled 1) (.filled 2)), (none, .reference (.filled 2) Hash.zero)]

/-- A trie over it: a new blob, the old extension once more, a branch that holds the blob
twice and the extension and the old blob once, and a root. -/
def overExtension : List Command :=
  [.insertBlob (.filled 3) [5, 5], .insert (.filled 2) [8, 9] (.trie (.extension [] (.filled 1))),
    .insert (.filled 4) [1, 2, 3] (.trie (((((TrieNode.bareBranch []).withChild 0 (.hash (.filled 3))).withChild 1
      (.hash (.filled 3))).withChild 2 (.hash (.filled 2))).withChild 3 (.hash (.filled 1)))),
    .insert (.filled 5) [4] (.trie (.extension [] (.filled 4)))]

/-- The three new nodes go, with the six bytes of their encodings. -/
theorem staging_leaves_no_trace_overExtension :
    let db := (Database.new (.reliable MemoryStore.empty)).runAll pinnedExtension
    let after := db.runEach (overExtension ++ [.reference (.filled 5) Hash.zero, .reference (.filled 5) Hash.zero] ++
      [.dereference (.filled 5)])
    after = { db with buffer := { db.buffer with stats := { db.buffer.stats with
      gcNodes := 3
      gcSize := ByteSize.ofNat (3 * 32 + 6) } } } ∧
      db.buffer.parentsOf (.filled 1) = 2 ∧ db.buffer.parentsOf (.filled 2) = 1 := by
  intro db after
  have hall : AllAllowed (fun _ _ => True) (Database.new (.reliable MemoryStore.empty)) pinnedExtension := by
    simp [AllAllowed, pinnedExtension]
  have hw : db.buffer.WellFormed := (Reachable.start.runAll hall).wellFormed .empty
  have hx : db.buffer.CountsExact := by
    unfold Buffer.CountsExact
    decide +kernel
  let nodes := overExtension.filterMap Command.staging?
  have hbranch : Relation.ReflTransGen (db.buffer.stageAll nodes).Points (.filled 5) (.filled 4) :=
    .single ⟨by decide +kernel, by decide +kernel⟩
  have hreach : ∀ h ∈ [Hash.filled 3, .filled 2, .filled 4, .filled 5],
      Relation.ReflTransGen (db.buffer.stageAll nodes).Points (.filled 5) h := by
    refine List.forall_mem_cons.2 ⟨hbranch.tail ⟨by decide +kernel, by decide +kernel⟩, ?_⟩
    refine List.forall_mem_cons.2 ⟨hbranch.tail ⟨by decide +kernel, by decide +kernel⟩, ?_⟩
    exact List.forall_mem_cons.2 ⟨hbranch, List.forall_mem_singleton.2 .refl⟩
  have hrefs : ∀ p ∈ db.buffer.staged, ∀ x ∈ nodes, x.1 ∉ db.buffer.table → x.1 ∉ db.buffer.refs p := by
    decide +kernel
  have ht : Buffer.TrieOver db.buffer (.filled 5) nodes := by
    refine ⟨by decide +kernel, by decide +kernel, by decide +kernel, by decide +kernel, by decide +kernel,
      by decide +kernel, fun x hx => hreach x.1 (List.mem_map_of_mem hx), fun x hx hnew p hp => ?_, by decide +kernel⟩
    exact hrefs p (Buffer.mem_staged.2 (Buffer.mem_of_mem_refs hp)) x hx hnew hp
  have hstaging : overExtension.map Command.staging? = nodes.map some := by decide +kernel
  obtain ⟨payloadSize, edgesSize, hsame, hpayload, hedges⟩ := staging_leaves_no_trace hw hx (by decide +kernel) ht
    (by decide +kernel) hstaging (n := 2) (by decide)
  obtain rfl := hpayload (by decide +kernel)
  obtain rfl := hedges (by decide +kernel)
  refine ⟨hsame.trans ?_, by decide +kernel, by decide +kernel⟩
  have hlength : (db.buffer.newOf nodes).length = 3 := by decide +kernel
  have hbytes : Buffer.payloadOf (db.buffer.newOf nodes) = 3 * 32 + 6 := by decide +kernel
  have hnone : db.buffer.stats.gcNodes = 0 ∧ db.buffer.stats.gcSize = ByteSize.zero := by decide +kernel
  rw [hlength, hbytes, hnone.1, hnone.2]
  rfl

end MerkleBuffer
