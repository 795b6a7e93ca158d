/-
One attempt of a cap or a commit.

Both have puts to write (`Flush.puts`) and a buffer to arrive at (`Flush.settled`).
An attempt that succeeds has written all the puts and arrived there. An attempt
that fails has written some of them: the others are the puts of the next attempt,
and the buffer to arrive at is still the same (`Flush.failed`). And an attempt
succeeds if the store takes each of its puts (`Flush.run_ok`).
-/
import MerkleBuffer.Proofs.Buffer.Discards
import MerkleBuffer.Proofs.Buffer.Reach
import MerkleBuffer.Proofs.Database.Intact
import MerkleBuffer.Proofs.Store.Regular

namespace MerkleBuffer

theorem Outcome.eq_mk {σ α : Type} {r : Outcome σ α} {result : Except Error α} (h : r.1 = result) : r = (result, r.2) :=
  Prod.ext h rfl

/-- A call that moves nodes from the buffer to the store. -/
inductive Flush where
  | cap (limit : ByteSize)
  | commit (root : Hash)

namespace Flush

variable {σ : Type}

def command : Flush → Command
  | cap limit => .cap limit
  | commit root => .commit root

/-- The preimages that are to be written. -/
def preimages (f : Flush) (db : Database σ) : List (Hash × Bytes) :=
  match f with
  | cap limit => db.capPreimages limit
  | commit _ => db.buffer.preimages

/-- The nodes that are to be written. -/
def nodes (f : Flush) (db : Database σ) : List (Hash × Staged) :=
  match f with
  | cap limit => db.capNodes limit
  | commit root => db.buffer.subtree root

/-- All that is to be written, in order. -/
def puts (f : Flush) (db : Database σ) : List Put :=
  (f.preimages db).map Database.preimagePut ++ (f.nodes db).map Database.nodePut

/-- The buffer when everything is written. -/
def settled (f : Flush) (db : Database σ) : Buffer :=
  match f with
  | cap limit => db.capped limit
  | commit root => (db.buffer.discards (db.buffer.below root)).committed

/-- What is written, and what is left of the buffer, are about the buffer and the
settings alone. -/
theorem congr {db db' : Database σ} (f : Flush) (hbuffer : db'.buffer = db.buffer) (hconfig : db'.config = db.config) :
    f.puts db' = f.puts db ∧ f.settled db' = f.settled db := by
  cases f <;> simp [puts, preimages, nodes, settled, Database.capPreimages, Database.capNodes, Database.capped,
    Database.preimagesOverflow, hbuffer, hconfig]

theorem mem_puts {f : Flush} {db : Database σ} {p : Put} : p ∈ f.puts db ↔
    (∃ x ∈ f.preimages db, Database.preimagePut x = p) ∨ ∃ x ∈ f.nodes db, Database.nodePut x = p := by
  simp [puts]

theorem nodeHashes_preimagePuts (preimages : List (Hash × Bytes)) :
    nodeHashes (preimages.map Database.preimagePut) = [] := by
  refine nodeHashes_of_preimages fun p hp => ?_
  obtain ⟨x, -, rfl⟩ := List.mem_map.1 hp
  exact ⟨x, rfl⟩

theorem nodeHashes_puts (f : Flush) (db : Database σ) : nodeHashes (f.puts db) = (f.nodes db).map (·.1) := by
  rw [puts, nodeHashes_append, nodeHashes_preimagePuts, nodeHashes_nodePuts, List.nil_append]

theorem nodes_staged (f : Flush) {db : Database σ} (hw : db.buffer.WellFormed) :
    (∀ x ∈ f.nodes db, db.buffer.table[x.1]? = some x.2) ∧ ((f.nodes db).map (·.1)).Nodup := by
  cases f with
  | cap limit =>
    have hinitial := db.capNodes_initial limit
    have hsub := (hinitial.map (·.1)).sublist
    exact ⟨fun x hx => hw.linked.mem_inOrder (hinitial.subset hx), hsub.nodup hw.linked.nodup⟩
  | commit root => exact ⟨fun x hx => Buffer.subtree_entry hx, db.buffer.nodup_below root⟩

theorem preimages_subset (f : Flush) (db : Database σ) : f.preimages db ⊆ db.buffer.preimages := by
  cases f with
  | cap limit =>
    simp only [preimages, Database.capPreimages]
    split
    · simp
    · split <;> simp
  | commit root => exact List.Subset.refl _

theorem secureKey_inj {h k : Hash} (heq : secureKey h = secureKey k) : h = k :=
  Hash.ext (List.append_cancel_left heq)

/-- No key is written with two values: the keys of preimages are no hashes. -/
theorem agree_puts (f : Flush) {db : Database σ} (hw : db.buffer.WellFormed)
    (hnodup : (db.buffer.preimages.map (·.1)).Nodup) : Agree (f.puts db) := by
  have hnodes := (f.nodes_staged hw).2
  intro p hp q hq heq
  rw [mem_puts] at hp hq
  cases hp with
  | inl hp =>
    obtain ⟨x, hx, rfl⟩ := hp
    cases hq with
    | inl hq =>
      obtain ⟨y, hy, rfl⟩ := hq
      have hxy : x.1 = y.1 := secureKey_inj heq
      rw [List.inj_on_of_nodup_map hnodup (f.preimages_subset db hx) (f.preimages_subset db hy) hxy]
    | inr hq =>
      obtain ⟨y, -, rfl⟩ := hq
      exact absurd heq (secureKey_ne_bytes x.1 y.1)
  | inr hp =>
    obtain ⟨x, hx, rfl⟩ := hp
    cases hq with
    | inl hq =>
      obtain ⟨y, -, rfl⟩ := hq
      exact absurd heq.symm (secureKey_ne_bytes y.1 x.1)
    | inr hq =>
      obtain ⟨y, hy, rfl⟩ := hq
      have hxy : x.1 = y.1 := Hash.ext heq
      rw [List.inj_on_of_nodup_map hnodes hx hy hxy]

variable [KeyValueStore σ]

def run (f : Flush) (db : Database σ) : Outcome σ Unit :=
  match f with
  | cap limit => db.cap limit
  | commit root => db.commit root

/-- The meta-root cannot be committed. -/
theorem ne_of_succeeded {f : Flush} {db after : Database σ} (hok : f.run db = (.ok (), after)) :
    f ≠ commit Hash.zero := by
  intro hf
  subst hf
  have hrefused : (db.commit Hash.zero).1 = .error (.metaRoot .commit) := rfl
  have hrun : db.commit Hash.zero = (.ok (), after) := hok
  rw [hrun] at hrefused
  cases hrefused

theorem command_run (f : Flush) (db : Database σ) : f.command.run db = (f.run db).2 := by
  cases f <;> rfl

end Flush

/-! ## Attempts -/

namespace Buffer

variable {b : Buffer} {root : Hash}

/-- The puts of what is left of a subtree are those of a new walk. -/
theorem nodePuts_discards {gone left : List (Hash × Staged)} (hw : b.WellFormed)
    (hsub : b.subtree root = gone ++ left) (p : Put) :
    p ∈ ((b.discards (gone.map (·.1))).subtree root).map Database.nodePut ↔ p ∈ left.map Database.nodePut := by
  have hbelow : b.below root = gone.map (·.1) ++ left.map (·.1) := by
    rw [below, hsub, List.map_append]
  have hperm := below_discards hw hbelow
  have hr := (Remnant.discards hw.linked (gone.map (·.1))).1
  have hleft : ∀ y ∈ left, b.table[y.1]? = some y.2 := fun y hy => subtree_entry (hsub ▸ List.mem_append_right gone hy)
  -- a hash has one node, in the old walk and in the new one
  have hsame : ∀ x ∈ (b.discards (gone.map (·.1))).subtree root, ∀ y ∈ left, x.1 = y.1 →
      Database.nodePut x = Database.nodePut y := by
    intro x hx y hy hxy
    obtain ⟨e, he, hnode, -, -⟩ := hr.entry x.1 x.2 (subtree_entry hx)
    rw [hxy, hleft y hy] at he
    cases he
    simp [Database.nodePut, hxy, hnode]
  simp only [List.mem_map]
  constructor
  · intro h
    obtain ⟨x, hx, rfl⟩ := h
    obtain ⟨y, hy, hyx⟩ := List.mem_map.1 (hperm.subset (List.mem_map.2 ⟨x, hx, rfl⟩))
    exact ⟨y, hy, (hsame x hx y hy hyx.symm).symm⟩
  · intro h
    obtain ⟨y, hy, rfl⟩ := h
    obtain ⟨x, hx, hxy⟩ := List.mem_map.1 (hperm.symm.subset (List.mem_map.2 ⟨y, hy, rfl⟩))
    exact ⟨x, hx, hsame x hx y hy hxy⟩

end Buffer

namespace Flush

variable {σ : Type} [KeyValueStore σ] {f : Flush} {db after : Database σ} {e : Error}

/-- **Write before evict.** Whatever its outcome, an attempt has written some of its
puts, and the nodes that have left the buffer are among those written. If it
succeeds, it has written all of them and arrived at its buffer. -/
theorem spec (f : Flush) (db : Database σ) : ∃ (written : List Put) (gone : List (Hash × Staged)),
    Wrote db.disk written (f.run db).2.disk ∧ (∀ p ∈ written, p ∈ f.puts db) ∧
      (∀ x ∈ gone, x ∈ f.nodes db ∧ Database.nodePut x ∈ written) ∧
      Buffer.SameNodes (db.buffer.discards (gone.map (·.1))) (f.run db).2.buffer ∧
      ((f.run db).1 = .ok () → written = f.puts db ∧ (f.run db).2.buffer = f.settled db) := by
  cases f with
  | cap limit =>
    obtain ⟨written, rest, disk, hputs, hwrote, hcases⟩ := db.cap_outcome limit
    have hsub : ∀ p ∈ written, p ∈ (cap limit).puts db := fun p hp => by
      rw [puts, preimages, nodes, hputs]
      exact List.mem_append_left _ hp
    rw [run]
    rcases hcases with ⟨e, heq⟩ | ⟨hrest, heq⟩
    · rw [heq]
      exact ⟨written, [], hwrote, hsub, by simp, .refl _, by simp⟩
    · rw [hrest, List.append_nil] at hputs
      rw [heq]
      refine ⟨written, db.capNodes limit, hwrote, hsub, fun x hx => ⟨hx, ?_⟩, (db.capped_spec limit).1,
        fun _ => ⟨hputs.symm, rfl⟩⟩
      rw [← hputs]
      exact List.mem_append_right _ (List.mem_map.2 ⟨x, hx, rfl⟩)
  | commit root =>
    obtain ⟨written, rest, disk₁, gone, left, disk, cleans, hputs, hwrote, hsub, hwrote', -, hcases⟩ :=
      db.commit_outcome root
    refine ⟨written ++ gone.map Database.nodePut, gone, ?_, fun p hp => ?_, fun x hx => ⟨?_, ?_⟩, ?_, ?_⟩
    · rw [run]
      rcases hcases with ⟨e, heq⟩ | ⟨-, -, -, heq⟩ <;> rw [heq] <;> exact hwrote.trans hwrote'
    · simp only [puts, preimages, nodes, hputs, hsub, List.map_append, List.mem_append] at hp ⊢
      tauto
    · rw [nodes, hsub]
      exact List.mem_append_left _ hx
    · exact List.mem_append_right _ (List.mem_map.2 ⟨x, hx, rfl⟩)
    · rw [run]
      rcases hcases with ⟨e, heq⟩ | ⟨-, -, -, heq⟩ <;> rw [heq]
      · exact .refl _
      · exact ⟨rfl, rfl, rfl, rfl⟩
    · rw [run]
      rcases hcases with ⟨e, heq⟩ | ⟨-, hrest, hleft, heq⟩
      · simp [heq]
      · intro _
        rw [hrest, List.append_nil] at hputs
        rw [hleft, List.append_nil] at hsub
        rw [heq, puts, preimages, nodes, settled, Buffer.below, hputs, hsub]
        exact ⟨rfl, rfl⟩

/-- An attempt keeps the preimages, or forgets them all. -/
theorem preimages_run (f : Flush) (db : Database σ) :
    (f.run db).2.buffer.preimages = db.buffer.preimages ∨ (f.run db).2.buffer.preimages = [] := by
  cases f with
  | cap limit =>
    obtain ⟨_, _, disk, -, -, hcases⟩ := db.cap_outcome limit
    rw [run]
    rcases hcases with ⟨e, heq⟩ | ⟨-, heq⟩
    · exact .inl (by rw [heq])
    · rw [heq]
      exact (db.capped_spec limit).2.2
  | commit root =>
    obtain ⟨_, _, _, gone, _, disk, cleans, -, -, -, -, -, hcases⟩ := db.commit_outcome root
    rw [run]
    rcases hcases with ⟨e, heq⟩ | ⟨-, -, -, heq⟩
    · rw [heq]
      exact .inl (db.buffer.discards_frame _).2.2
    · exact .inr (by rw [heq]; rfl)

/-- **An attempt that succeeds** has written everything. -/
theorem succeeded (h : f.run db = (.ok (), after)) :
    Wrote db.disk (f.puts db) after.disk ∧ after.buffer = f.settled db := by
  obtain ⟨written, _, hwrote, -, -, -, hall⟩ := f.spec db
  rw [h] at hwrote hall
  obtain ⟨rfl, hbuffer⟩ := hall rfl
  exact ⟨hwrote, hbuffer⟩

/-- **An attempt that fails** has written some of the puts. The others are those of
the next attempt, which is to leave the same buffer. -/
theorem failed (hw : db.buffer.WellFormed) (h : f.run db = (.error e, after)) :
    ∃ written, Wrote db.disk written after.disk ∧ (∀ p, p ∈ f.puts db ↔ p ∈ written ∨ p ∈ f.puts after) ∧
      f.settled after = f.settled db ∧ after.buffer.WellFormed := by
  cases f with
  | cap limit =>
    obtain ⟨written, rest, disk, hputs, hwrote, hcases⟩ := db.cap_outcome limit
    have hrun : db.cap limit = (.error e, after) := h
    rw [hrun] at hcases
    rcases hcases with ⟨e', heq⟩ | ⟨-, heq⟩
    · obtain rfl := (Prod.mk.inj heq).2
      -- the buffer is as it was, so the next attempt writes all puts once more
      obtain ⟨hsame, hsettled⟩ := @congr σ db { db with disk } (cap limit) rfl rfl
      refine ⟨written, hwrote, fun p => ?_, hsettled, hw⟩
      rw [hsame]
      have hsub : p ∈ written → p ∈ (cap limit).puts db := by
        intro hp
        rw [puts, preimages, nodes, hputs]
        exact List.mem_append_left _ hp
      exact ⟨Or.inr, fun hor => hor.elim hsub id⟩
    · cases heq
  | commit root =>
    obtain ⟨written, rest, disk₁, gone, left, disk, cleans, hputs, hwrote, hsub, hwrote', -, hcases⟩ :=
      db.commit_outcome root
    have hrun : db.commit root = (.error e, after) := h
    rw [hrun] at hcases
    rcases hcases with ⟨e', heq⟩ | ⟨-, -, -, heq⟩
    · obtain rfl := (Prod.mk.inj heq).2
      have hbelow : db.buffer.below root = gone.map (·.1) ++ left.map (·.1) := by
        rw [Buffer.below, hsub, List.map_append]
      have hperm := Buffer.below_discards hw hbelow
      refine ⟨written ++ gone.map Database.nodePut, hwrote.trans hwrote', fun p => ?_, ?_, hw.discards _⟩
      · have hpre : (db.buffer.discards (gone.map (·.1))).preimages = db.buffer.preimages :=
          (db.buffer.discards_frame _).2.2
        have hnodes := Buffer.nodePuts_discards hw hsub p
        simp only [puts, preimages, nodes, hpre, hputs, hsub, List.map_append, List.mem_append, hnodes]
        tauto
      · have hl := (Buffer.Remnant.discards hw.linked (gone.map (·.1))).2
        have hgone : (db.buffer.discards (gone.map (·.1))).discards
            ((db.buffer.discards (gone.map (·.1))).below root) = db.buffer.discards (db.buffer.below root) := by
          rw [Buffer.discards_perm hl hperm, hbelow, Buffer.discards_append]
        simp only [settled, hgone]
    · cases heq

end Flush

/-! ## Attempts that meet no failure -/

section Ready

variable {σ : Type}

theorem Database.settleNodes_disk (puts : List Put) (db : Database σ) : (settleNodes puts db).disk = db.disk := by
  induction puts generalizing db with
  | nil => rfl
  | cons p rest ih =>
    have hnode : (settleNode db p).disk = db.disk := by
      unfold settleNode
      split
      · rfl
      · split <;> rfl
    exact (ih (settleNode db p)).trans hnode

variable [KeyValueStore σ] [LawfulStore σ] [RegularStore σ]

/-- A store that fails no more, and takes these puts: each of them fits, or its key
is stored already. -/
structure Ready (s : Faulty σ) (qs : List Put) : Prop where
  writesLeft : s.writesLeft = none
  failPuts : s.failPuts = false
  takes : ∃ ps, LawfulStore.Holds s.store ps ∧ ∀ q ∈ qs, RegularStore.Fits σ q ∨ ∃ p ∈ ps, p.key = q.key

namespace Ready

variable {s : Faulty σ} {qs rest : List Put}

theorem accept (hs : Ready s qs) : KeyValueStore.accept s = .ok () := by
  simp only [KeyValueStore.accept, hs.failPuts]
  exact RegularStore.accepts s.store

theorem write (hs : Ready s (qs ++ rest)) : ∃ t, KeyValueStore.write s qs = .ok t ∧ Ready t rest := by
  obtain ⟨ps, hps, htakes⟩ := hs.takes
  obtain ⟨t, ht⟩ := RegularStore.write_ok hps fun q hq => htakes q (List.mem_append_left rest hq)
  let journal := if qs.isEmpty then s.journal else s.journal ++ [qs]
  have hw : KeyValueStore.write s qs = .ok { s with store := t, writesLeft := none, journal } := by
    simp [KeyValueStore.write, hs.writesLeft, ht, Faulty.spend, journal]
  refine ⟨_, hw, rfl, hs.failPuts, ps ++ qs, LawfulStore.holds_write hps ht, fun q hq => ?_⟩
  refine (htakes q (List.mem_append_right qs hq)).imp_right fun h => ?_
  obtain ⟨p, hp, hkey⟩ := h
  exact ⟨p, List.mem_append_left qs hp, hkey⟩

theorem writeAll (settle : Database.Settle (Faulty σ)) (hsettle : ∀ puts db, (settle puts db).disk = db.disk)
    {db : Database (Faulty σ)} (hs : Ready db.disk (qs ++ rest)) :
    ∃ after, Database.writeAll settle db Batch.empty qs = (.ok (), after) ∧ Ready after.disk rest := by
  refine Database.writeAll_ok (I := fun qs db => Ready db.disk (qs ++ rest)) (fun qs db h => h.accept)
    (fun batch qs db h => ?_) hs
  rw [List.append_assoc] at h
  obtain ⟨t, ht, hnext⟩ := h.write
  refine ⟨t, ht, ?_⟩
  rw [hsettle]
  exact hnext

end Ready

namespace Flush

variable {f : Flush} {db : Database (Faulty σ)}

/-- **An attempt succeeds** if the store takes all of its puts. The meta-root cannot
be committed. -/
theorem run_ok (hf : f ≠ commit Hash.zero) (hs : Ready db.disk (f.puts db)) : ∃ after, f.run db = (.ok (), after) := by
  cases f with
  | cap limit =>
    by_cases hfits : db.buffer.residentSize ≤ limit
    · exact ⟨db, by simp only [run, Database.cap, if_pos hfits]⟩
    · simp only [puts, preimages, nodes, Database.capPreimages, Database.capNodes, if_neg hfits] at hs
      simp only [run, Database.cap, if_neg hfits]
      rw [← List.append_nil (List.map _ _ ++ _)] at hs
      obtain ⟨stored, hwrite, -⟩ := hs.writeAll Database.Settle.nothing fun _ _ => rfl
      rw [hwrite]
      exact ⟨_, rfl⟩
  | commit root =>
    have hroot : ¬ root.isZero = true := fun hz => hf (by rw [Hash.isZero_iff.1 hz])
    obtain ⟨stored, hwrite, hnodes⟩ := hs.writeAll Database.Settle.nothing fun _ _ => rfl
    obtain ⟨-, -, disk, -, -, hstored, -⟩ :=
      Database.writeAll_nothing_spec db (db.buffer.preimages.map Database.preimagePut)
    simp only [preimages] at hwrite
    rw [hwrite] at hstored
    obtain rfl : stored = { db with disk } := hstored
    rw [← List.append_nil (List.map _ _)] at hnodes
    obtain ⟨after, hwrite', -⟩ := hnodes.writeAll Database.settleNodes Database.settleNodes_disk
    simp only [nodes] at hwrite'
    simp [run, Database.commit, hroot, hwrite, hwrite']

end Flush

end Ready

end MerkleBuffer
