/-
Runs of a database.

A command is one call of the database; before each, the store is told how many
writes still succeed, so that any write of any command can fail. `run_effect`
says once what a command can do to the buffer. Invariants of the buffer are
proved over its cases and hold in every state that a run reaches.
-/
import MerkleBuffer.Database.Lookup
import MerkleBuffer.Store.Faulty
import MerkleBuffer.Proofs.Database.Writes

namespace MerkleBuffer

/-- A call that stages, counts, writes or reads. -/
inductive Command where
  | insert (h : Hash) (blob : Bytes) (node : Node)
  | insertBlob (h : Hash) (blob : Bytes)
  | insertNode (node : TrieNode)
  | insertPreimage (h : Hash) (preimage : Bytes)
  | reference (child parent : Hash)
  | dereference (root : Hash)
  | cap (limit : ByteSize)
  | commit (root : Hash)
  | lookup (h : Hash)
  | lookupTrieNode (h : Hash)

namespace Command

/-- What a command stages: a hash, the bytes it is charged for, and the node. -/
def staging? : Command → Option (Hash × Nat × Node)
  | insert h blob node => some (h, blob.length, node)
  | insertBlob h blob => some (h, blob.length, .raw blob)
  | insertNode node => some (node.hash, node.encode.length, .trie node)
  | _ => none

/-- The database after a command, whatever its outcome. -/
def run {σ : Type} [KeyValueStore σ] (c : Command) (db : Database σ) : Database σ :=
  match c with
  | insert h blob node => (db.insert h blob node).2
  | insertBlob h blob => (db.insertBlob h blob).2
  | insertNode node => (db.insertNode node).2
  | insertPreimage h preimage => db.insertPreimage h preimage
  | reference child parent => (db.reference child parent).2
  | dereference root => (db.dereference root).2
  | cap limit => (db.cap limit).2
  | commit root => (db.commit root).2
  | lookup h => (db.node h).2
  | lookupTrieNode h => (db.trieNode h).2

end Command

/-- The hash of 32 equal bytes. -/
def Hash.filled (x : UInt8) : Hash := ⟨List.replicate 32 x, List.length_replicate⟩

theorem Hash.isZero_iff {h : Hash} : h.isZero = true ↔ h = Hash.zero := beq_iff_eq

namespace Buffer

/-- What a command can do to a buffer: nothing to its nodes, one node or edge
more, one pin less, or some of its nodes dropped, the oldest ones or the first
of a subtree. -/
inductive Effect (b : Buffer) : Command → Buffer → Prop
  | same {c : Command} {b' : Buffer} (hclamped : b'.stats.clampedDereferences = b.stats.clampedDereferences)
      (hsame : SameNodes b b') : Effect b c b'
  | insert {c : Command} {h : Hash} {size : Nat} {node : Node} (hc : c.staging? = some (h, size, node))
      (hz : h ≠ Hash.zero) (hh : h ∉ b.table) : Effect b c (b.insert h size node)
  | reference {child parent : Hash} (hz : child ≠ Hash.zero) :
      Effect b (.reference child parent) (b.reference child parent)
  | dereference {root : Hash} (hz : root ≠ Hash.zero) : Effect b (.dereference root) (b.dereference root)
  | cap {limit : ByteSize} {hs : List Hash} {b' : Buffer} (holdest : hs <+: b.flushOrder)
      (hclamped : b'.stats.clampedDereferences = b.stats.clampedDereferences)
      (hsame : SameNodes (b.discards hs) b') :
      Effect b (.cap limit) b'
  | commit {root : Hash} {hs : List Hash} {b' : Buffer} (hfirst : hs <+: (b.subtree root).map (·.1))
      (hclamped : b'.stats.clampedDereferences = b.stats.clampedDereferences)
      (hsame : SameNodes (b.discards hs) b') :
      Effect b (.commit root) b'

end Buffer

section Effects

variable {σ : Type}

theorem Config.cleanCache_all (config : Config) (V : Hash → Bytes → Prop) : ∀ c ∈ config.cleanCache, c.All V := by
  intro c hc
  unfold Config.cleanCache at hc
  split at hc
  · cases hc
  · cases hc
    exact .empty _ _

/-- A lookup changes the clean cache alone, and what enters it was in it before
or is what the store holds. -/
theorem Database.cached?_spec {db after : Database σ} {h : Hash} {encoded : Bytes}
    (hc : db.cached? h = some (encoded, after)) :
    ∃ cleans, after = { db with cleans } ∧
      ∀ V, (∀ c ∈ db.cleans, c.All V) → V h encoded ∧ ∀ c ∈ cleans, c.All V := by
  unfold cached? at hc
  split at hc
  · cases hc
  · next cleans hcleans =>
    split at hc
    · cases hc
    · next found used hget =>
      obtain ⟨rfl, rfl⟩ := Prod.mk.inj (Option.some.inj hc)
      obtain ⟨hfind, rfl⟩ := Prod.mk.inj hget
      refine ⟨_, rfl, fun V hall => ?_⟩
      have hV := hall cleans hcleans
      exact ⟨hV.find? hfind, fun c hmem => by cases hmem; exact hV.get h⟩

variable [KeyValueStore σ]

theorem run_staging {c : Command} {h : Hash} {size : Nat} {node : Node} (hc : c.staging? = some (h, size, node))
    (db : Database σ) :
    c.run db = if h = Hash.zero then db else { db with buffer := db.buffer.insert h size node } := by
  cases c <;> simp only [Command.staging?, Option.some.injEq, Prod.mk.injEq, reduceCtorEq] at hc <;>
    obtain ⟨rfl, rfl, rfl⟩ := hc
  · simp only [Command.run, Database.insert, Hash.isZero_iff]
    split <;> rfl
  · simp only [Command.run, Database.insertBlob, Database.insert, Hash.isZero_iff]
    split <;> rfl
  · simp only [Command.run, Database.insertNode, Database.insert, Hash.isZero_iff]
    split
    · next heq => split at heq <;> cases heq; rw [if_pos ‹_›]
    · next heq => split at heq <;> cases heq; rw [if_neg ‹_›]

theorem Database.load_spec (db : Database σ) (h : Hash) :
    ∃ cleans, (db.load h).2 = { db with cleans } ∧
      ∀ V : Hash → Bytes → Prop, (∀ v, KeyValueStore.get db.disk h.bytes = .ok (some v) → V h v) →
        (∀ c ∈ db.cleans, c.All V) → ∀ c ∈ cleans, c.All V := by
  unfold load
  split
  · exact ⟨db.cleans, rfl, fun _ _ hall => hall⟩
  · exact ⟨db.cleans, rfl, fun _ _ hall => hall⟩
  · next encoded hget =>
    refine ⟨_, rfl, fun V hV hall c hc => ?_⟩
    obtain ⟨c', hc', rfl⟩ := Option.mem_map.1 hc
    exact (hall c' hc').set (hV encoded hget)

/-- **What a lookup does.** -/
theorem run_lookup (c : Command) (h : Hash) (hc : c = .lookup h ∨ c = .lookupTrieNode h) (db : Database σ) :
    ∃ cleans, c.run db = { db with cleans } ∧
      ∀ V : Hash → Bytes → Prop, (∀ v, KeyValueStore.get db.disk h.bytes = .ok (some v) → V h v) →
        (∀ c ∈ db.cleans, c.All V) → ∀ c ∈ cleans, c.All V := by
  rcases hc with rfl | rfl
  · unfold Command.run Database.node
    dsimp only
    split
    · exact ⟨db.cleans, rfl, fun _ _ hall => hall⟩
    split
    · next hcached =>
      obtain ⟨cleans, heq, hall⟩ := Database.cached?_spec hcached
      exact ⟨cleans, heq, fun V _ hcleans => (hall V hcleans).2⟩
    · split
      · exact ⟨db.cleans, rfl, fun _ _ hall => hall⟩
      · exact db.load_spec h
  · unfold Command.run Database.trieNode
    dsimp only
    split
    · exact ⟨db.cleans, rfl, fun _ _ hall => hall⟩
    split
    · next hcached =>
      obtain ⟨cleans, heq, hall⟩ := Database.cached?_spec hcached
      exact ⟨cleans, heq, fun V _ hcleans => (hall V hcleans).2⟩
    · split
      · exact ⟨db.cleans, rfl, fun _ _ hall => hall⟩
      · have hload := db.load_spec h
        split
        · next heq => rwa [heq] at hload
        · next heq => rwa [heq] at hload

/-- **All that a command can do to the buffer.** -/
theorem run_effect (c : Command) (db : Database σ) : Buffer.Effect db.buffer c (c.run db).buffer := by
  have hstaging : ∀ h size node, c.staging? = some (h, size, node) →
      Buffer.Effect db.buffer c (c.run db).buffer := by
    intro h size node hc
    rw [run_staging hc]
    split
    · exact .same rfl (.refl _)
    · next hz =>
      by_cases hh : h ∈ db.buffer.table
      · rw [Buffer.insert_of_mem hh]
        exact .same rfl (.refl _)
      · exact .insert hc hz hh
  have hlookup : ∀ h, c = .lookup h ∨ c = .lookupTrieNode h → Buffer.Effect db.buffer c (c.run db).buffer := by
    intro h hc
    obtain ⟨cleans, heq, -⟩ := run_lookup c h hc db
    rw [heq]
    exact .same rfl (.refl _)
  cases c with
  | insert h blob node => exact hstaging _ _ _ rfl
  | insertBlob h blob => exact hstaging _ _ _ rfl
  | insertNode node => exact hstaging _ _ _ rfl
  | insertPreimage h preimage =>
    refine .same ?_ (.insertPreimage ..)
    simp only [Command.run, Database.insertPreimage, Buffer.insertPreimage]
    split <;> rfl
  | reference child parent =>
    simp only [Command.run, Database.reference, Hash.isZero_iff]
    split
    · exact .same rfl (.refl _)
    · next hz => exact .reference hz
  | dereference root =>
    simp only [Command.run, Database.dereference, Hash.isZero_iff]
    split
    · exact .same rfl (.refl _)
    · next hz => exact .dereference hz
  | cap limit =>
    obtain ⟨_, nodes, _, _, disk, buffer, hinitial, -, -, heq, hclamped, hsame⟩ := db.cap_spec limit
    rw [Command.run, heq]
    rcases hsame with hsame | ⟨-, hsame⟩
    · exact .same hclamped hsame
    · exact .cap (hinitial.map _) hclamped hsame
  | commit root =>
    obtain ⟨_, _, gone, left, disk, buffer, cleans, -, -, hsub, -, heq, hclamped, hsame, -⟩ := db.commit_spec root
    rw [Command.run, heq]
    refine .commit ?_ hclamped hsame
    rw [hsub, List.map_append]
    exact List.prefix_append _ _
  | lookup h => exact hlookup h (.inl rfl)
  | lookupTrieNode h => exact hlookup h (.inr rfl)

end Effects

/-! ## Runs -/

section Runs

variable {σ : Type} [KeyValueStore σ]

/-- The database before its store has let through that many more writes; all, if
there is no number. -/
def Database.allowing (db : Database (Faulty σ)) (writes : Option Nat) : Database (Faulty σ) :=
  { db with disk := { db.disk with writesLeft := writes } }

/-- The states of runs from `start` in which each command was allowed where it
was given, and any write may have failed. -/
inductive Reachable (allowed : Database (Faulty σ) → Command → Prop) (start : Database (Faulty σ)) :
    Database (Faulty σ) → Prop
  | start : Reachable allowed start start
  | step {db : Database (Faulty σ)} (before : Reachable allowed start db) (writes : Option Nat) (c : Command)
      (hc : allowed (db.allowing writes) c) : Reachable allowed start (c.run (db.allowing writes))

/-- The database after a list of commands, each with the writes that succeed
from there on. -/
def Database.runAll (db : Database (Faulty σ)) : List (Option Nat × Command) → Database (Faulty σ)
  | [] => db
  | (writes, c) :: rest => (c.run (db.allowing writes)).runAll rest

/-- Each command of a list is allowed where it is given. -/
def AllAllowed (allowed : Database (Faulty σ) → Command → Prop) (db : Database (Faulty σ)) :
    List (Option Nat × Command) → Prop
  | [] => True
  | (writes, c) :: rest => allowed (db.allowing writes) c ∧ AllAllowed allowed (c.run (db.allowing writes)) rest

variable {allowed : Database (Faulty σ) → Command → Prop} {start db : Database (Faulty σ)}

theorem Reachable.runAll {cs : List (Option Nat × Command)} (hr : Reachable allowed start db)
    (hall : AllAllowed allowed db cs) : Reachable allowed start (db.runAll cs) := by
  induction cs generalizing db with
  | nil => exact hr
  | cons step rest ih => exact ih (hr.step step.1 step.2 hall.1) hall.2

/-- An invariant of the buffer that the effect of every allowed command keeps. -/
theorem Reachable.buffer {I : Buffer → Prop} (hr : Reachable allowed start db) (hstart : I start.buffer)
    (hstep : ∀ (db : Database (Faulty σ)) c, allowed db c → I db.buffer →
      Buffer.Effect db.buffer c (c.run db).buffer →
      I (c.run db).buffer) : I db.buffer := by
  induction hr with
  | start => exact hstart
  | step _ writes c hc ih => exact hstep _ c hc ih (run_effect c _)

end Runs

/-- Every effect keeps a buffer well-formed, whatever is allowed. -/
theorem Buffer.Effect.wellFormed {b b' : Buffer} {c : Command} (he : Effect b c b') (hw : b.WellFormed) :
    b'.WellFormed := by
  cases he with
  | same _ hsame => exact hsame.wellFormed hw
  | insert _ hz _ => exact hw.insert hz _ _
  | reference _ => exact hw.reference _ _
  | dereference _ => exact hw.dereference _
  | cap _ _ hsame => exact hsame.wellFormed (hw.discards _)
  | commit _ _ hsame => exact hsame.wellFormed (hw.discards _)

theorem Buffer.Effect.hasRoom {b b' : Buffer} {c : Command} (he : Effect b c b')
    (hc : (∃ limit, c = .cap limit) ∨ ∃ root, c = .commit root) : HasRoom b b' := by
  rcases hc with ⟨limit, rfl⟩ | ⟨root, rfl⟩
  · cases he with
    | same _ hsame => exact .discards [] hsame
    | insert hstaging _ _ => cases hstaging
    | cap _ _ hsame => exact .discards _ hsame
  · cases he with
    | same _ hsame => exact .discards [] hsame
    | insert hstaging _ _ => cases hstaging
    | commit _ _ hsame => exact .discards _ hsame

theorem Reachable.wellFormed {σ : Type} [KeyValueStore σ] {allowed : Database (Faulty σ) → Command → Prop}
    {start db : Database (Faulty σ)} (hr : Reachable allowed start db) (hw : start.buffer.WellFormed) :
    db.buffer.WellFormed :=
  hr.buffer hw fun _ _ _ hw he => he.wellFormed hw

end MerkleBuffer
