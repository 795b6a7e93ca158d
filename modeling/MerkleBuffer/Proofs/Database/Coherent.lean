/-
A clean cache that holds what the store holds.

`Coherent content first db`: every entry of the clean cache is the value that the store
answers with under its hash, and a staged node is either not stored or stored with the
same bytes. Lookups enter what they read, commits enter what they have just written,
and no command changes a value that is stored (`Coherent.run`). So a lookup answers as
if there was no cache (`Coherent.node`, `Coherent.trieNode`), also for a node that is
staged and cached at once.
-/
import MerkleBuffer.Proofs.Database.Recorded
import MerkleBuffer.Proofs.Store.Steady
import MerkleBuffer.Proofs.Trie.Codec

namespace MerkleBuffer

theorem CleanCache.All.imp {V W : Hash → Bytes → Prop} {c : CleanCache} (hc : c.All V)
    (h : ∀ key value, V key value → W key value) : c.All W :=
  fun s hs x hx => h x.1 x.2 (hc s hs x hx)

/-- A node that can be decoded again once it was encoded: its encoding is shorter than
2^64 bytes, as that of every node in memory is. -/
def Node.Fits : Node → Prop
  | .raw _ => True
  | .trie node => node.Fits

/-- A node that can be decoded again reads the same in both forms. -/
theorem Node.decoded_encode {node : Node} (h : node.Fits) :
    Database.decoded node.encode = node.toTrie.mapError .encoding := by
  cases node with
  | raw blob => rfl
  | trie node =>
    have hdecode : TrieNode.decode (Node.trie node).encode = .ok node := TrieNode.decode_encode h
    rw [Database.decoded, hdecode]
    rfl

/-- A database without its clean cache. -/
def Database.uncached {σ : Type} (db : Database σ) : Database σ := { db with cleans := none }

section Coherent

variable {σ : Type} [KeyValueStore σ]

/-- A store has no value under a hash yet, or the bytes that the hash stands for. -/
def StoredAs (content : Hash → Bytes) (s : σ) (h : Hash) : Prop :=
  KeyValueStore.get s h.bytes = .ok none ∨ KeyValueStore.get s h.bytes = .ok (some (content h))

/-- A command that stages under a hash the bytes that the hash stands for, where the
store had no other value for it at `first`. -/
def Command.Consistent (content : Hash → Bytes) (first : σ) (c : Command) : Prop :=
  ∀ h size node, c.staging? = some (h, size, node) → h ≠ Hash.zero →
    node.encode = content h ∧ node.Fits ∧ StoredAs content first h

/-- What a command writes to the store, and what it enters into the clean cache: nodes
that it has written, or values that it has read. -/
structure Stores (db : Database σ) (qs : List Put) (after : Database σ) : Prop where
  wrote : Wrote db.disk qs after.disk
  puts : ∀ q ∈ qs, (∃ x, q = Database.preimagePut x) ∨
    ∃ x : Hash × Staged, db.buffer.table[x.1]? = some x.2 ∧ q = Database.nodePut x
  cleans (V : Hash → Bytes → Prop) : (∀ x, Database.nodePut x ∈ qs → V x.1 x.2.node.encode) →
    (∀ h v, KeyValueStore.get db.disk h.bytes = .ok (some v) → V h v) →
    (∀ cleans ∈ db.cleans, cleans.All V) → ∀ cleans ∈ after.cleans, cleans.All V

theorem run_stores_of_cleans (c : Command) {db : Database σ} (hw : db.buffer.WellFormed)
    (hcleans : (c.run db).cleans = db.cleans) : ∃ qs, Stores db qs (c.run db) := by
  obtain ⟨qs, hwrote, hputs⟩ := run_wrote c hw
  exact ⟨qs, hwrote, hputs, fun V _ _ hall => by rwa [hcleans]⟩

theorem run_stores_of_lookup (c : Command) (h : Hash) (hc : c = .lookup h ∨ c = .lookupTrieNode h)
    (db : Database σ) : Stores db [] (c.run db) := by
  obtain ⟨cleans, heq, hall⟩ := run_lookup c h hc db
  rw [heq]
  exact ⟨.nothing, by simp, fun V _ hread => hall V (hread h)⟩

/-- **What a command stores**, whatever its outcome. -/
theorem run_stores (c : Command) {db : Database σ} (hw : db.buffer.WellFormed) : ∃ qs, Stores db qs (c.run db) := by
  have hstaging : ∀ h size node, c.staging? = some (h, size, node) → (c.run db).cleans = db.cleans := by
    intro h size node hc
    rw [run_staging hc]
    split <;> rfl
  cases c with
  | insert h blob node => exact run_stores_of_cleans _ hw (hstaging _ _ _ rfl)
  | insertBlob h blob => exact run_stores_of_cleans _ hw (hstaging _ _ _ rfl)
  | insertNode node => exact run_stores_of_cleans _ hw (hstaging _ _ _ rfl)
  | insertPreimage h preimage => exact run_stores_of_cleans _ hw rfl
  | lookup h => exact ⟨[], run_stores_of_lookup _ h (.inl rfl) db⟩
  | lookupTrieNode h => exact ⟨[], run_stores_of_lookup _ h (.inr rfl) db⟩
  | reference child parent =>
    refine run_stores_of_cleans _ hw ?_
    simp only [Command.run, Database.reference]
    split <;> rfl
  | dereference root =>
    refine run_stores_of_cleans _ hw ?_
    simp only [Command.run, Database.dereference]
    split <;> rfl
  | cap limit =>
    refine run_stores_of_cleans _ hw ?_
    obtain ⟨-, -, disk, -, -, ⟨e, heq⟩ | ⟨-, heq⟩⟩ := db.cap_outcome limit <;> rw [Command.run, heq]
  | commit root =>
    obtain ⟨written, disk₁, gone, left, disk, buffer, cleans, hpreimages, hwrote, hsub, hwrote', heq, -, -, hall, -⟩ :=
      db.commit_spec root
    rw [Command.run, heq]
    refine ⟨written ++ gone.map Database.nodePut, hwrote.trans hwrote', fun q hq => ?_, fun V hput _ hcleans => ?_⟩
    · refine (List.mem_append.1 hq).imp (hpreimages q) fun hq => ?_
      obtain ⟨x, hx, rfl⟩ := List.mem_map.1 hq
      exact ⟨x, Buffer.subtree_entry (hsub ▸ List.mem_append_left _ hx), rfl⟩
    · refine hall V (fun x hx => hput x ?_) hcleans
      exact List.mem_append_right _ (List.mem_map.2 ⟨x, hx, rfl⟩)

theorem Database.load_congr {db db' : Database σ} (hdisk : db'.disk = db.disk) (h : Hash) :
    (db'.load h).1 = (db.load h).1 := by
  rw [load, load, hdisk]
  split <;> rfl

theorem Database.load_uncached (db : Database σ) (h : Hash) : (db.uncached.load h).1 = (db.load h).1 :=
  load_congr (show db.uncached.disk = db.disk from rfl) h

variable [SteadyStore σ]

/-- A database whose clean cache holds what the store holds, since the store was
`first`. -/
structure Coherent (content : Hash → Bytes) (first : σ) (db : Database σ) : Prop where
  wellFormed : db.buffer.WellFormed
  sound : SteadyStore.Sound db.disk
  staged : ∀ (h : Hash) (e : Staged), db.buffer.table[h]? = some e →
    e.node.encode = content h ∧ e.node.Fits ∧ StoredAs content db.disk h
  kept : ∀ h, StoredAs content first h → StoredAs content db.disk h
  cached : ∀ cleans ∈ db.cleans, cleans.All fun h value => KeyValueStore.get db.disk h.bytes = .ok (some value)

namespace Coherent

variable {content : Hash → Bytes} {first : σ} {db : Database σ} {c : Command}

theorem start (hs : SteadyStore.Sound first) (config : Config) (hv : config.Valid) :
    Coherent content first (.ofValid first config hv) where
  wellFormed := .empty
  sound := hs
  staged h e he := by simp [Database.ofValid, Buffer.empty] at he
  kept _ hstored := hstored
  cached := config.cleanCache_all _

theorem get_of_put (hc : Coherent content first db) {qs : List Put} {after : Database σ} (hs : Stores db qs after)
    {h : Hash} (hput : ∃ q ∈ qs, q.key = h.bytes) :
    StoredAs content db.disk h ∧ KeyValueStore.get after.disk h.bytes = .ok (some (content h)) := by
  have hvalues : ∀ q ∈ qs, q.key = h.bytes → q.value = content h ∧ StoredAs content db.disk h := by
    intro q hq hkey
    rcases hs.puts q hq with ⟨x, rfl⟩ | ⟨⟨k, e⟩, he, rfl⟩
    · exact absurd hkey (secureKey_ne_bytes x.1 h)
    · obtain rfl : k = h := Hash.ext hkey
      obtain ⟨hencode, -, hstored⟩ := hc.staged k e he
      exact ⟨hencode, hstored⟩
  obtain ⟨q, hq, hkey⟩ := hput
  obtain ⟨hvalue, hstored⟩ := hvalues q hq hkey
  have hread := SteadyStore.get_of_wrote hc.sound hs.wrote hq
    (fun p hp heq => by rw [(hvalues p hp (heq.trans hkey)).1, hvalue]) (by rwa [hkey, hvalue])
  rw [hkey, hvalue] at hread
  exact ⟨hstored, hread⟩

/-- **No command changes a value that is stored.** -/
theorem get_stays (hc : Coherent content first db) {qs : List Put} {after : Database σ} (hs : Stores db qs after)
    {h : Hash} {v : Bytes} (hv : KeyValueStore.get db.disk h.bytes = .ok (some v)) :
    KeyValueStore.get after.disk h.bytes = .ok (some v) := by
  by_cases hput : ∃ q ∈ qs, q.key = h.bytes
  · obtain ⟨hstored, hget⟩ := hc.get_of_put hs hput
    rw [StoredAs, hv] at hstored
    rcases hstored with hnone | hsome
    · cases hnone
    · rwa [hsome]
  · rwa [SteadyStore.get_of_not_wrote hc.sound hs.wrote fun q hq hkey => hput ⟨q, hq, hkey⟩]

theorem storedAs_stays (hc : Coherent content first db) {qs : List Put} {after : Database σ} (hs : Stores db qs after)
    {h : Hash} (hh : StoredAs content db.disk h) : StoredAs content after.disk h := by
  by_cases hput : ∃ q ∈ qs, q.key = h.bytes
  · exact .inr (hc.get_of_put hs hput).2
  · rwa [StoredAs, SteadyStore.get_of_not_wrote hc.sound hs.wrote fun q hq hkey => hput ⟨q, hq, hkey⟩]

/-- **Every command keeps a database coherent**, whatever its outcome. -/
theorem run (hc : Coherent content first db) (hcons : c.Consistent content first) :
    Coherent content first (c.run db) := by
  obtain ⟨qs, hs⟩ := run_stores c hc.wellFormed
  have heffect := run_effect c db
  have hw := heffect.wellFormed hc.wellFormed
  refine ⟨hw, SteadyStore.sound_wrote hc.sound hs.wrote, fun h e' he' => ?_,
    fun h hh => hc.storedAs_stays hs (hc.kept h hh), ?_⟩
  · rcases heffect.entry hc.wellFormed he' with ⟨e, he, hnode⟩ | ⟨size, node, hstaging, -, rfl⟩
    · obtain ⟨hencode, hfits, hh⟩ := hc.staged h e he
      rw [hnode]
      exact ⟨hencode, hfits, hc.storedAs_stays hs hh⟩
    · have hz : h ≠ Hash.zero := fun heq => hw.zero_not_mem (heq ▸ Table.mem_iff_getElem?.2 ⟨e', he'⟩)
      obtain ⟨hencode, hfits, hh⟩ := hcons h size _ hstaging hz
      exact ⟨hencode, hfits, hc.storedAs_stays hs (hc.kept h hh)⟩
  · refine hs.cleans _ (fun x hx => ?_) (fun h v hv => hc.get_stays hs hv)
      fun cleans hmem => (hc.cached cleans hmem).imp fun h v hv => hc.get_stays hs hv
    -- a node that was written is stored with the bytes that were entered
    obtain ⟨-, hget⟩ := hc.get_of_put hs ⟨_, hx, rfl⟩
    rcases hs.puts _ hx with ⟨y, heq⟩ | ⟨⟨k, e⟩, he, heq⟩
    · exact absurd (congrArg Put.key heq).symm (secureKey_ne_bytes y.1 x.1)
    · have hvalue : x.2.node.encode = e.node.encode := congrArg Put.value heq
      obtain rfl : x.1 = k := Hash.ext (congrArg Put.key heq)
      rw [hvalue, (hc.staged x.1 e he).1]
      exact hget

/-! ## Lookups -/

/-- A hit in the cache of a node that is staged has the bytes that are staged. -/
theorem hit_staged (hc : Coherent content first db) {h : Hash} {encoded : Bytes} {e : Staged}
    (hget : KeyValueStore.get db.disk h.bytes = .ok (some encoded)) (he : db.buffer.table[h]? = some e) :
    encoded = e.node.encode := by
  obtain ⟨hencode, -, hstored⟩ := hc.staged h e he
  rw [StoredAs, hget] at hstored
  rcases hstored with hnone | hsome
  · cases hnone
  · rw [hencode]
    exact Option.some.inj (Except.ok.inj hsome)

theorem hit_stored (hc : Coherent content first db) {h : Hash} {encoded : Bytes} {after : Database σ}
    (hcached : db.cached? h = some (encoded, after)) :
    KeyValueStore.get db.disk h.bytes = .ok (some encoded) := by
  obtain ⟨cleans, -, hall⟩ := Database.cached?_spec hcached
  exact (hall _ hc.cached).1

/-- **A node reads as if there was no cache.** -/
theorem node (hc : Coherent content first db) (h : Hash) : (db.node h).1 = (db.uncached.node h).1 := by
  have hnone : db.uncached.cached? h = none := rfl
  have hbuffer : db.uncached.buffer = db.buffer := rfl
  unfold Database.node
  split
  · rfl
  rw [hnone, hbuffer]
  dsimp only
  cases hcached : db.cached? h with
  | none =>
    dsimp only
    split
    · rfl
    · exact (db.load_uncached h).symm
  | some hit =>
    have hget := hc.hit_stored hcached
    dsimp only
    split
    · next e he => rw [hc.hit_staged hget he]
    · rw [Database.load_uncached, Database.load, hget]

/-- **So does a trie node**, also one that is staged in its structural form. -/
theorem trieNode (hc : Coherent content first db) (h : Hash) : (db.trieNode h).1 = (db.uncached.trieNode h).1 := by
  have hnone : db.uncached.cached? h = none := rfl
  have hbuffer : db.uncached.buffer = db.buffer := rfl
  unfold Database.trieNode
  split
  · rfl
  rw [hnone, hbuffer]
  dsimp only
  cases hcached : db.cached? h with
  | none =>
    dsimp only
    split
    · rfl
    · rw [Outcome.eq_mk (db.load_uncached h)]
      rcases db.load h with ⟨loaded, after⟩
      cases loaded <;> rfl
  | some hit =>
    have hget := hc.hit_stored hcached
    dsimp only
    split
    · next e he =>
      rw [hc.hit_staged hget he]
      exact Node.decoded_encode (hc.staged h e he).2.1
    · have hload : (db.uncached.load h).1 = .ok hit.1 := by rw [Database.load_uncached, Database.load, hget]
      rw [Outcome.eq_mk hload]

end Coherent

end Coherent

end MerkleBuffer
