/-
What a store file holds after any number of commands.

Each command is a process of its own, and other programs may do what they want to other
files in between. A command that makes a new store file empties it; all others leave what
is there and add nodes of the tries they were given, also when they fail (`run_stores`). So
at any time the store file holds nodes of these tries and nothing else, and as long as no
new file is made, what it held before (`Invocations.stores`).
-/
import MerkleBuffer.Proofs.CommandLine.StoreAt
import MerkleBuffer.Proofs.Database.Survey
import MerkleBuffer.Proofs.Database.ValueTrie

namespace MerkleBuffer.CommandLine

open TrieNode (valueTrie)

/-- The lists of values that a command is to insert. -/
def Command.lists : Command → List (List String)
  | insert values => [values]
  | _ => []

/-- The nodes of the tries of some lists of values, as they are put into a store. -/
def triePuts (lists : List (List String)) : List Put := (lists.flatMap valueTrie).map TrieNode.put

/-- What other programs do to other files: where a path leads and what is there stays,
but for the number of the file. -/
structure Elsewhere (path : String) (v u : Volume) : Prop where
  orderly : u.Orderly
  absent : ∀ place, v.LeadsTo (Path.ofString path) place none → ∃ place', u.LeadsTo (Path.ofString path) place' none
  present : ∀ place id, v.LeadsTo (Path.ofString path) place (some id) →
    ∃ place' id', u.LeadsTo (Path.ofString path) place' (some id') ∧ u.content id' = v.content id

/-- A volume after some of the allowed commands were run on the store file at a path, with
the lists of values that were to be inserted. -/
inductive Invocations [FrameCodec] (path : String) (allowed : Command → Prop) (v : Volume) :
    List (List String) → Volume → Prop
  | nothing : Invocations path allowed v [] v
  | command {lists : List (List String)} {u : Volume} (before : Invocations path allowed v lists u) (c : Command)
      (hc : allowed c) : Invocations path allowed v (lists ++ c.lists) (c.run u path).2
  | elsewhere {lists : List (List String)} {u u' : Volume} (before : Invocations path allowed v lists u)
      (other : Elsewhere path u u') : Invocations path allowed v lists u'

variable {v u : Volume} {path : String} {ps : List Put} {lists : List (List String)}

theorem triePuts_append (lists more : List (List String)) :
    triePuts (lists ++ more) = triePuts lists ++ triePuts more := by
  rw [triePuts, List.flatMap_append, List.map_append]
  rfl

variable [FrameCodec]

theorem Elsewhere.stores (h : Elsewhere path v u) (hs : StoreAt v path ps) : StoreAt u path ps := by
  cases hs with
  | absent hlead =>
    obtain ⟨place', hlead'⟩ := h.absent _ hlead
    exact .absent hlead'
  | present hlead hfile hholds =>
    obtain ⟨place', id', hlead', hcontent⟩ := h.present _ _ hlead
    exact .present hlead' (hcontent.trans hfile) hholds

/-! ## One command -/

/-- Work that only adds these puts to its store only adds them to the store file. -/
theorem onDatabase_stores {α : Type} {work : Database RecordLog → Except Failure α × Database RecordLog}
    {allowed : List Put} (ho : v.Orderly) (hs : StoreAt v path ps)
    (hwork : ∀ log config hv, ∃ qs ⊆ allowed, Wrote log qs (work (.ofValid log config hv)).2.disk) :
    (onDatabase v path work).2.Orderly ∧ ∃ qs ⊆ allowed, StoreAt (onDatabase v path work).2 path (ps ++ qs) := by
  cases hload : Config.load v (Path.ofString path) with
  | error e =>
    rw [onDatabase, hload]
    exact ⟨ho, [], List.nil_subset _, by rwa [List.append_nil]⟩
  | ok config =>
    obtain ⟨file, opened, hopened⟩ := hs.opens ho
    rw [onDatabase_eq hload hopened.opens]
    obtain ⟨qs, hqs, hwrote⟩ := hwork (file.log opened) config (Config.valid_of_load hload)
    obtain ⟨horderly, hstores⟩ := hopened.update _ _ (hwrote.holds hopened.holds)
    exact ⟨horderly, qs, hqs, hstores⟩

theorem insert_stores (ho : v.Orderly) (hs : StoreAt v path ps) (values : List String) :
    (insert v path values).2.Orderly ∧
      ∃ qs ⊆ triePuts [values], StoreAt (insert v path values).2 path (ps ++ qs) := by
  unfold insert
  split
  · exact ⟨ho, [], List.nil_subset _, by rwa [List.append_nil]⟩
  · refine onDatabase_stores ho hs fun log config hv => ?_
    obtain ⟨qs, hqs, hwrote⟩ := Database.insertValues_wrote (.ofValid log config hv) rfl values
    refine ⟨qs, by simpa [triePuts] using hqs, ?_⟩
    generalize (Database.ofValid log config hv).insertValues values = outcome at hwrote
    obtain ⟨result | e, after⟩ := outcome <;> exact hwrote

theorem reading_stores {α : Type} {work : Hash → Database RecordLog → Except Failure α × Database RecordLog}
    (ho : v.Orderly) (hs : StoreAt v path ps)
    (hwork : ∀ h log config hv, (work h (.ofValid log config hv)).2.disk = log) (text : String) :
    (onDatabase v path (fromHash text work)).2.Orderly ∧
      StoreAt (onDatabase v path (fromHash text work)).2 path ps := by
  have hnone : ∀ log config hv, ∃ qs ⊆ ([] : List Put),
      Wrote log qs (fromHash text work (.ofValid log config hv)).2.disk := by
    intro log config hv
    have hdisk : (fromHash text work (.ofValid log config hv)).2.disk = log := by
      unfold fromHash
      split
      · rfl
      · exact hwork _ log config hv
    rw [hdisk]
    exact ⟨[], List.Subset.refl _, .nothing⟩
  obtain ⟨horderly, qs, hqs, hstores⟩ := onDatabase_stores ho hs hnone
  rw [List.eq_nil_of_subset_nil hqs, List.append_nil] at hstores
  exact ⟨horderly, hstores⟩

theorem get_stores (ho : v.Orderly) (hs : StoreAt v path ps) (text : String) :
    (get v path text).2.Orderly ∧ StoreAt (get v path text).2 path ps := by
  refine reading_stores ho hs (fun h log config hv => ?_) text
  have hdisk := (Unstaged.ofValid log config hv).disk_node h
  generalize (Database.ofValid log config hv).node h = outcome at hdisk
  obtain ⟨result | e, after⟩ := outcome <;> exact hdisk

theorem verify_stores (ho : v.Orderly) (hs : StoreAt v path ps) (text : String) :
    (verify v path text).2.Orderly ∧ StoreAt (verify v path text).2 path ps := by
  refine reading_stores ho hs (fun h log config hv => ?_) text
  have hdisk : ((Database.ofValid log config hv).survey h).2.disk = log :=
    ((Unstaged.ofValid log config hv).surveyFrom _ ∅ [] [h]).disk
  generalize (Database.ofValid log config hv).survey h = outcome at hdisk
  obtain ⟨result | e, after⟩ := outcome <;> exact hdisk

theorem stats_stores (ho : v.Orderly) (hs : StoreAt v path ps) :
    (stats v path).2.Orderly ∧ StoreAt (stats v path).2 path ps := by
  unfold stats
  split
  · exact ⟨ho, hs⟩
  · next file opened hopen =>
    rw [hs.openAt hopen]
    split <;> exact ⟨ho, hs⟩

theorem init_stores (ho : v.Orderly) (hs : StoreAt v path ps) :
    (init v path).2.Orderly ∧ StoreAt (init v path).2 path [] := by
  obtain ⟨place, old, hlead⟩ := hs.leadsTo
  obtain ⟨file, made, hcreate, hmade, hlead', hlog, -⟩ := StoreAt.create ho hlead
  have hfile : made.content file.file = RecordLog.create.file := congrArg RecordLog.file hlog
  have hempty : made.Orderly ∧ StoreAt made path [] := ⟨hmade, .present hlead' hfile RecordLog.holds_create⟩
  rw [init, hcreate]
  dsimp only
  split
  · exact hempty
  split
  · exact hempty
  · next hsave => exact StoreAt.save hmade hlead' hfile RecordLog.holds_create hsave

/-- **What a command does to a store file**: it makes it anew, or it leaves what is there and
adds nodes of the trie it was given. -/
theorem run_stores (ho : v.Orderly) (hs : StoreAt v path ps) (c : Command) : (c.run v path).2.Orderly ∧
    ∃ ps', StoreAt (c.run v path).2 path ps' ∧
      (c = .init ∧ ps' = [] ∨ ∃ qs ⊆ triePuts c.lists, ps' = ps ++ qs) := by
  have hreads : ∀ r : Ran Result, r.2.Orderly ∧ StoreAt r.2 path ps → r.2.Orderly ∧ ∃ ps', StoreAt r.2 path ps' ∧
      (c = .init ∧ ps' = [] ∨ ∃ qs ⊆ triePuts c.lists, ps' = ps ++ qs) := fun r hr =>
    ⟨hr.1, ps, hr.2, .inr ⟨[], List.nil_subset _, (List.append_nil ps).symm⟩⟩
  cases c with
  | init => exact ⟨(init_stores ho hs).1, [], (init_stores ho hs).2, .inl ⟨rfl, rfl⟩⟩
  | insert values =>
    obtain ⟨horderly, qs, hqs, hstores⟩ := insert_stores ho hs values
    exact ⟨horderly, ps ++ qs, hstores, .inr ⟨qs, hqs, rfl⟩⟩
  | get text => exact hreads _ (get_stores ho hs text)
  | verify text => exact hreads _ (verify_stores ho hs text)
  | stats => exact hreads _ (stats_stores ho hs)

/-! ## Any number of commands -/

/-- **What a store file holds after any commands**: nodes of the tries that were to be
inserted, behind what it held before, if no new store file was made. -/
theorem Invocations.stores {allowed : Command → Prop} (hi : Invocations path allowed v lists u) (ho : v.Orderly)
    (hs : StoreAt v path ps) : u.Orderly ∧ ∃ ps', StoreAt u path ps' ∧ ps' ⊆ ps ++ triePuts lists ∧
      ((∀ c, allowed c → c ≠ .init) → ps <+: ps') := by
  induction hi with
  | nothing => exact ⟨ho, ps, hs, List.subset_append_left _ _, fun _ => List.prefix_rfl⟩
  | @command lists u before c hc ih =>
    obtain ⟨horderly, ps', hstores, hsub, hkept⟩ := ih
    obtain ⟨horderly', ps'', hstores', hcases⟩ := run_stores horderly hstores c
    refine ⟨horderly', ps'', hstores', ?_, fun hnew => ?_⟩
    · rw [triePuts_append, ← List.append_assoc]
      rcases hcases with ⟨-, rfl⟩ | ⟨qs, hqs, rfl⟩
      · exact List.nil_subset _
      · exact List.append_subset.2 ⟨List.subset_append_of_subset_left _ hsub, List.subset_append_of_subset_right _ hqs⟩
    · rcases hcases with ⟨rfl, -⟩ | ⟨qs, -, rfl⟩
      · exact absurd rfl (hnew _ hc)
      · exact (hkept hnew).trans (List.prefix_append _ _)
  | elsewhere before other ih =>
    obtain ⟨-, ps', hstores, hsub, hkept⟩ := ih
    exact ⟨other.orderly, ps', other.stores hstores, hsub, hkept⟩

end MerkleBuffer.CommandLine
