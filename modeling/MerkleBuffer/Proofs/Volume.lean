/-
Where paths lead while files are made and written.

A path that leads to a file, or to a place where one can be made (`Volume.LeadsTo`),
leads there as long as nothing else is made at this place. The content of a file is
its own where no two places share a file (`Volume.Orderly`), so what is written
elsewhere leaves it alone (`LeadsTo.write`).
-/
import MerkleBuffer.Volume

namespace MerkleBuffer.Volume

/-- Every file stands at one place, and the next number is that of no file. -/
structure Orderly (v : Volume) : Prop where
  lt : ∀ (place : List String) id, v.entries[place]? = some (.file id) → id < v.nextFile
  unique : ∀ (place place' : List String) id, v.entries[place]? = some (.file id) →
    v.entries[place']? = some (.file id) → place = place'

/-- A path leads to a place where a file stands, or where nothing stands and a file can
be made. -/
structure LeadsTo (v : Volume) (path : Path) (place : List String) (file : Option Nat) : Prop where
  fault : path.fault? = none
  noSlash : path.hasSlash = false
  walk : v.walk (v.start path) path.parts = .ok ⟨place, file.map .file⟩

variable {u v : Volume} {path other : Path} {place place' directory parts : List String} {file file' : Option Nat}
  {id : Nat} {found : Found}

theorem getElem?_insert (v : Volume) (place place' : List String) (entry : DirectoryEntry) :
    (v.entries.insert place entry)[place']? = if place = place' then some entry else v.entries[place']? := by
  rw [Std.ExtTreeMap.getElem?_insert]
  simp only [Std.LawfulEqCmp.compare_eq_iff_eq]

theorem content_setContent (v : Volume) (id : Nat) (data : Bytes) (j : Nat) :
    (v.setContent id data).content j = if id = j then data else v.content j := by
  rw [content, setContent, Std.ExtTreeMap.getD_insert]
  simp only [Std.LawfulEqCmp.compare_eq_iff_eq]
  rfl

theorem setContent_self {data : Bytes} (hdata : v.content id = data) (hne : data ≠ []) : v.setContent id data = v := by
  have hget : v.contents[id]? = some data := by
    rw [content, Std.ExtTreeMap.getD_eq_getD_getElem?] at hdata
    cases h : v.contents[id]? with
    | none => exact absurd (by simpa [h] using hdata.symm) hne
    | some found => simpa [h] using hdata
  have hsame : v.contents.insert id data = v.contents := by
    refine Std.ExtTreeMap.ext_getElem? fun j => ?_
    rw [Std.ExtTreeMap.getElem?_insert]
    simp only [Std.LawfulEqCmp.compare_eq_iff_eq]
    split
    · next heq => rw [← heq, hget]
    · rfl
  rw [setContent, hsame]

/-! ## Walks -/

theorem walk_congr (h : u.entries = v.entries) (directory parts : List String) :
    u.walk directory parts = v.walk directory parts := by
  induction parts generalizing directory with
  | nil => rfl
  | cons part rest ih =>
    rw [walk, walk, h, ih, ih]
    split
    · rfl
    split
    · rfl
    split
    · rfl
    dsimp only
    split
    · exact ih _
    all_goals rfl

/-- A place has the name of the last of some components. -/
def NamedBy (place parts : List String) : Prop :=
  ∃ above name, parts = above ++ [name] ∧ place.getLast? = some name ∧ name ≠ "." ∧ name ≠ ".."

/-- A walk that does not end in a directory ends at its last component, and finds what
stands there. -/
theorem walk_spec (hwalk : v.walk directory parts = .ok found) (hne : found.entry ≠ some .directory) :
    v.entries[found.place]? = found.entry ∧ NamedBy found.place parts := by
  induction parts generalizing directory with
  | nil =>
    cases hwalk
    exact absurd rfl hne
  | cons part rest ih =>
    have hfurther : ∀ d, v.walk d rest = .ok found →
        v.entries[found.place]? = found.entry ∧ NamedBy found.place (part :: rest) := by
      intro d hd
      obtain ⟨hentry, above, name, rfl, hname⟩ := ih hd
      exact ⟨hentry, part :: above, name, rfl, hname⟩
    rw [walk] at hwalk
    split at hwalk
    · exact hfurther _ hwalk
    split at hwalk
    · exact hfurther _ hwalk
    split at hwalk
    · cases hwalk
    next hdot hup _ =>
    dsimp only at hwalk
    split at hwalk
    · exact hfurther _ hwalk
    · next id hentry =>
      cases hwalk
      exact ⟨hentry, [], part, rfl, by simp, hdot, hup⟩
    · cases hwalk
    · next hentry =>
      cases hwalk
      exact ⟨hentry, [], part, rfl, by simp, hdot, hup⟩
    · cases hwalk

/-- What a walk came to, and what it comes to with a file more at a place where nothing
stood: it finds the file there, or the same as before, and one that failed still fails. -/
def WithFile (place : List String) (id : Nat) : Except OsError Found → Except OsError Found → Prop
  | .ok found, after =>
    after = .ok ⟨found.place, if found.place = place ∧ found.entry = none then some (.file id) else found.entry⟩
  | .error _, after => ∃ e, after = .error e

theorem walk_insert (hnone : v.entries[place]? = none) (hu : u.entries = v.entries.insert place (.file id))
    (directory parts : List String) : WithFile place id (v.walk directory parts) (u.walk directory parts) := by
  induction parts generalizing directory with
  | nil => simp [walk, WithFile]
  | cons part rest ih =>
    unfold walk
    by_cases hdot : part = "."
    · rw [if_pos hdot, if_pos hdot]
      exact ih directory
    rw [if_neg hdot, if_neg hdot]
    by_cases hup : part = ".."
    · rw [if_pos hup, if_pos hup]
      exact ih directory.dropLast
    rw [if_neg hup, if_neg hup]
    by_cases hlong : maxNameLength < part.utf8ByteSize
    · rw [if_pos hlong, if_pos hlong]
      exact ⟨_, rfl⟩
    rw [if_neg hlong, if_neg hlong, hu]
    dsimp only
    rw [getElem?_insert]
    cases hentry : v.entries[directory ++ [part]]? with
    | some entry =>
      have hne : place ≠ directory ++ [part] := fun heq => by rw [← heq, hnone] at hentry; cases hentry
      rw [if_neg hne]
      cases entry with
      | directory => exact ih (directory ++ [part])
      | file j =>
        cases rest with
        | nil => simp [WithFile]
        | cons _ _ => exact ⟨_, rfl⟩
    | none =>
      by_cases heq : place = directory ++ [part]
      · rw [if_pos heq]
        cases rest with
        | nil => simp [WithFile, heq]
        | cons _ _ => exact ⟨_, rfl⟩
      · have hne : directory ++ [part] ≠ place := fun h => heq h.symm
        rw [if_neg heq]
        cases rest with
        | nil => simp [WithFile, hne]
        | cons _ _ => exact ⟨_, rfl⟩

theorem walk_append (hwalk : v.walk directory parts = .ok ⟨place, some .directory⟩) (more : List String) :
    v.walk directory (parts ++ more) = v.walk place more := by
  induction parts generalizing directory with
  | nil =>
    cases hwalk
    rfl
  | cons part rest ih =>
    rw [walk] at hwalk
    rw [List.cons_append, walk]
    by_cases hdot : part = "."
    · rw [if_pos hdot] at hwalk ⊢
      exact ih hwalk
    rw [if_neg hdot] at hwalk ⊢
    by_cases hup : part = ".."
    · rw [if_pos hup] at hwalk ⊢
      exact ih hwalk
    rw [if_neg hup] at hwalk ⊢
    by_cases hlong : maxNameLength < part.utf8ByteSize
    · rw [if_pos hlong] at hwalk
      cases hwalk
    rw [if_neg hlong] at hwalk ⊢
    dsimp only at hwalk ⊢
    cases hentry : v.entries[directory ++ [part]]? with
    | none =>
      rw [hentry] at hwalk
      cases rest <;> cases hwalk
    | some entry =>
      rw [hentry] at hwalk
      cases entry with
      | directory => exact ih hwalk
      | file id => cases rest <;> cases hwalk

/-- Single dots lead nowhere, on the way to a directory. -/
theorem walk_filter_dots : v.walk directory (parts.filter (· ≠ ".")) = .ok ⟨place, some .directory⟩ ↔
    v.walk directory parts = .ok ⟨place, some .directory⟩ := by
  induction parts generalizing directory with
  | nil => exact Iff.rfl
  | cons part rest ih =>
    by_cases hdot : part = "."
    · rw [List.filter_cons_of_neg (by simpa using hdot), walk, if_pos hdot]
      exact ih
    rw [List.filter_cons_of_pos (by simpa using hdot), walk, walk, if_neg hdot, if_neg hdot]
    by_cases hup : part = ".."
    · rw [if_pos hup, if_pos hup]
      exact ih
    rw [if_neg hup, if_neg hup]
    by_cases hlong : maxNameLength < part.utf8ByteSize
    · rw [if_pos hlong, if_pos hlong]
    rw [if_neg hlong, if_neg hlong]
    dsimp only
    cases hentry : v.entries[directory ++ [part]]? with
    | none => cases rest <;> cases List.filter (· ≠ ".") _ <;> simp
    | some entry =>
      cases entry with
      | directory => exact ih
      | file id => cases rest <;> cases List.filter (· ≠ ".") _ <;> simp

/-! ## Where a path leads -/

namespace LeadsTo

theorem ne_directory (file : Option Nat) : file.map DirectoryEntry.file ≠ some .directory := by
  cases file <;> simp

theorem entry (hl : v.LeadsTo path place file) : v.entries[place]? = file.map .file :=
  (walk_spec hl.walk (ne_directory file)).1

theorem namedBy (hl : v.LeadsTo path place file) : NamedBy place path.parts :=
  (walk_spec hl.walk (ne_directory file)).2

theorem find (hl : v.LeadsTo path place file) : v.find path = .ok ⟨place, file.map .file⟩ := by
  rw [Volume.find, hl.fault]
  dsimp only
  rw [hl.walk]
  cases file <;> simp [hl.noSlash]

theorem findPlace (hl : v.LeadsTo path place file) : v.findPlace path = .ok ⟨place, file.map .file⟩ := by
  have hasks : path.asksForDirectory = false := by rw [Path.asksForDirectory, hl.noSlash, Bool.false_and]
  rw [Volume.findPlace, hasks, if_neg (by simp)]
  exact hl.find

theorem openFile (hl : v.LeadsTo path place (some id)) : v.openFile path = .ok id := by
  rw [Volume.openFile, hl.find]
  rfl

theorem isPresent (hl : v.LeadsTo path place file) : v.isPresent path = file.isSome := by
  rw [Volume.isPresent, hl.find]
  cases file <;> rfl

theorem setContent (hl : v.LeadsTo path place file) (j : Nat) (data : Bytes) :
    (v.setContent j data).LeadsTo path place file where
  fault := hl.fault
  noSlash := hl.noSlash
  walk := by
    have hsame : (v.setContent j data).entries = v.entries := rfl
    rw [walk_congr hsame]
    exact hl.walk

end LeadsTo

/-- What is found at a path is what a walk comes to, and a file only if no slash stands
behind it. -/
theorem find_eq_ok (hfind : v.find path = .ok found) : path.fault? = none ∧
    v.walk (v.start path) path.parts = .ok found ∧ ∀ id, found.entry = some (.file id) → path.hasSlash = false := by
  unfold find at hfind
  split at hfind
  · cases hfind
  next hfault =>
  split at hfind
  · cases hfind
  next reached hwalk =>
  split at hfind
  · split at hfind
    · cases hfind
    · next hslash =>
      cases hfind
      exact ⟨hfault, hwalk, fun _ _ => Bool.eq_false_iff.2 hslash⟩
  · next hno =>
    cases hfind
    exact ⟨hfault, hwalk, fun id hentry => absurd hentry (hno id)⟩

theorem leadsTo_of_findPlace (hfind : v.findPlace path = .ok ⟨place, file.map .file⟩) :
    v.LeadsTo path place file := by
  unfold findPlace at hfind
  split at hfind
  · cases hfind
  next hasks =>
  obtain ⟨hfault, hwalk, -⟩ := find_eq_ok hfind
  obtain ⟨-, above, name, hparts, -, hdot, hup⟩ := walk_spec hwalk (LeadsTo.ne_directory file)
  -- a slash behind the name would ask for a directory
  have hslash : path.hasSlash = false := Bool.eq_false_iff.2 fun hslash => by
    have hdirectory : path.asksForDirectory = true := by
      simp [Path.asksForDirectory, hslash, hparts, hdot, hup]
    exact hasks ⟨by rw [hfault]; rfl, hdirectory⟩
  exact ⟨hfault, hslash, hwalk⟩

theorem leadsTo_of_openFile (hopen : v.openFile path = .ok id) : ∃ place, v.LeadsTo path place (some id) := by
  unfold openFile at hopen
  split at hopen
  · cases hopen
  · next place j hfind =>
    cases hopen
    obtain ⟨hfault, hwalk, hslash⟩ := find_eq_ok hfind
    exact ⟨place, hfault, hslash _ rfl, hwalk⟩
  · cases hopen
  · cases hopen

/-! ## Making files -/

/-- An empty file at a place: the one that stands there, or a new one. -/
def emptied (v : Volume) (place : List String) : Option Nat → Nat × Volume
  | some id => (id, v.setContent id [])
  | none => (v.nextFile, setContent { v with
      entries := v.entries.insert place (.file v.nextFile)
      nextFile := v.nextFile + 1 } v.nextFile [])

theorem content_emptied (v : Volume) (place : List String) (file : Option Nat) (j : Nat) :
    (v.emptied place file).2.content j = if (v.emptied place file).1 = j then [] else v.content j := by
  cases file <;> exact content_setContent ..

theorem LeadsTo.create (hl : v.LeadsTo path place file) : v.create path = .ok (v.emptied place file) := by
  rw [Volume.create, hl.findPlace]
  cases file <;> rfl

theorem create_eq_ok {made : Nat × Volume} (hcreate : v.create path = .ok made) :
    ∃ place file, v.LeadsTo path place file ∧ made = v.emptied place file := by
  unfold create at hcreate
  split at hcreate
  · cases hcreate
  · next place id hfind =>
    cases hcreate
    exact ⟨place, some id, leadsTo_of_findPlace hfind, rfl⟩
  · cases hcreate
  · next place hfind =>
    cases hcreate
    exact ⟨place, none, leadsTo_of_findPlace hfind, rfl⟩

theorem Orderly.setContent (ho : v.Orderly) (id : Nat) (data : Bytes) : (v.setContent id data).Orderly :=
  ⟨ho.lt, ho.unique⟩

theorem Orderly.emptied (ho : v.Orderly) (place : List String) (file : Option Nat) :
    (v.emptied place file).2.Orderly := by
  cases file with
  | some id => exact ho.setContent id []
  | none =>
    have hget : ∀ k, (v.emptied place none).2.entries[k]? =
        if place = k then some (.file v.nextFile) else v.entries[k]? := fun k => getElem?_insert v place k _
    -- an old file has another number than the new one
    have hold : ∀ {k : List String} {id : Nat}, v.entries[k]? = some (.file id) → id ≠ v.nextFile :=
      fun hk => Nat.ne_of_lt (ho.lt _ _ hk)
    constructor
    · intro k id hk
      rw [hget] at hk
      split at hk
      · cases hk
        exact Nat.lt_succ_self _
      · exact Nat.lt_succ_of_lt (ho.lt k id hk)
    · intro k k' id hk hk'
      rw [hget] at hk hk'
      split at hk <;> split at hk'
      · next h h' => exact h.symm.trans h'
      · cases hk
        exact absurd rfl (hold hk')
      · cases hk'
        exact absurd rfl (hold hk)
      · exact ho.unique k k' id hk hk'

/-- A path leads to the file that was made empty for it. -/
theorem LeadsTo.emptied (hl : v.LeadsTo path place file) :
    (v.emptied place file).2.LeadsTo path place (some (v.emptied place file).1) := by
  cases file with
  | some id => exact hl.setContent id []
  | none =>
    refine ⟨hl.fault, hl.noSlash, ?_⟩
    have hwalk := walk_insert (u := (v.emptied place none).2) hl.entry rfl (v.start path) path.parts
    rw [hl.walk, WithFile, if_pos ⟨rfl, rfl⟩] at hwalk
    exact hwalk

/-- Where a file can be made, a whole file can be written, and then it is there. -/
theorem LeadsTo.write_ok (hl : v.LeadsTo path place file) (data : Bytes) :
    ∃ u, v.write path data = .ok u ∧ u.isPresent path = true ∧ u.read path = .ok data := by
  have hmade := hl.emptied.setContent (v.emptied place file).1 data
  refine ⟨_, by rw [Volume.write, hl.create], hmade.isPresent, ?_⟩
  rw [Volume.read, hmade.openFile]
  exact congrArg Except.ok ((content_setContent ..).trans (if_pos rfl))

theorem leadsTo_of_write {data : Bytes} (hwrite : v.write path data = .ok u) :
    ∃ place file, v.LeadsTo path place file := by
  unfold write at hwrite
  split at hwrite
  · cases hwrite
  · next hcreate =>
    obtain ⟨place, file, hlead, -⟩ := create_eq_ok hcreate
    exact ⟨place, file, hlead⟩

/-- **A file that is made elsewhere** leaves the path and its content alone. -/
theorem LeadsTo.emptied_elsewhere (ho : v.Orderly) (hl : v.LeadsTo path place (some id))
    (hother : v.LeadsTo other place' file') (hne : place' ≠ place) :
    (v.emptied place' file').2.LeadsTo path place (some id) ∧ (v.emptied place' file').1 ≠ id ∧
      (v.emptied place' file').2.content id = v.content id := by
  have hentry := hl.entry
  have hapart : (v.emptied place' file').1 ≠ id := by
    cases file' with
    | some j =>
      rintro rfl
      exact hne (ho.unique _ _ _ hother.entry hentry)
    | none => exact Nat.ne_of_gt (ho.lt _ _ hentry)
  refine ⟨?_, hapart, (content_emptied ..).trans (if_neg hapart)⟩
  cases file' with
  | some j => exact hl.setContent j []
  | none =>
    refine ⟨hl.fault, hl.noSlash, ?_⟩
    have hwalk := walk_insert (u := (v.emptied place' none).2) hother.entry rfl (v.start path) path.parts
    rw [hl.walk, WithFile, if_neg (by simp)] at hwalk
    exact hwalk

/-- **What is written elsewhere** leaves the path and its content alone. -/
theorem LeadsTo.write (ho : v.Orderly) (hl : v.LeadsTo path place (some id))
    (hother : ∀ place' file', v.LeadsTo other place' file' → place' ≠ place) {data : Bytes}
    (hwrite : v.write other data = .ok u) :
    u.Orderly ∧ u.LeadsTo path place (some id) ∧ u.content id = v.content id := by
  unfold Volume.write at hwrite
  split at hwrite
  · cases hwrite
  · next j made hcreate =>
    cases hwrite
    obtain ⟨place', file', hlead, hmade⟩ := create_eq_ok hcreate
    obtain ⟨hsame, hapart, hcontent⟩ := hl.emptied_elsewhere ho hlead (hother place' file' hlead)
    rw [← hmade] at hsame hapart hcontent
    have hmade' : made.Orderly := by
      have horderly := ho.emptied place' file'
      rwa [← hmade] at horderly
    refine ⟨hmade'.setContent j data, hsame.setContent j data, ?_⟩
    rw [content_setContent, if_neg hapart]
    exact hcontent

/-! ## What others see of it -/

theorem find_congr (hstart : u.workingDirectory = v.workingDirectory)
    (hwalk : u.walk (v.start path) path.parts = v.walk (v.start path) path.parts) : u.find path = v.find path := by
  have hsame : u.start path = v.start path := by rw [start, start, hstart]
  rw [find, find, hsame, hwalk]

theorem isPresent_of_walk {e : OsError} (hwalk : v.walk (v.start path) path.parts = .error e) :
    v.isPresent path = false := by
  unfold isPresent find
  rw [hwalk]
  cases path.fault? <;> rfl

/-- Two volumes look the same at a path. -/
structure AlikeAt (v u : Volume) (path : Path) : Prop where
  isPresent : u.isPresent path = v.isPresent path
  read : v.isPresent path = true → u.read path = v.read path

namespace AlikeAt

theorem of_find (hfind : u.find path = v.find path)
    (hcontent : ∀ place id, v.LeadsTo path place (some id) → u.content id = v.content id) : AlikeAt v u path where
  isPresent := by rw [Volume.isPresent, Volume.isPresent, hfind]
  read _ := by
    have hopen : u.openFile path = v.openFile path := by rw [openFile, openFile, hfind]
    rw [Volume.read, Volume.read, hopen]
    cases hfile : v.openFile path with
    | error fault => rfl
    | ok id =>
      obtain ⟨place, hlead⟩ := leadsTo_of_openFile hfile
      exact congrArg Except.ok (hcontent place id hlead)

theorem setContent (ho : v.Orderly) (hl : v.LeadsTo other place' (some id))
    (hne : ∀ place, NamedBy place path.parts → place ≠ place') (data : Bytes) :
    AlikeAt v (v.setContent id data) path := by
  have hsame : (v.setContent id data).entries = v.entries := rfl
  refine of_find (find_congr rfl (walk_congr hsame _ _)) fun place j hlead => ?_
  have hapart : id ≠ j := by
    rintro rfl
    exact hne place hlead.namedBy (ho.unique _ _ _ hlead.entry hl.entry)
  rw [content_setContent, if_neg hapart]

theorem emptied (ho : v.Orderly) (hl : v.LeadsTo other place' file')
    (hne : ∀ place, NamedBy place path.parts → place ≠ place') : AlikeAt v (v.emptied place' file').2 path := by
  cases file' with
  | some id => exact setContent ho hl hne []
  | none =>
    have hwalk := walk_insert (u := (v.emptied place' none).2) hl.entry rfl (v.start path) path.parts
    cases hfound : v.walk (v.start path) path.parts with
    | error e =>
      rw [hfound] at hwalk
      obtain ⟨e', hfails⟩ := hwalk
      have habsent : v.isPresent path = false := isPresent_of_walk hfound
      have habsent' : (v.emptied place' none).2.isPresent path = false := isPresent_of_walk hfails
      exact ⟨habsent'.trans habsent.symm, fun hpresent => by rw [habsent] at hpresent; cases hpresent⟩
    | ok found =>
      rw [hfound] at hwalk
      have hsame : ¬ (found.place = place' ∧ found.entry = none) := by
        rintro ⟨hplace, hentry⟩
        obtain ⟨-, hnamed⟩ := walk_spec hfound (by simp [hentry])
        exact hne _ hnamed hplace
      rw [WithFile, if_neg hsame, ← hfound] at hwalk
      refine of_find (find_congr rfl hwalk) fun place j hlead => ?_
      have hold : j ≠ v.nextFile := Nat.ne_of_lt (ho.lt _ _ hlead.entry)
      exact (content_emptied ..).trans (if_neg hold.symm)

end AlikeAt

end MerkleBuffer.Volume
