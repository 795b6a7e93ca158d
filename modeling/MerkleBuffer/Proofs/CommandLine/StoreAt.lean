/-
The store file at a path, from one command to the next.

A path leads to a store file that holds some puts, or to a place where there is none yet
(`StoreAt`). Either way a command finds a store that holds these puts, and what it leaves
in the store is at the path afterwards (`StoreAt.opens`). The settings file has a name of
its own, so neither of the two files changes when the other is written (`load_setContent`,
`StoreAt.save`).
-/
import MerkleBuffer.Proofs.CommandLine.OnDatabase
import MerkleBuffer.Proofs.Store.Lifetime
import MerkleBuffer.Proofs.Volume

namespace MerkleBuffer

open Volume (LeadsTo)

/-! ## The settings file -/

theorem Path.fileName?_of_namedBy {p : Path} {place : List String} (h : Volume.NamedBy place p.parts) :
    ∃ name, p.fileName? = some name ∧ place.getLast? = some name := by
  obtain ⟨above, name, hparts, hplace, hdot, hup⟩ := h
  refine ⟨name, ?_, hplace⟩
  have hlast : (p.parts.filter (· ≠ ".")).getLast? = some name := by
    simp [hparts, hdot]
  unfold fileName?
  rw [hlast]
  split
  · next heq => exact absurd (Option.some.inj heq) hup
  · rfl

namespace Config

/-- The settings file has the name of the store file, and more. -/
theorem parts_fileOf {p : Path} {name : String} (hname : p.fileName? = some name) :
    ∃ above, (fileOf p).parts = above ++ [name ++ ".config"] := by
  have hne : name ++ ".config" ≠ "" := by simp
  have hpieces : (fileOf p).pieces = p.piecesAbove ++ [name ++ ".config"] := by
    simp [fileOf, hname, Path.withFileName]
  refine ⟨p.piecesAbove.filter (· ≠ ""), ?_⟩
  rw [Path.parts, hpieces]
  simp [hne]

theorem place_ne {v : Volume} {p : Path} {place : List String} {file : Option Nat} (hl : v.LeadsTo p place file) :
    ∀ place', Volume.NamedBy place' (fileOf p).parts → place' ≠ place := by
  rintro place' ⟨above', name', hparts', hplace', -, -⟩ rfl
  obtain ⟨name, hname, hplace⟩ := Path.fileName?_of_namedBy hl.namedBy
  obtain ⟨above, hparts⟩ := parts_fileOf hname
  obtain ⟨-, heq⟩ := List.append_inj' (hparts.symm.trans hparts') rfl
  have hsame : name ++ ".config" = name := by
    rw [hplace] at hplace'
    rw [(List.cons.inj heq).1, Option.some.inj hplace']
  simp at hsame

theorem load_congr {u v : Volume} {p : Path} (h : Volume.AlikeAt v u (fileOf p)) : load u p = load v p := by
  unfold load
  dsimp only
  rw [h.isPresent]
  split
  · next hpresent => rw [h.read hpresent]
  · rfl

end Config

/-! ## The store file -/

/-- What is at a path: nothing yet, or a store file that holds some puts. -/
inductive StoreAt [FrameCodec] (v : Volume) (path : String) : List Put → Prop
  | absent {place : List String} (hlead : v.LeadsTo (Path.ofString path) place none) : StoreAt v path []
  | present {place : List String} {id : Nat} {log : RecordLog} {ps : List Put}
      (hlead : v.LeadsTo (Path.ofString path) place (some id)) (hfile : v.content id = log.file)
      (hholds : LawfulStore.Holds log ps) : StoreAt v path ps

/-- A command has opened the store file at a path, and finds these puts. -/
structure Opened [FrameCodec] (v : Volume) (path : String) (ps : List Put) (file : StoreFile) (opened : Volume) :
    Prop where
  opens : StoreFile.openOrCreate v path = .ok (file, opened)
  holds : LawfulStore.Holds (file.log opened) ps
  /-- What the command leaves in the store is at the path afterwards -/
  update : ∀ log qs, LawfulStore.Holds log qs →
    (file.update opened log).2.Orderly ∧ StoreAt (file.update opened log).2 path qs
  /-- The settings are as they were -/
  settings : ∀ log, Config.load (file.update opened log).2 (Path.ofString path) = Config.load v (Path.ofString path)
  /-- A store file that stays as it is leaves the whole volume as it is -/
  same : ps ≠ [] → (file.update opened (file.log opened)).2 = v

namespace StoreAt

variable {v saved : Volume} {path : String} {ps : List Put} {config : Config}

/-- The settings do not depend on what is in the store file. -/
theorem load_setContent {place : List String} {id : Nat} (ho : v.Orderly)
    (hlead : v.LeadsTo (Path.ofString path) place (some id)) (data : Bytes) :
    Config.load (v.setContent id data) (Path.ofString path) = Config.load v (Path.ofString path) :=
  Config.load_congr (.setContent ho hlead (Config.place_ne hlead) data)

theorem create {place : List String} {old : Option Nat} (ho : v.Orderly)
    (hlead : v.LeadsTo (Path.ofString path) place old) :
    ∃ file made, StoreFile.create v path = .ok (file, made) ∧ made.Orderly ∧
      made.LeadsTo (Path.ofString path) place (some file.file) ∧ file.log made = RecordLog.create ∧
      Config.load made (Path.ofString path) = Config.load v (Path.ofString path) := by
  have hlead' := hlead.emptied
  have hsettings : Config.load (v.emptied place old).2 (Path.ofString path) = Config.load v (Path.ofString path) :=
    Config.load_congr (.emptied ho hlead (Config.place_ne hlead))
  rw [StoreFile.create, hlead.create]
  refine ⟨_, _, rfl, (ho.emptied place old).setContent _ _, hlead'.setContent _ _, ?_, ?_⟩
  · simp [StoreFile.log, Volume.content_setContent]
  · exact (load_setContent (ho.emptied place old) hlead' _).trans hsettings

variable [FrameCodec]

theorem file_ne_nil {log : RecordLog} (hholds : LawfulStore.Holds log ps) : log.file ≠ [] := by
  rw [hholds.1]
  exact List.append_ne_nil_of_left_ne_nil (List.cons_ne_nil _ _) _

theorem leadsTo (hs : StoreAt v path ps) : ∃ place old, v.LeadsTo (Path.ofString path) place old := by
  cases hs with
  | absent hlead => exact ⟨_, _, hlead⟩
  | present hlead _ _ => exact ⟨_, _, hlead⟩

theorem update {file : StoreFile} {opened : Volume} {place : List String} {log : RecordLog} {qs : List Put}
    (ho : opened.Orderly) (hlead : opened.LeadsTo (Path.ofString path) place (some file.file))
    (hholds : LawfulStore.Holds log qs) :
    (file.update opened log).2.Orderly ∧ StoreAt (file.update opened log).2 path qs :=
  ⟨ho.setContent _ _, .present (hlead.setContent _ _) (by simp [StoreFile.update, Volume.content_setContent]) hholds⟩

/-- **A store file opens as it was left**, and a new one is made where there is none. -/
theorem opens (ho : v.Orderly) (hs : StoreAt v path ps) : ∃ file opened, Opened v path ps file opened := by
  cases hs with
  | absent hlead =>
    have hpresent : v.isPresent (Path.ofString path) = false := hlead.isPresent
    obtain ⟨file, made, hcreate, hmade, hlead', hlog, hsettings⟩ := create ho hlead
    exact ⟨file, made, {
      opens := by rw [StoreFile.openOrCreate, hpresent, if_neg (by simp), hcreate]
      holds := hlog ▸ RecordLog.holds_create
      update := fun log qs hholds => update hmade hlead' hholds
      settings := fun log => (load_setContent hmade hlead' log.file).trans hsettings
      same := fun hne => absurd rfl hne }⟩
  | @present place id log _ hlead hfile hholds =>
    have hpresent : v.isPresent (Path.ofString path) = true := hlead.isPresent
    have hself : v.setContent id log.file = v := Volume.setContent_self hfile (file_ne_nil hholds)
    let file : StoreFile := ⟨path, id, log.endOffset, log.index⟩
    have hlog : file.log v = log := by rw [StoreFile.log, hfile]
    have hopen : StoreFile.openAt v path = .ok (file, v) := by
      rw [StoreFile.openAt, hlead.openFile]
      dsimp only
      rw [hfile, RecordLog.Holds.ofFile hholds]
      simp only [StoreFile.update, hself, file]
    exact ⟨file, v, {
      opens := by rw [StoreFile.openOrCreate, hpresent, if_pos rfl, hopen]
      holds := hlog ▸ hholds
      update := fun log' qs hholds' => update ho hlead hholds'
      settings := fun log' => load_setContent ho hlead log'.file
      same := fun _ => by
        rw [hlog]
        exact hself }⟩

theorem openAt {file : StoreFile} {opened : Volume} (hs : StoreAt v path ps)
    (hopen : StoreFile.openAt v path = .ok (file, opened)) : opened = v := by
  cases hs with
  | absent hlead =>
    rw [StoreFile.openAt, Volume.openFile, hlead.find] at hopen
    cases hopen
  | @present place id log _ hlead hfile hholds =>
    have hself : v.setContent id log.file = v := Volume.setContent_self hfile (file_ne_nil hholds)
    rw [StoreFile.openAt, hlead.openFile] at hopen
    dsimp only at hopen
    rw [hfile, RecordLog.Holds.ofFile hholds] at hopen
    cases hopen
    exact hself

/-- **Settings are saved beside a store file**, which stays as it is. -/
theorem save {place : List String} {id : Nat} {log : RecordLog} (ho : v.Orderly)
    (hlead : v.LeadsTo (Path.ofString path) place (some id)) (hfile : v.content id = log.file)
    (hholds : LawfulStore.Holds log ps) (hsave : config.save v (Path.ofString path) = .ok saved) :
    saved.Orderly ∧ StoreAt saved path ps := by
  unfold Config.save at hsave
  split at hsave
  · cases hsave
  cases hwrite : v.write (Config.fileOf (Path.ofString path)) config.toText with
  | error fault =>
    rw [hwrite] at hsave
    cases hsave
  | ok written =>
    rw [hwrite] at hsave
    cases hsave
    obtain ⟨hsaved, hlead', hcontent⟩ := hlead.write ho (fun _ _ hs => Config.place_ne hlead _ hs.namedBy) hwrite
    exact ⟨hsaved, .present hlead' (hcontent.trans hfile) hholds⟩

end StoreAt

end MerkleBuffer
