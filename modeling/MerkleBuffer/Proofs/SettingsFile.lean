/-
Settings that are saved and loaded.

Settings are saved just if they are in order, and then they load again: the text they are
written as gives all of them. Whatever else a settings file says, settings that it gives stand
in place of the standard ones, and what loads is in order.
-/
import Mathlib.Data.List.Basic
import MerkleBuffer.Proofs.CommandLine.OnDatabase
import MerkleBuffer.Proofs.Config.Place
import MerkleBuffer.Proofs.Config.Text

namespace MerkleBuffer

namespace Config

open JsonGrammar

variable {v : Volume} {database : Path} {directory : List String} {given : Given} {text : String} {c : Config}

/-! ## Reading the file -/

theorem ofUtf8?_utf8 (text : String) : ofUtf8? (utf8 text) = some text := by
  have hbytes : ByteArray.mk (utf8 text).toArray = text.toByteArray := by
    rw [utf8, Array.toArray_toList, String.toUTF8_eq_toByteArray]
  rw [ofUtf8?, hbytes, String.fromUTF8?, dif_pos text.isValidUTF8]
  rfl

theorem ofText_gives (hgives : GivesSettings given text.toList) (hnodup : (given.map Prod.fst).Nodup)
    (hvalid : (ofGiven given).Valid) : ofText (utf8 text) = .ok (ofGiven given) := by
  rw [ofText, ofUtf8?_utf8, if_neg (by simp), utf8_eq, ofJson_gives hgives hnodup]
  dsimp only
  rw [hvalid]

theorem ofText_gives_fault (hgives : GivesSettings given text.toList) (hnodup : (given.map Prod.fst).Nodup)
    {fault : ConfigFault} (hfault : (ofGiven given).fault? = some fault) :
    ofText (utf8 text) = .error (.config fault) := by
  rw [ofText, ofUtf8?_utf8, if_neg (by simp), utf8_eq, ofJson_gives hgives hnodup]
  dsimp only
  rw [hfault]

/-- **What is written reads back.** -/
theorem ofText_toText (hvalid : c.Valid) : ofText c.toText = .ok c := by
  have hread := ofText_gives c.gives_pretty c.nodup_givenBy
  rw [ofGiven_givenBy] at hread
  exact hread hvalid

theorem load_of_read {data : Bytes} (hread : v.read (fileOf database) = .ok data) : load v database = ofText data := by
  unfold load
  have hpresent : v.isPresent (fileOf database) = true := by
    rw [Volume.read] at hread
    cases hopen : v.openFile (fileOf database) with
    | error fault =>
      rw [hopen] at hread
      cases hread
    | ok id =>
      obtain ⟨place, hlead⟩ := Volume.leadsTo_of_openFile hopen
      exact hlead.isPresent
  dsimp only
  rw [if_pos hpresent, hread]

/-! ## Saving and loading -/

/-- What saving answers, and what it leaves. The file is written last, so nothing has changed
where saving fails. -/
def saveIn (v : Volume) (database : Path) (c : Config) : Except Error Unit × Volume :=
  match c.save v database with
  | .ok saved => (.ok (), saved)
  | .error e => (.error e, v)

theorem saveIn_of_not_valid (v : Volume) (database : Path) (hinvalid : ¬ c.Valid) :
    ∃ fault, c.fault? = some fault ∧ saveIn v database c = (.error (.config fault), v) := by
  obtain ⟨fault, hfault⟩ := Option.ne_none_iff_exists'.1 hinvalid
  exact ⟨fault, hfault, by rw [saveIn, save, hfault]⟩

theorem saveIn_of_hasRoom (hvalid : c.Valid) (hdirectory : v.InDirectory database directory)
    (hroom : HasRoom v database directory) :
    ∃ saved, saveIn v database c = (.ok (), saved) ∧ load saved database = .ok c := by
  obtain ⟨place, file, hlead⟩ := (hasRoom_iff hdirectory).1 hroom
  obtain ⟨saved, hwrite, -, hread⟩ := hlead.write_ok c.toText
  refine ⟨saved, ?_, (load_of_read hread).trans (ofText_toText hvalid)⟩
  rw [saveIn, save, hvalid]
  dsimp only
  rw [hwrite]
  rfl

theorem saveIn_of_not_hasRoom (hvalid : c.Valid) (hdirectory : v.InDirectory database directory)
    (hfull : ¬ HasRoom v database directory) : ∃ fault, saveIn v database c = (.error (.io fault), v) := by
  rw [saveIn, save, hvalid]
  dsimp only
  cases hwrite : v.write (fileOf database) c.toText with
  | error fault => exact ⟨fault, rfl⟩
  | ok saved => exact absurd ((hasRoom_iff hdirectory).2 (Volume.leadsTo_of_write hwrite)) hfull

/-- **Settings files round-trip, and none loads that is not in order.** Where the settings file
can be written, settings are saved and load again just if they are in order; where it cannot,
saving fails and changes nothing, and so it does, anywhere, for settings that are not in order.
From a file with an object, the settings given in it load in place of the standard ones, if the
outcome is in order, and whatever loads from any file is. -/
theorem settings_saved_and_loaded (v : Volume) (database : Path) :
    (∀ (c : Config) (directory : List String), v.InDirectory database directory →
      (HasRoom v database directory →
        ((∃ saved, saveIn v database c = (.ok (), saved) ∧ load saved database = .ok c) ↔ c.Valid)) ∧
      (¬ HasRoom v database directory → c.Valid → ∃ fault, saveIn v database c = (.error (.io fault), v))) ∧
    (∀ c : Config, ¬ c.Valid → ∃ fault, c.fault? = some fault ∧ saveIn v database c = (.error (.config fault), v)) ∧
    (∀ (text : String) (given : Given), GivesSettings given text.toList → (given.map Prod.fst).Nodup →
      v.read (fileOf database) = .ok (utf8 text) →
      ∃ c : Config, (∀ s, c.get s = (given.lookup s).getD (standard.get s)) ∧
        (c.Valid → load v database = .ok c) ∧
        (¬ c.Valid → ∃ fault, c.fault? = some fault ∧ load v database = .error (.config fault))) ∧
    ∀ c : Config, load v database = .ok c → c.Valid := by
  refine ⟨fun c directory hdirectory => ⟨fun hroom => ⟨?_, fun hvalid => ?_⟩, fun hfull hvalid => ?_⟩,
    fun c => saveIn_of_not_valid v database, fun text given hgives hnodup hread => ?_, fun c => valid_of_load⟩
  · rintro ⟨saved, -, hload⟩
    exact valid_of_load hload
  · exact saveIn_of_hasRoom hvalid hdirectory hroom
  · exact saveIn_of_not_hasRoom hvalid hdirectory hfull
  · rw [load_of_read hread]
    refine ⟨ofGiven given, get_ofGiven hnodup, ofText_gives hgives hnodup, fun hinvalid => ?_⟩
    obtain ⟨fault, hfault⟩ := Option.ne_none_iff_exists'.1 hinvalid
    exact ⟨fault, hfault, ofText_gives_fault hgives hnodup hfault⟩

/-- A working directory with a settings file of this text. -/
def volumeWithSettings (text : String) : Volume where
  entries := .ofList [(["work"], DirectoryEntry.directory), (["work", "db.triedb.config"], DirectoryEntry.file 0)]
  contents := .ofList [(0, utf8 text)]
  nextFile := 1
  workingDirectory := ["work"]

/-- Two settings, one of them under a name with an escape, behind a member to be skipped. -/
def mixedSettings : String :=
  " \x7b\"x\": [-2.5e+3, \x7b\"y\":\"\\ud800\"\x7d],\n\"preimage_flush_threshold\":0 ," ++
    "\"\\u0063lean_cache_size\":  0\x7d\n"

/-- The value that is skipped: its last string is half of a surrogate pair. -/
def skippedValue : List Char :=
  '[' :: ([] ++ ('-' :: (['2'] ++ ('.' :: ['5']) ++ ('e' :: ['+'] ++ ['3']))) ++ [] ++ ',' ::
    ([' '] ++ ('\x7b' :: (([] ++ '"' :: ['y'] ++ '"' :: [] ++ [':']) ++ [] ++
      ('"' :: ('\\' :: ['u', 'd', '8', '0', '0'] ++ []) ++ ['"']) ++ []) ++ ['\x7d']) ++ [])) ++ [']']

theorem derives_skippedValue : Derives .value skippedValue := by
  have hnumber : Derives .value ('-' :: (['2'] ++ ('.' :: ['5']) ++ ('e' :: ['+'] ++ ['3']))) :=
    .negative (.parts (.digits (by decide) (by decide +kernel)) (.digits (by decide +kernel))
      (.digits (by decide) (by decide) (by decide +kernel)))
  have hhalf : Code ['u', 'd', '8', '0', '0'] 0xD800 :=
    .digits (.lower (x := 13) (by decide)) (.lower (x := 8) (by decide)) (.lower (x := 0) (by decide))
      (.lower (x := 0) (by decide))
  have hkey : Key Content ([] ++ '"' :: ['y'] ++ '"' :: [] ++ [':']) :=
    .colon (by decide) (.plain (by decide) .nil) (by decide)
  exact .list (.moreItems (by decide) hnumber (by decide)
    (.item (by decide) (.object (.member hkey (by decide) (.string (.code hhalf .nil)) (by decide))) (by decide)))

theorem gives_mixedSettings :
    GivesSettings [(.preimageFlushThreshold, 0), (.cleanCacheSize, 0)] mixedSettings.toList := by
  have hother : Key (Spells · ['x']) ([] ++ '"' :: ['x'] ++ '"' :: [] ++ [':']) :=
    .colon (by decide) (spells_self (by decide)) (by decide)
  have hthreshold : Key (Spells · (Setting.name .preimageFlushThreshold).toList)
      (['\n'] ++ '"' :: "preimage_flush_threshold".toList ++ '"' :: [] ++ [':']) :=
    .colon (by decide) (spells_self (by decide +kernel)) (by decide)
  have hsize : Key (Spells · (Setting.name .cleanCacheSize).toList)
      ([] ++ '"' :: ('\\' :: ['u', '0', '0', '6', '3'] ++ "lean_cache_size".toList) ++ '"' :: [] ++ [':']) := by
    have hcode : Code ['u', '0', '0', '6', '3'] 'c'.toNat :=
      .digits (.lower (x := 0) (by decide)) (.lower (x := 0) (by decide)) (.lower (x := 6) (by decide))
        (.lower (x := 3) (by decide))
    have hname : (Setting.name .cleanCacheSize).toList = 'c' :: "lean_cache_size".toList := by decide +kernel
    rw [hname]
    exact .colon (by decide) (.code hcode (spells_self (by decide +kernel))) (by decide)
  have hx : ∀ s : Setting, ['x'] ≠ s.name.toList := by
    intro s
    cases s <;> decide +kernel
  have hnone : Blanks [] := by decide
  have hone : Blanks [' '] := by decide
  have hskipped : GivesMember [] _ := .other hx hother hone derives_skippedValue hnone
  have hfirst : GivesMember [(.preimageFlushThreshold, 0)] _ := .setting hthreshold hnone .zero rfl hone
  have hsecond : GivesMember [(.cleanCacheSize, 0)] _ :=
    .setting hsize (by decide : Blanks [' ', ' ']) .zero rfl hnone
  have hgives := GivesSettings.members hone (.more hskipped (.more hfirst (.last hsecond))) (by decide : Blanks ['\n'])
  exact Eq.mp (congrArg (GivesSettings _) (by decide +kernel)) hgives

/-- A working directory in which a directory has the name of the settings file. -/
def occupiedVolume : Volume := (Volume.inDirectory "work").makeDirectories ["work"] ["db.triedb.config"]

theorem inDirectory_work (hwork : v.workingDirectory = ["work"]) (hrelative : database.isAbsolute = false)
    (hparts : database.directoryParts = []) : v.InDirectory database ["work"] := by
  rw [Volume.InDirectory, Volume.start, hrelative, hwork, hparts]
  rfl

/-- Sixteen shards have room for 528 bytes, not for 527, and not where a directory stands. -/
theorem settings_saved_and_loaded_mixed :
    (∃ saved, saveIn (.inDirectory "work") (.ofString "db.triedb") { standard with cleanCacheSize := 528 } =
        (.ok (), saved) ∧
      load saved (.ofString "db.triedb") = .ok { standard with cleanCacheSize := 528 }) ∧
    (∃ fault, saveIn (.inDirectory "work") (.ofString "db.triedb") { standard with cleanCacheSize := 527 } =
      (.error (.config fault), .inDirectory "work")) ∧
    (∃ fault, saveIn occupiedVolume (.ofString "db.triedb") standard = (.error (.io fault), occupiedVolume)) ∧
    ∃ c : Config, c.cleanCacheSize = 0 ∧ c.preimageFlushThreshold = 0 ∧ c.idealBatchSize = standard.idealBatchSize ∧
      load (volumeWithSettings mixedSettings) (.ofString "db.triedb") = .ok c ∧ c.Valid := by
  obtain ⟨hsave, hinvalid, -⟩ := settings_saved_and_loaded (.inDirectory "work") (.ofString "db.triedb")
  obtain ⟨hoccupied, -⟩ := settings_saved_and_loaded occupiedVolume (.ofString "db.triedb")
  obtain ⟨-, -, hmixed, hloads⟩ := settings_saved_and_loaded (volumeWithSettings mixedSettings) (.ofString "db.triedb")
  have hdirectory : (Volume.inDirectory "work").InDirectory (.ofString "db.triedb") ["work"] :=
    inDirectory_work rfl (by decide +kernel) (by decide +kernel)
  have hdirectory' : occupiedVolume.InDirectory (.ofString "db.triedb") ["work"] :=
    inDirectory_work rfl (by decide +kernel) (by decide +kernel)
  have hroom : HasRoom (.inDirectory "work") (.ofString "db.triedb") ["work"] :=
    ⟨by decide +kernel, by decide +kernel, by decide +kernel⟩
  have hfull : ¬ HasRoom occupiedVolume (.ofString "db.triedb") ["work"] := fun hroom => hroom.free (by decide +kernel)
  obtain ⟨c, hget, hload, -⟩ := hmixed mixedSettings _ gives_mixedSettings (by decide) (by decide +kernel)
  have hc : c = { standard with cleanCacheSize := 0, preimageFlushThreshold := 0 } := ext_get fun s => by
    rw [hget]
    cases s <;> rfl
  have hvalid : c.Valid := by
    rw [hc]
    decide
  refine ⟨((hsave _ _ hdirectory).1 hroom).2 (by decide), ?_, (hoccupied _ _ hdirectory').2 hfull (by decide), c, ?_⟩
  · obtain ⟨fault, -, hfails⟩ := hinvalid { standard with cleanCacheSize := 527 } (by decide)
    exact ⟨fault, hfails⟩
  · exact ⟨hget .cleanCacheSize, hget .preimageFlushThreshold, hget .idealBatchSize, hload hvalid,
      hloads c (hload hvalid)⟩

/-- A directory in the place of the settings file is not replaced, however much the settings are
in order. -/
theorem standard_not_saved :
    occupiedVolume.InDirectory (.ofString "db.triedb") ["work"] ∧ standard.Valid ∧
      (saveIn occupiedVolume (.ofString "db.triedb") standard).1 = .error (.io (.os .isADirectory)) :=
  ⟨inDirectory_work rfl (by decide +kernel) (by decide +kernel), by decide, by decide +kernel⟩

end Config

end MerkleBuffer
