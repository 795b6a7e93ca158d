/-
Where the settings file stands.

It stands in the directory of the store file (`Volume.InDirectory`), under a name of its own.
It can be written there if the system takes its path and its name, and no directory has this
name (`Config.HasRoom`): just then its path leads to a place for a file (`Config.hasRoom_iff`).
-/
import MerkleBuffer.Config.File
import MerkleBuffer.Proofs.Volume

namespace MerkleBuffer

/-! ## Lists without some elements -/

theorem filter_drop_dropWhile {α : Type} (q : α → Bool) (l : List α) :
    ((l.dropWhile q).drop 1).filter (!q ·) = (l.filter (!q ·)).drop 1 := by
  induction l with
  | nil => rfl
  | cons a l ih =>
    cases hq : q a with
    | true => rw [List.dropWhile_cons_of_pos hq, List.filter_cons_of_neg (by simp [hq]), ih]
    | false =>
      rw [List.dropWhile_cons_of_neg (by simp [hq]), List.filter_cons_of_pos (by simp [hq])]
      rfl

theorem filter_dropWhile {α : Type} (q : α → Bool) (l : List α) :
    (l.dropWhile q).filter (!q ·) = l.filter (!q ·) := by
  induction l with
  | nil => rfl
  | cons a l ih =>
    cases hq : q a with
    | true => rw [List.dropWhile_cons_of_pos hq, List.filter_cons_of_neg (by simp [hq]), ih]
    | false => rw [List.dropWhile_cons_of_neg (by simp [hq])]

/-! ## The directory of a path -/

/-- What leads to the directory in which the last name of a path stands; all of the path if
it does not end in a name. -/
def Path.directoryParts (p : Path) : List String :=
  if p.fileName?.isSome then (p.parts.filter (· ≠ ".")).dropLast else p.parts

/-- A path leads into a directory. -/
def Volume.InDirectory (v : Volume) (path : Path) (directory : List String) : Prop :=
  v.walk (v.start path) path.directoryParts = .ok ⟨directory, some .directory⟩

namespace Path

variable {p : Path}

theorem filter_piecesAbove (p : Path) :
    p.piecesAbove.filter (!isIdle ·) = (p.pieces.filter (!isIdle ·)).dropLast := by
  have habove : (((p.pieces.reverse.dropWhile isIdle).drop 1).dropWhile isIdle).reverse.filter (!isIdle ·) =
      (p.pieces.filter (!isIdle ·)).dropLast := by
    rw [List.filter_reverse, filter_dropWhile, filter_drop_dropWhile, List.filter_reverse, List.drop_one,
      List.tail_reverse, List.reverse_reverse]
  unfold piecesAbove
  dsimp only
  split
  · next hempty =>
    rw [← habove, List.isEmpty_iff.1 hempty, List.reverse_nil, List.filter_filter]
    refine List.filter_eq_nil_iff.2 fun piece _ => ?_
    simp
  · exact habove

theorem filter_parts (p : Path) : p.parts.filter (· ≠ ".") = p.pieces.filter (!isIdle ·) := by
  rw [parts, List.filter_filter]
  refine List.filter_congr fun piece _ => ?_
  by_cases hempty : piece = "" <;> by_cases hdot : piece = "." <;> simp [isIdle, hempty, hdot]

/-- The pieces in front of a file that stands beside the last name of a path. -/
def piecesBeside (p : Path) : List String :=
  if p.fileName?.isSome then p.piecesAbove
  else if p.pieces.getLast? = some "" then p.pieces.dropLast else p.pieces

theorem withFileName_eq (p : Path) (name : String) : p.withFileName name = ⟨p.piecesBeside ++ [name]⟩ := by
  unfold withFileName piecesBeside
  split <;> rfl

theorem walk_piecesBeside (v : Volume) (p : Path) (start directory : List String) :
    v.walk start (p.piecesBeside.filter (· ≠ "")) = .ok ⟨directory, some .directory⟩ ↔
      v.walk start p.directoryParts = .ok ⟨directory, some .directory⟩ := by
  unfold piecesBeside directoryParts
  split
  · have hparts : (p.piecesAbove.filter (· ≠ "")).filter (· ≠ ".") = (p.parts.filter (· ≠ ".")).dropLast := by
      rw [filter_parts, ← filter_piecesAbove]
      exact filter_parts ⟨p.piecesAbove⟩
    rw [← Volume.walk_filter_dots, hparts]
  split
  · next hlast =>
    obtain ⟨above, hpieces⟩ := List.getLast?_eq_some_iff.1 hlast
    have hparts : p.pieces.dropLast.filter (· ≠ "") = p.parts := by
      rw [parts, hpieces]
      simp
    rw [hparts]
  · exact Iff.rfl

/-- What is above a name starts where the path starts. -/
theorem head?_piecesAbove (hname : p.fileName?.isSome) :
    p.piecesAbove.head? = some "" ↔ 1 < p.pieces.length ∧ p.pieces.head? = some "" := by
  unfold piecesAbove
  dsimp only
  split
  · cases hpieces : p.pieces with
    | nil => simp
    | cons piece rest =>
      by_cases hempty : piece = ""
      · subst hempty
        cases rest with
        | nil =>
          -- the empty path has no name
          rw [fileName?, parts, hpieces] at hname
          cases hname
        | cons _ _ => simp [isIdle]
      · by_cases hdot : piece = "." <;> simp [isIdle, hempty, hdot]
  · next hne =>
    have hlast := List.dropWhile_suffix isIdle (l := p.pieces.reverse)
    generalize p.pieces.reverse.dropWhile isIdle = fromLast at hne hlast
    cases fromLast with
    | nil => exact absurd rfl hne
    | cons last below =>
      obtain ⟨behind, hbehind⟩ := hlast
      obtain ⟨idle, hidle⟩ := List.dropWhile_suffix isIdle (l := below)
      rw [List.drop_one, List.tail_cons] at hne ⊢
      generalize below.dropWhile isIdle = above at hne hidle ⊢
      have hpieces : p.pieces = above.reverse ++ (idle.reverse ++ last :: behind.reverse) := by
        rw [← List.reverse_reverse p.pieces, ← hbehind, ← hidle]
        simp
      rw [hpieces]
      cases habove : above.reverse with
      | nil => exact absurd (by simpa using habove) hne
      | cons first _ =>
        refine ⟨fun hhead => ⟨?_, hhead⟩, And.right⟩
        simp only [List.length_append, List.length_cons]
        omega

theorem isAbsolute_withFileName (p : Path) (name : String) : (p.withFileName name).isAbsolute = p.isAbsolute := by
  have hbeside : (p.withFileName name).isAbsolute = decide (p.piecesBeside.head? = some "") := by
    rw [withFileName_eq, isAbsolute]
    cases p.piecesBeside <;> simp
  have hhead : p.piecesBeside.head? = some "" ↔ 1 < p.pieces.length ∧ p.pieces.head? = some "" := by
    unfold piecesBeside
    split
    · next hname => exact head?_piecesAbove hname
    split
    · next hlast =>
      obtain ⟨above, hpieces⟩ := List.getLast?_eq_some_iff.1 hlast
      rw [hpieces, List.dropLast_concat]
      cases above <;> simp
    · next hlast =>
      cases hpieces : p.pieces with
      | nil => simp
      | cons piece rest =>
        cases rest with
        | nil => simpa [hpieces] using hlast
        | cons _ _ => simp
  rw [hbeside, isAbsolute, decide_eq_decide.2 hhead, Bool.decide_and]

end Path

/-! ## The settings file -/

namespace Config

variable {v : Volume} {database : Path} {directory : List String}

/-- The name of the settings file of a store file. -/
def fileNameOf (database : Path) : String := database.fileName?.getD defaultFileName ++ ".config"

/-- The settings file can be written in a directory: the system takes its path and its name,
and no directory has this name. -/
structure HasRoom (v : Volume) (database : Path) (directory : List String) : Prop where
  fault : (fileOf database).fault? = none
  short : (fileNameOf database).utf8ByteSize ≤ Volume.maxNameLength
  free : v.entries[directory ++ [fileNameOf database]]? ≠ some .directory

theorem pieces_fileOf (database : Path) : (fileOf database).pieces = database.piecesBeside ++ [fileNameOf database] :=
  congrArg Path.pieces (database.withFileName_eq (fileNameOf database))

theorem fileNameOf_ne {name : String} (hname : name.length < 7) : fileNameOf database ≠ name := by
  intro heq
  have hlength := congrArg String.length heq
  rw [fileNameOf, String.length_append] at hlength
  have hseven : ".config".length = 7 := rfl
  omega

theorem hasSlash_fileOf (database : Path) : (fileOf database).hasSlash = false := by
  have hne : fileNameOf database ≠ "" := fileNameOf_ne (by decide)
  rw [Path.hasSlash, pieces_fileOf, List.getLast?_concat]
  simp [hne]

theorem walk_fileNameOf (v : Volume) (database : Path) (directory : List String) :
    v.walk directory [fileNameOf database] =
      if Volume.maxNameLength < (fileNameOf database).utf8ByteSize then .error .nameTooLong
      else .ok ⟨directory ++ [fileNameOf database], v.entries[directory ++ [fileNameOf database]]?⟩ := by
  rw [Volume.walk, if_neg (fileNameOf_ne (by decide)), if_neg (fileNameOf_ne (by decide))]
  by_cases hlong : Volume.maxNameLength < (fileNameOf database).utf8ByteSize
  · rw [if_pos hlong, if_pos hlong]
  rw [if_neg hlong, if_neg hlong]
  dsimp only
  cases hentry : v.entries[directory ++ [fileNameOf database]]? with
  | none => rfl
  | some entry => cases entry <;> rfl

/-- The path of the settings file goes through the directory. -/
theorem walk_fileOf (hdirectory : v.InDirectory database directory) :
    v.walk (v.start (fileOf database)) (fileOf database).parts = v.walk directory [fileNameOf database] := by
  have hne : fileNameOf database ≠ "" := fileNameOf_ne (by decide)
  have hparts : (fileOf database).parts = database.piecesBeside.filter (· ≠ "") ++ [fileNameOf database] := by
    rw [Path.parts, pieces_fileOf, List.filter_append, List.filter_cons_of_pos (by simpa using hne), List.filter_nil]
  have hstart : v.start (fileOf database) = v.start database := by
    rw [Volume.start, Volume.start, fileOf, Path.isAbsolute_withFileName]
  rw [hstart, hparts]
  exact Volume.walk_append ((Path.walk_piecesBeside v database (v.start database) directory).2 hdirectory) _

/-- **The settings file can be written where its path leads to it.** -/
theorem hasRoom_iff (hdirectory : v.InDirectory database directory) :
    HasRoom v database directory ↔ ∃ place file, v.LeadsTo (fileOf database) place file := by
  constructor
  · intro hroom
    have hwalk := (walk_fileOf hdirectory).trans (walk_fileNameOf v database directory)
    rw [if_neg (Nat.not_lt.2 hroom.short)] at hwalk
    cases hentry : v.entries[directory ++ [fileNameOf database]]? with
    | none =>
      rw [hentry] at hwalk
      exact ⟨_, none, hroom.fault, hasSlash_fileOf database, hwalk⟩
    | some entry =>
      rw [hentry] at hwalk
      cases entry with
      | directory => exact absurd hentry hroom.free
      | file id => exact ⟨_, some id, hroom.fault, hasSlash_fileOf database, hwalk⟩
  · rintro ⟨place, file, hlead⟩
    have hwalk := hlead.walk
    rw [walk_fileOf hdirectory, walk_fileNameOf] at hwalk
    split at hwalk
    · cases hwalk
    · next hshort =>
      injection hwalk with hfound
      have hentry := congrArg Volume.Found.entry hfound
      dsimp only at hentry
      exact ⟨hlead.fault, Nat.not_lt.1 hshort, hentry ▸ Volume.LeadsTo.ne_directory file⟩

end Config

end MerkleBuffer
