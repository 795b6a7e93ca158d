/-
What a command does that works on a database.

Where the settings load and the store file opens, the command is its work on a new
database over the opened file, and what that leaves in the store stays in the file
(`onDatabase_eq`). Settings that load are in order, and a hash reads back from its digits.
-/
import MerkleBuffer.CommandLine.Run

namespace MerkleBuffer

theorem Config.valid_of_load {v : Volume} {database : Path} {config : Config}
    (hload : Config.load v database = .ok config) : config.Valid := by
  unfold Config.load at hload
  dsimp only at hload
  split at hload
  · split at hload
    · cases hload
    · unfold Config.ofText at hload
      split at hload
      · cases hload
      split at hload
      · cases hload
      split at hload
      · cases hload
      · next hfault =>
        cases hload
        exact hfault
  · cases hload
    exact Config.valid_standard

theorem Database.withConfig_eq {σ : Type} (disk : σ) {config : Config} (hv : config.Valid) :
    Database.withConfig disk config = .ok (.ofValid disk config hv) := by
  unfold Database.withConfig
  split
  · next fault hfault =>
    rw [Config.Valid, hfault] at hv
    cases hv
  · rfl

/-! ## Hashes as arguments -/

namespace Hex

theorem utf8EncodeChar_digit (n : UInt8) : n < 16 →
    String.utf8EncodeChar (digit n) = [UInt8.ofNat (digit n).toNat] ∧ UInt8.ofNat (digit n).toNat ≠ 120 :=
  forall_byte (p := fun n => n < 16 →
    String.utf8EncodeChar (digit n) = [UInt8.ofNat (digit n).toNat] ∧ UInt8.ofNat (digit n).toNat ≠ 120)
    (by decide +kernel) n

theorem utf8_encode (bytes : Bytes) : utf8 (encode bytes) = encodeBytes bytes := by
  have hchars : (digits bytes).flatMap String.utf8EncodeChar = encodeBytes bytes := by
    induction bytes with
    | nil => rfl
    | cons b rest ih =>
      obtain ⟨hhi, hlo, -⟩ := halves b
      have hstep : digits (b :: rest) = digit (b / 16) :: digit (b % 16) :: digits rest := rfl
      have hstep' : encodeBytes (b :: rest) =
          UInt8.ofNat (digit (b / 16)).toNat :: UInt8.ofNat (digit (b % 16)).toNat :: encodeBytes rest := rfl
      rw [hstep, hstep', List.flatMap_cons, List.flatMap_cons, ih, (utf8EncodeChar_digit _ hhi).1,
        (utf8EncodeChar_digit _ hlo).1]
      rfl
  rw [← hchars, utf8, encode, String.toUTF8, String.toByteArray_ofList]
  simp [List.utf8Encode]

end Hex

theorem Hash.ofHex_toHex (h : Hash) : ofHex h.toHex = .ok h := by
  have hmarker : dropMarker (Hex.encodeBytes h.bytes) = Hex.encodeBytes h.bytes := by
    cases h.bytes with
    | nil => rfl
    | cons b rest =>
      have hlo := (Hex.utf8EncodeChar_digit _ (Hex.halves b).2.1).2
      have hstep : Hex.encodeBytes (b :: rest) =
          UInt8.ofNat (Hex.digit (b / 16)).toNat :: UInt8.ofNat (Hex.digit (b % 16)).toNat :: Hex.encodeBytes rest := rfl
      rw [hstep]
      unfold dropMarker
      split
      · next heq => exact absurd (List.cons.inj (List.cons.inj heq).2).1 hlo
      · rfl
  rw [ofHex, toHex, Hex.utf8_encode, hmarker, Hex.decode_encodeBytes]
  simp

namespace CommandLine

/-- **A command that works on a database.** -/
theorem onDatabase_eq {α : Type} {v opened : Volume} {path : String} {config : Config} {file : StoreFile}
    (hload : Config.load v (Path.ofString path) = .ok config)
    (hopen : StoreFile.openOrCreate v path = .ok (file, opened))
    (work : Database RecordLog → Except Failure α × Database RecordLog) :
    onDatabase v path work =
      let outcome := work (.ofValid (file.log opened) config (Config.valid_of_load hload))
      (outcome.1, (file.update opened outcome.2.disk).2) := by
  rw [onDatabase, hload]
  dsimp only
  rw [hopen]
  dsimp only
  rw [Database.withConfig_eq _ (Config.valid_of_load hload)]

theorem fromHash_eq {α : Type} {text : String} {h : Hash} (hhash : Hash.ofHex text = .ok h)
    (work : Hash → Database RecordLog → Except Failure α × Database RecordLog) : fromHash text work = work h := by
  funext db
  rw [fromHash, hashOf, hhash]
  rfl

end CommandLine

end MerkleBuffer
