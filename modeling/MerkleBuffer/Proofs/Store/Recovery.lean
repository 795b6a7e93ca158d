/-
Opening a store file that was cut.

What a reader takes from the front of some bytes it takes from all longer ones
too (`Reader.Stable`), so a record that was cut cannot be read as another one.
A file that is cut anywhere behind its head therefore opens, and what it holds
are its first records, those that are still whole (`ofFile_take`).
-/
import MerkleBuffer.Proofs.Reader
import MerkleBuffer.Proofs.Store.RecordLog

namespace MerkleBuffer

namespace Reader

variable {ε α : Type}

/-- A reader whose result does not change when the input goes on. -/
def Stable (m : Reader ε α) : Prop :=
  ∀ input more a rest, m input = .ok (a, rest) → m (input ++ more) = .ok (a, rest ++ more)

theorem Prompt.stable {short : ε} {m : Reader ε α} (hm : Prompt short m) : Stable m := by
  intro input more a rest h
  rw [hm input more (by simp [h]), h]
  rfl

end Reader

namespace Record

variable {r : Record} {rs : List Record} {n : Nat}

/-! ## Whole records and cut ones -/

theorem prompt_read : Reader.Prompt () read :=
  (Reader.Prompt.number 2).bind fun keyLength => (Reader.Prompt.number 4).bind fun frameLength =>
    (Reader.Prompt.exact keyLength).bind fun _ => (Reader.Prompt.exact frameLength).bind fun _ => .pure _

theorem read_encode (hfit : r.Fits) (rest : Bytes) : read (r.encode ++ rest) = .ok (r, rest) := by
  have hkey : r.key.length < LittleEndian.capacity 2 := Nat.lt_of_le_of_lt hfit.key (by decide)
  have hframe : r.frame.length < LittleEndian.capacity 4 := Nat.lt_of_le_of_lt hfit.frame (by decide)
  unfold read encode
  rw [List.append_assoc, List.append_assoc, List.append_assoc]
  rw [Reader.bind_apply (Reader.number_encode_append () hkey _),
    Reader.bind_apply (Reader.number_encode_append () hframe _)]
  rw [Reader.bind_apply (Reader.exact_append () r.key _), Reader.bind_apply (Reader.exact_append () r.frame _)]
  rfl

/-- A record that was cut is not read: with the rest behind it, it would be read
as a shorter one. -/
theorem read_take (hfit : r.Fits) (hn : n < r.size) : read (r.encode.take n) = .error () := by
  cases hread : read (r.encode.take n) with
  | error => rfl
  | ok found =>
    have hwhole := prompt_read.stable _ (r.encode.drop n) found.1 found.2 hread
    have hr := read_encode hfit []
    rw [List.append_nil] at hr
    rw [List.take_append_drop, hr] at hwhole
    have hrest : r.encode.drop n = [] :=
      (List.append_eq_nil_iff.1 (congrArg Prod.snd (Except.ok.inj hwhole)).symm).2
    have hlength := congrArg List.length hrest
    rw [List.length_drop, length_encode, List.length_nil] at hlength
    omega

/-- The first records that take at most `n` bytes together. -/
def within (n : Nat) : List Record → List Record
  | [] => []
  | r :: rest => if r.size ≤ n then r :: within (n - r.size) rest else []

theorem within_initial (n : Nat) (rs : List Record) : within n rs <+: rs := by
  induction rs generalizing n with
  | nil => exact List.prefix_rfl
  | cons r rest ih =>
    rw [within]
    split
    · exact (List.prefix_cons_inj r).2 (ih _)
    · exact List.nil_prefix

theorem total_within_le (n : Nat) (rs : List Record) : total ((within n rs).map size) ≤ n := by
  induction rs generalizing n with
  | nil => exact Nat.zero_le n
  | cons r rest ih =>
    rw [within]
    split
    · have hrest := ih (n - r.size)
      rw [List.map_cons, total_cons]
      omega
    · exact Nat.zero_le n

/-- **Reading stops at the first record that is not whole.** -/
theorem readAll_take {fuel : Nat} (hfits : ∀ r ∈ rs, r.Fits) (hfuel : ((rs.flatMap encode).take n).length ≤ fuel) :
    readAll fuel ((rs.flatMap encode).take n) = within n rs := by
  induction rs generalizing n fuel with
  | nil =>
    rw [List.flatMap_nil, List.take_nil]
    cases fuel <;> rfl
  | cons r rest ih =>
    have hfit := hfits r List.mem_cons_self
    rw [List.flatMap_cons, List.take_append, length_encode] at hfuel ⊢
    rw [within]
    split
    · next hle =>
      rw [List.take_of_length_le (by rwa [length_encode])] at hfuel ⊢
      rw [List.length_append, length_encode] at hfuel
      have hpos : 0 < r.size := by
        unfold size headSize
        omega
      obtain ⟨fuel, rfl⟩ : ∃ m, fuel = m + 1 := ⟨fuel - 1, by omega⟩
      have hread : read.run (r.encode ++ (rest.flatMap encode).take (n - r.size)) = _ := read_encode hfit _
      rw [readAll, hread]
      have hrest : readAll fuel ((rest.flatMap encode).take (n - r.size)) = within (n - r.size) rest :=
        ih (fun x hx => hfits x (List.mem_cons_of_mem _ hx)) (by omega)
      simp only [hrest]
    · next hlt =>
      have hnil : n - r.size = 0 := by omega
      have hread : read.run (r.encode.take n) = _ := read_take hfit (Nat.not_le.1 hlt)
      rw [hnil, List.take_zero, List.append_nil]
      cases fuel with
      | zero => rfl
      | succ fuel => rw [readAll, hread]

/-! ## Any bytes at all -/

theorem read_eq_ok {input rest : Bytes} (h : read input = .ok (r, rest)) : input = r.encode ++ rest := by
  obtain ⟨keyLength, afterKeyLength, hkeyLength, h⟩ := Reader.bind_eq_ok h
  obtain ⟨frameLength, afterFrameLength, hframeLength, h⟩ := Reader.bind_eq_ok h
  obtain ⟨key, afterKey, hkey, h⟩ := Reader.bind_eq_ok h
  obtain ⟨frame, afterFrame, hframe, h⟩ := Reader.bind_eq_ok h
  obtain ⟨rfl, rfl⟩ := Prod.mk.inj (Except.ok.inj h)
  obtain ⟨rfl, rfl⟩ := Reader.exact_eq_ok hframe
  obtain ⟨rfl, rfl⟩ := Reader.exact_eq_ok hkey
  rw [Reader.number_eq_ok hkeyLength, Reader.number_eq_ok hframeLength]
  simp [encode]

theorem readAll_initial (fuel : Nat) (input : Bytes) : (readAll fuel input).flatMap encode <+: input := by
  induction fuel generalizing input with
  | zero => exact List.nil_prefix
  | succ fuel ih =>
    rw [readAll]
    split
    · next r rest hread =>
      have hinput : input = r.encode ++ rest := read_eq_ok hread
      rw [List.flatMap_cons, hinput]
      exact (List.prefix_append_right_inj _).2 (ih rest)
    · exact List.nil_prefix

theorem total_ofBytes_le (input : Bytes) : total ((ofBytes input).map size) ≤ input.length := by
  rw [← length_flatMap_encode]
  exact (readAll_initial input.length input).length_le

end Record

namespace RecordLog

theorem take_flatMap_within (n : Nat) (rs : List Record) :
    (rs.flatMap Record.encode).take (total ((Record.within n rs).map Record.size)) =
      (Record.within n rs).flatMap Record.encode := by
  obtain ⟨rest, hrest⟩ := Record.within_initial n rs
  have hflat : rs.flatMap Record.encode =
      (Record.within n rs).flatMap Record.encode ++ rest.flatMap Record.encode := by
    rw [← List.flatMap_append, hrest]
  rw [hflat, ← Record.length_flatMap_encode, List.take_left]

theorem headerFault?_header (rest : Bytes) : headerFault? (header ++ rest) = none := by
  have htake : (header ++ rest).take headerSize = header := List.take_left' length_header
  rw [headerFault?, htake]
  decide

theorem ofFile_truncated {file : Bytes} (h : file.length < headerSize) :
    ofFile file = .error (.invalidFile .truncatedHeader) := by
  have htake : (file.take headerSize).length < headerSize := by
    rw [List.length_take]
    omega
  rw [ofFile, headerFault?, if_pos htake]

theorem le_length_of_ofFile {file : Bytes} {log : RecordLog} (hopen : ofFile file = .ok log) :
    headerSize ≤ file.length := by
  refine Nat.le_of_not_lt fun hlt => ?_
  rw [ofFile_truncated hlt] at hopen
  cases hopen

/-- **A store file that was cut opens**, and holds the records that are whole. -/
theorem ofFile_take {rs : List Record} (hfits : ∀ r ∈ rs, r.Fits) {n : Nat} (hn : headerSize ≤ n) :
    ofFile ((ofRecords rs).file.take n) = .ok (ofRecords (Record.within (n - headerSize) rs)) := by
  have hfile : (ofRecords rs).file.take n = header ++ (rs.flatMap Record.encode).take (n - headerSize) := by
    rw [ofRecords, List.take_append, length_header, List.take_of_length_le (by rwa [length_header])]
  have hdrop : (header ++ (rs.flatMap Record.encode).take (n - headerSize)).drop headerSize =
      (rs.flatMap Record.encode).take (n - headerSize) := List.drop_left' length_header
  have hrecords : Record.ofBytes ((rs.flatMap Record.encode).take (n - headerSize)) =
      Record.within (n - headerSize) rs :=
    Record.readAll_take hfits (Nat.le_refl _)
  have hle := Record.total_within_le (n - headerSize) rs
  rw [ofFile, hfile, headerFault?_header]
  simp only [hdrop, hrecords]
  congr 1
  rw [ofRecords]
  congr 1
  rw [← length_header, List.take_length_add_append, List.take_take, Nat.min_eq_left (by rwa [length_header]),
    take_flatMap_within]

end RecordLog

end MerkleBuffer
