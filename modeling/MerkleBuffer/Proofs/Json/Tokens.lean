/-
What the readers of tokens make of the texts of the grammar.

The readers take bytes, so a text of the grammar is first written in UTF-8 (`utf8Chars`). A
string is read for the text that it means (`readString_spells`), and got past whatever it
means (`skipString_content`). A number ends where no digit, point or exponent mark follows
(`NumberEnds`); one without sign, point and exponent is read for its value
(`readNumber_whole`).
-/
import MerkleBuffer.Json.Number
import MerkleBuffer.Proofs.Json.Grammar

namespace MerkleBuffer

open JsonGrammar

/-! ## Characters in UTF-8 -/

/-- The UTF-8 bytes of some characters. -/
def utf8Chars (cs : List Char) : Bytes := cs.flatMap String.utf8EncodeChar

theorem utf8_eq (text : String) : utf8 text = utf8Chars text.toList := by
  rw [utf8, String.toUTF8, ← String.utf8Encode_toList]
  simp [List.utf8Encode, utf8Chars]

@[simp] theorem utf8Chars_nil : utf8Chars [] = [] := rfl

@[simp] theorem utf8Chars_append (a b : List Char) : utf8Chars (a ++ b) = utf8Chars a ++ utf8Chars b :=
  List.flatMap_append

theorem utf8Chars_cons (c : Char) (cs : List Char) : utf8Chars (c :: cs) = String.utf8EncodeChar c ++ utf8Chars cs :=
  rfl

theorem utf8EncodeChar_ascii {c : Char} (hc : c.toNat < 128) : String.utf8EncodeChar c = [Ascii.ofChar c] := by
  have hle : c.val.toNat ≤ 127 := Nat.le_of_lt_succ hc
  simp only [String.utf8EncodeChar, if_pos hle]
  rfl

theorem utf8Chars_ascii {c : Char} (hc : c.toNat < 128) (cs : List Char) :
    utf8Chars (c :: cs) = Ascii.ofChar c :: utf8Chars cs := by
  rw [utf8Chars_cons, utf8EncodeChar_ascii hc]
  rfl

theorem forall_utf8Chars {p : Char → Prop} {q : UInt8 → Prop}
    (h : ∀ c, p c → c.toNat < 128 ∧ q (Ascii.ofChar c)) {cs : List Char} (hcs : ∀ c ∈ cs, p c) :
    ∀ b ∈ utf8Chars cs, q b := by
  intro b hb
  obtain ⟨c, hc, hb⟩ := List.mem_flatMap.1 hb
  obtain ⟨hascii, hq⟩ := h c (hcs c hc)
  rw [utf8EncodeChar_ascii hascii, List.mem_singleton] at hb
  exact hb ▸ hq

theorem le_of_mem_utf8EncodeChar {c : Char} (hc : 128 ≤ c.toNat) {b : UInt8} (hb : b ∈ String.utf8EncodeChar c) :
    128 ≤ b.toNat := by
  have hlarge : ¬ c.val.toNat ≤ 127 := Nat.not_le.2 hc
  simp only [String.utf8EncodeChar, if_neg hlarge] at hb
  split at hb
  · simp only [List.mem_cons, List.not_mem_nil, or_false] at hb
    rcases hb with rfl | rfl <;> rw [UInt8.toNat_ofNat'] <;> omega
  split at hb
  · simp only [List.mem_cons, List.not_mem_nil, or_false] at hb
    rcases hb with rfl | rfl | rfl <;> rw [UInt8.toNat_ofNat'] <;> omega
  · simp only [List.mem_cons, List.not_mem_nil, or_false] at hb
    rcases hb with rfl | rfl | rfl | rfl <;> rw [UInt8.toNat_ofNat'] <;> omega

namespace JsonReader

variable {t name text w ds : List Char} {rest : Bytes} {b : UInt8}

/-! ## Blanks and words -/

theorem isBlank_of_mem (hw : Blanks w) : ∀ b ∈ utf8Chars w, isBlank b = true := by
  refine forall_utf8Chars (p := (· ∈ [' ', '\t', '\n', '\r'])) (fun c hc => ?_) hw
  simp only [List.mem_cons, List.not_mem_nil, or_false] at hc
  rcases hc with rfl | rfl | rfl | rfl <;> decide

theorem skipBlanks_blanks (hw : Blanks w) (input : Bytes) : skipBlanks (utf8Chars w ++ input) = skipBlanks input :=
  List.dropWhile_append_of_pos (isBlank_of_mem hw)

theorem skipBlanks_of_not (hb : isBlank b = false) (rest : Bytes) : skipBlanks (b :: rest) = b :: rest := by
  rw [skipBlanks, List.dropWhile_cons, hb]
  rfl

theorem skipWord_append (word rest : Bytes) : skipWord word (word ++ rest) = .ok rest := by
  induction word with
  | nil => rfl
  | cons b word ih =>
    rw [List.cons_append, skipWord, if_pos rfl]
    exact ih

/-! ## Strings -/

/-- A byte that stands for itself inside quotes. -/
def PlainByte (b : UInt8) : Prop := b ≠ Ascii.quote ∧ b ≠ Ascii.backslash ∧ ¬ b < 32

theorem plainByte_of_plain {c : Char} (hc : Plain c) (hb : b ∈ String.utf8EncodeChar c) : PlainByte b := by
  obtain ⟨hquote, hbackslash, hcontrol⟩ := hc
  have hne : ∀ {n : Nat}, n < 128 → c ≠ Char.ofNat n → b.toNat ≠ n ∧ 32 ≤ b.toNat := by
    intro n hn hne
    by_cases hascii : c.toNat < 128
    · rw [utf8EncodeChar_ascii hascii, List.mem_singleton] at hb
      have hval : b.toNat = c.toNat := by
        rw [hb, Ascii.ofChar, Nat.toUInt8, UInt8.toNat_ofNat']
        omega
      rw [hval]
      exact ⟨fun heq => hne (by rw [← heq, Char.ofNat_toNat]), hcontrol⟩
    · have hlarge := le_of_mem_utf8EncodeChar (Nat.not_lt.1 hascii) hb
      omega
  refine ⟨fun heq => ?_, fun heq => ?_, fun hlt => ?_⟩
  · exact (hne (n := 34) (by decide) hquote).1 (by rw [heq]; rfl)
  · exact (hne (n := 92) (by decide) hbackslash).1 (by rw [heq]; rfl)
  · exact absurd (UInt8.lt_iff_toNat_lt.1 hlt) (Nat.not_lt.2 (hne (n := 34) (by decide) hquote).2)

theorem value?_hexDigit {d : Char} {x : Nat} (hd : HexDigit d x) :
    d.toNat < 128 ∧ x < 16 ∧ Hex.value? (Ascii.ofChar d) = some (UInt8.ofNat x) := by
  cases hd with
  | lower hx => exact (by decide : ∀ x < 16, x.digitChar.toNat < 128 ∧ x < 16 ∧
      Hex.value? (Ascii.ofChar x.digitChar) = some (UInt8.ofNat x)) x hx
  | upper hx => exact (by decide : ∀ x < 16, x.digitChar.toUpper.toNat < 128 ∧ x < 16 ∧
      Hex.value? (Ascii.ofChar x.digitChar.toUpper) = some (UInt8.ofNat x)) x hx

theorem hexNumber?_code {code : List Char} {n : Nat} (hn : Code code n) : ∃ h₁ h₂ h₃ h₄ : UInt8,
    utf8Chars code = [Ascii.ofChar 'u', h₁, h₂, h₃, h₄] ∧ hexNumber? h₁ h₂ h₃ h₄ = some n := by
  cases hn with
  | @digits a b c d x y z w ha hb hc hd =>
    obtain ⟨ha', hx, hax⟩ := value?_hexDigit ha
    obtain ⟨hb', hy, hby⟩ := value?_hexDigit hb
    obtain ⟨hc', hz, hcz⟩ := value?_hexDigit hc
    obtain ⟨hd', hw, hdw⟩ := value?_hexDigit hd
    refine ⟨Ascii.ofChar a, Ascii.ofChar b, Ascii.ofChar c, Ascii.ofChar d, ?_, ?_⟩
    · rw [utf8Chars_ascii (by decide), utf8Chars_ascii ha', utf8Chars_ascii hb', utf8Chars_ascii hc',
        utf8Chars_ascii hd', utf8Chars_nil]
    · have hvalue : ∀ {v : Nat}, v < 16 → (UInt8.ofNat v).toNat = v := fun hv => by
        rw [UInt8.toNat_ofNat']
        omega
      rw [hexNumber?, hax, hby, hcz, hdw]
      simp only [Option.bind_eq_bind, Option.bind_some, List.foldl_cons, List.foldl_nil, hvalue hx, hvalue hy,
        hvalue hz, hvalue hw]
      exact congrArg some (by omega)

theorem shortEscape?_of_mem {e c : Char} (he : (e, c) ∈ shortEscapes) : e.toNat < 128 ∧ c.toNat < 128 ∧
    Ascii.ofChar e ≠ Ascii.ofChar 'u' ∧ shortEscape? (Ascii.ofChar e) = some (Ascii.ofChar c) :=
  (by decide : ∀ p ∈ shortEscapes, p.1.toNat < 128 ∧ p.2.toNat < 128 ∧ Ascii.ofChar p.1 ≠ Ascii.ofChar 'u' ∧
    shortEscape? (Ascii.ofChar p.1) = some (Ascii.ofChar p.2)) (e, c) he

/-! ### Getting past strings -/

theorem skipString_plain (hb : PlainByte b) (rest : Bytes) : skipString (b :: rest) = skipString rest := by
  obtain ⟨hquote, hbackslash, hcontrol⟩ := hb
  rw [skipString, if_neg hquote, if_neg hcontrol]
  exact hbackslash

theorem skipString_plains {bs : Bytes} (hbs : ∀ b ∈ bs, PlainByte b) (rest : Bytes) :
    skipString (bs ++ rest) = skipString rest := by
  induction bs with
  | nil => rfl
  | cons b bs ih =>
    rw [List.cons_append, skipString_plain (hbs b List.mem_cons_self),
      ih fun b' hb' => hbs b' (List.mem_cons_of_mem _ hb')]

theorem skipString_short {e c : UInt8} (he : e ≠ Ascii.ofChar 'u') (hc : shortEscape? e = some c) (rest : Bytes) :
    skipString (Ascii.backslash :: e :: rest) = skipString rest := by
  rw [skipString.eq_def]
  refine (if_neg he).trans ?_
  rw [hc]
  rfl

theorem skipString_code {h₁ h₂ h₃ h₄ : UInt8} {n : Nat} (hn : hexNumber? h₁ h₂ h₃ h₄ = some n) (rest : Bytes) :
    skipString (Ascii.backslash :: Ascii.ofChar 'u' :: h₁ :: h₂ :: h₃ :: h₄ :: rest) = skipString rest := by
  refine (if_pos rfl).trans ?_
  rw [hn]
  rfl

/-- What may stand inside quotes is got past. -/
theorem skipString_content (ht : Content t) (rest : Bytes) :
    skipString (utf8Chars t ++ Ascii.quote :: rest) = .ok rest := by
  induction ht with
  | nil => rfl
  | plain hc ht ih =>
    rw [utf8Chars_cons, List.append_assoc, skipString_plains fun b hb => plainByte_of_plain hc hb]
    exact ih
  | short he ht ih =>
    obtain ⟨hascii, -, hnotCode, hescape⟩ := shortEscape?_of_mem he
    rw [utf8Chars_ascii (by decide), utf8Chars_ascii hascii]
    exact (skipString_short hnotCode hescape _).trans ih
  | code hn ht ih =>
    obtain ⟨h₁, h₂, h₃, h₄, hbytes, hhex⟩ := hexNumber?_code hn
    rw [List.cons_append, utf8Chars_ascii (by decide), utf8Chars_append, hbytes]
    exact (skipString_code hhex _).trans ih

/-! ### Reading strings -/

section Reading

variable {after text : Bytes} {h₁ h₂ h₃ h₄ : UInt8} {n : Nat}

theorem readStringFrom_plain (hb : PlainByte b) (h : readStringFrom none rest = .ok (text, after)) :
    readStringFrom none (b :: rest) = .ok (b :: text, after) := by
  obtain ⟨hquote, hbackslash, hcontrol⟩ := hb
  rw [readStringFrom, if_neg (by simp), if_neg hquote, if_neg hcontrol, h]
  · rfl
  · exact hbackslash

theorem readStringFrom_plains {bs : Bytes} (hbs : ∀ b ∈ bs, PlainByte b)
    (h : readStringFrom none rest = .ok (text, after)) :
    readStringFrom none (bs ++ rest) = .ok (bs ++ text, after) := by
  induction bs with
  | nil => exact h
  | cons b bs ih =>
    exact readStringFrom_plain (hbs b List.mem_cons_self) (ih fun b' hb' => hbs b' (List.mem_cons_of_mem _ hb'))

theorem readStringFrom_short {e c : UInt8} (he : e ≠ Ascii.ofChar 'u') (hc : shortEscape? e = some c)
    (h : readStringFrom none rest = .ok (text, after)) :
    readStringFrom none (Ascii.backslash :: e :: rest) = .ok (c :: text, after) := by
  rw [readStringFrom.eq_def]
  refine (if_neg he).trans ?_
  rw [if_neg (by simp), hc, h]
  rfl

theorem readStringFrom_code (hn : hexNumber? h₁ h₂ h₃ h₄ = some n) (hhigh : isHighSurrogate n = false)
    (hlow : isLowSurrogate n = false) (h : readStringFrom none rest = .ok (text, after)) :
    readStringFrom none (Ascii.backslash :: Ascii.ofChar 'u' :: h₁ :: h₂ :: h₃ :: h₄ :: rest) =
      .ok (utf8 (Char.ofNat n).toString ++ text, after) := by
  refine (if_pos rfl).trans ?_
  simp only [hn, hhigh, hlow, Bool.false_eq_true, if_false]
  rw [h]
  rfl

/-- The second half of a surrogate pair follows the first one. -/
theorem readStringFrom_high (hn : hexNumber? h₁ h₂ h₃ h₄ = some n) (hhigh : isHighSurrogate n = true)
    (hlow : isLowSurrogate n = false) (rest : Bytes) :
    readStringFrom none (Ascii.backslash :: Ascii.ofChar 'u' :: h₁ :: h₂ :: h₃ :: h₄ :: rest) =
      readStringFrom (some n) rest := by
  refine (if_pos rfl).trans ?_
  simp only [hn, hhigh, hlow, Bool.false_eq_true, if_false, if_true]

theorem readStringFrom_low {high : Nat} (hn : hexNumber? h₁ h₂ h₃ h₄ = some n) (hlow : isLowSurrogate n = true)
    (h : readStringFrom none rest = .ok (text, after)) :
    readStringFrom (some high) (Ascii.backslash :: Ascii.ofChar 'u' :: h₁ :: h₂ :: h₃ :: h₄ :: rest) =
      .ok (utf8 (pairedChar high n).toString ++ text, after) := by
  refine (if_pos rfl).trans ?_
  simp only [hn, hlow, if_true]
  rw [h]
  rfl

end Reading

theorem utf8_char (c : Char) : utf8 c.toString = String.utf8EncodeChar c := by
  rw [utf8_eq, Char.toString, String.toList_singleton, utf8Chars_cons, utf8Chars_nil, List.append_nil]

theorem toNat_not_surrogate (c : Char) : isHighSurrogate c.toNat = false ∧ isLowSurrogate c.toNat = false := by
  have hc : c.toNat < 0xD800 ∨ 0xDFFF < c.toNat ∧ c.toNat < 0x110000 := c.valid
  simp only [isHighSurrogate, isLowSurrogate, Bool.and_eq_false_iff, decide_eq_false_iff_not]
  omega

theorem high_surrogate {x : Nat} (hx : x < 0x400) :
    isHighSurrogate (0xD800 + x) = true ∧ isLowSurrogate (0xD800 + x) = false := by
  simp only [isHighSurrogate, isLowSurrogate, Bool.and_eq_true, Bool.and_eq_false_iff, decide_eq_true_eq,
    decide_eq_false_iff_not]
  omega

theorem low_surrogate {y : Nat} (hy : y < 0x400) : isLowSurrogate (0xDC00 + y) = true := by
  simp only [isLowSurrogate, Bool.and_eq_true, decide_eq_true_eq]
  omega

/-- **A string reads as the text that it means.** -/
theorem readString_spells (ht : Spells t name) (rest : Bytes) :
    readString (utf8Chars t ++ Ascii.quote :: rest) = .ok (utf8Chars name, rest) := by
  unfold readString
  induction ht with
  | nil => rfl
  | plain hc ht ih =>
    rw [utf8Chars_cons, List.append_assoc]
    exact readStringFrom_plains (fun b hb => plainByte_of_plain hc hb) ih
  | short he ht ih =>
    obtain ⟨hascii, hascii', hnotCode, hescape⟩ := shortEscape?_of_mem he
    rw [utf8Chars_ascii (by decide), utf8Chars_ascii hascii, utf8Chars_ascii hascii']
    exact readStringFrom_short hnotCode hescape ih
  | @code code t name c hn ht ih =>
    obtain ⟨h₁, h₂, h₃, h₄, hbytes, hhex⟩ := hexNumber?_code hn
    obtain ⟨hhigh, hlow⟩ := toNat_not_surrogate c
    rw [List.cons_append, utf8Chars_ascii (by decide), utf8Chars_append, hbytes, utf8Chars_cons, ← utf8_char,
      ← Char.ofNat_toNat c]
    exact readStringFrom_code hhex hhigh hlow ih
  | @pair code code' t name c x y hx hy hx' hy' hc ht ih =>
    obtain ⟨h₁, h₂, h₃, h₄, hbytes, hhex⟩ := hexNumber?_code hx
    obtain ⟨l₁, l₂, l₃, l₄, hbytes', hhex'⟩ := hexNumber?_code hy
    obtain ⟨hhigh, hnotLow⟩ := high_surrogate hx'
    have hlow := low_surrogate hy'
    have hpair : pairedChar (0xD800 + x) (0xDC00 + y) = c := by
      rw [← Char.ofNat_toNat c, hc, pairedChar]
      exact congrArg Char.ofNat (by omega)
    have htext : utf8Chars ('\\' :: code ++ '\\' :: code' ++ t) ++ Ascii.quote :: rest =
        Ascii.backslash :: Ascii.ofChar 'u' :: h₁ :: h₂ :: h₃ :: h₄ ::
          Ascii.backslash :: Ascii.ofChar 'u' :: l₁ :: l₂ :: l₃ :: l₄ :: (utf8Chars t ++ Ascii.quote :: rest) := by
      rw [utf8Chars_append, utf8Chars_append, utf8Chars_ascii (by decide), utf8Chars_ascii (by decide), hbytes, hbytes']
      rfl
    rw [htext, readStringFrom_high hhex hhigh hnotLow, readStringFrom_low hhex' hlow ih, hpair, utf8_char,
      utf8Chars_cons]

/-! ## Numbers -/

/-- Behind a number stands nothing that it could go on with. -/
def NumberEnds (rest : Bytes) : Prop :=
  ∀ b ∈ rest.head?, Ascii.isDigit b = false ∧ b ≠ Ascii.point ∧ isExponentMark b = false

theorem ascii_of_isDigit {d : Char} (hd : d.isDigit = true) :
    d.toNat < 128 ∧ Ascii.isDigit (Ascii.ofChar d) = true ∧ Ascii.digitValue (Ascii.ofChar d) = d.toNat - 48 := by
  have hbounds : 48 ≤ d.toNat ∧ d.toNat ≤ 57 := by simpa [Char.isDigit, UInt32.le_iff_toNat_le] using hd
  have hval : (Ascii.ofChar d).toNat = d.toNat := by
    rw [Ascii.ofChar, Nat.toUInt8, UInt8.toNat_ofNat']
    omega
  refine ⟨by omega, ?_, by rw [Ascii.digitValue, hval]⟩
  simp only [Ascii.isDigit, Bool.and_eq_true, decide_eq_true_eq, UInt8.le_iff_toNat_le, hval]
  exact hbounds

theorem isDigit_of_mem (hds : ∀ d ∈ ds, d.isDigit = true) : ∀ b ∈ utf8Chars ds, Ascii.isDigit b = true :=
  forall_utf8Chars (fun _ hd => ⟨(ascii_of_isDigit hd).1, (ascii_of_isDigit hd).2.1⟩) hds

theorem takeWhile_digits (hds : ∀ d ∈ ds, d.isDigit = true) (hrest : ∀ b ∈ rest.head?, Ascii.isDigit b = false) :
    (utf8Chars ds ++ rest).takeWhile Ascii.isDigit = utf8Chars ds ∧
      (utf8Chars ds ++ rest).dropWhile Ascii.isDigit = rest := by
  rw [List.takeWhile_append_of_pos (isDigit_of_mem hds), List.dropWhile_append_of_pos (isDigit_of_mem hds)]
  cases rest with
  | nil => simp
  | cons b rest =>
    have hb : Ascii.isDigit b = false := hrest b rfl
    simp [hb]

theorem ofChar_ne_zero {d : Char} (hascii : d.toNat < 128) (hne : d ≠ '0') : Ascii.ofChar d ≠ Ascii.zero := by
  intro heq
  have hval : d.toNat % 2 ^ 8 = 48 := by
    have h := congrArg UInt8.toNat heq
    rwa [Ascii.ofChar, Nat.toUInt8, UInt8.toNat_ofNat'] at h
  exact hne (Char.toNat_inj.1 (show d.toNat = 48 by omega))

theorem digits_eq_cons (hds : Digits ds) : ∃ b bs, utf8Chars ds = b :: bs ∧ Ascii.isDigit b = true := by
  obtain ⟨hne, hall⟩ := hds
  cases ds with
  | nil => exact absurd rfl hne
  | cons d ds =>
    obtain ⟨hascii, hdigit, -⟩ := ascii_of_isDigit (hall d List.mem_cons_self)
    exact ⟨_, _, utf8Chars_ascii hascii ds, hdigit⟩

/-! ### Getting past numbers -/

theorem skipExponent_digits {sign : List Char} (hsign : sign ∈ [[], ['+'], ['-']]) (hds : Digits ds)
    (hrest : NumberEnds rest) : skipExponent (utf8Chars sign ++ (utf8Chars ds ++ rest)) = .ok rest := by
  obtain ⟨b, bs, hbs, hb⟩ := digits_eq_cons hds
  have hsigned : (exponentSign (utf8Chars sign ++ (utf8Chars ds ++ rest))).2 = utf8Chars ds ++ rest := by
    simp only [List.mem_cons, List.not_mem_nil, or_false] at hsign
    rcases hsign with rfl | rfl | rfl
    · rw [hbs]
      unfold exponentSign
      split
      · next heq => cases heq; cases hb
      · next heq => cases heq; cases hb
      · rfl
    · rfl
    · rfl
  have hdrop := (takeWhile_digits hds.2 fun b hb => (hrest b hb).1).2
  rw [hbs, List.cons_append, List.dropWhile_cons_of_pos hb] at hdrop
  rw [skipExponent, hsigned, hbs]
  dsimp only [List.cons_append]
  rw [if_pos hb, hdrop]

theorem skipScale_exponent {exponent : List Char} (he : Exponent exponent) (hrest : NumberEnds rest) :
    skipScale (utf8Chars exponent ++ rest) = .ok rest := by
  cases he with
  | none =>
    cases rest with
    | nil => rfl
    | cons b rest =>
      have hmark : isExponentMark b = false := (hrest b rfl).2.2
      rw [utf8Chars_nil, List.nil_append, skipScale, hmark]
      rfl
  | @digits e sign ds he hsign hds =>
    obtain ⟨hascii, hmark⟩ : e.toNat < 128 ∧ isExponentMark (Ascii.ofChar e) = true := by
      simp only [List.mem_cons, List.not_mem_nil, or_false] at he
      rcases he with rfl | rfl <;> decide
    rw [utf8Chars_append, utf8Chars_ascii hascii, List.append_assoc, List.cons_append, skipScale, if_pos hmark]
    exact skipExponent_digits hsign hds hrest

/-- An exponent does not start as a number or a fraction goes on. -/
theorem head_exponent {exponent : List Char} (he : Exponent exponent) (hrest : NumberEnds rest) :
    ∀ b ∈ (utf8Chars exponent ++ rest).head?, Ascii.isDigit b = false ∧ b ≠ Ascii.point := by
  cases he with
  | none => exact fun b hb => ⟨(hrest b hb).1, (hrest b hb).2.1⟩
  | @digits e sign ds he hsign hds =>
    simp only [List.mem_cons, List.not_mem_nil, or_false] at he
    rcases he with rfl | rfl
    all_goals
      rw [List.cons_append, utf8Chars_ascii (by decide)]
      rintro b ⟨⟩
      decide

theorem skipFraction_parts {fraction exponent : List Char} (hf : Fraction fraction) (he : Exponent exponent)
    (hrest : NumberEnds rest) : skipFraction (utf8Chars fraction ++ (utf8Chars exponent ++ rest)) = .ok rest := by
  have hhead := head_exponent he hrest
  cases hf with
  | none =>
    refine Eq.trans ?_ (skipScale_exponent he hrest)
    rw [utf8Chars_nil, List.nil_append]
    unfold skipFraction
    split
    · next heq =>
      rw [heq] at hhead
      exact absurd rfl (hhead _ rfl).2
    · rfl
  | @digits ds hds =>
    obtain ⟨htake, hdrop⟩ := takeWhile_digits hds.2 fun b hb => (hhead b hb).1
    obtain ⟨b, bs, hbs, -⟩ := digits_eq_cons hds
    rw [utf8Chars_ascii (by decide), List.cons_append]
    change (if ((utf8Chars ds ++ (utf8Chars exponent ++ rest)).takeWhile Ascii.isDigit).isEmpty then _ else
      skipScale ((utf8Chars ds ++ (utf8Chars exponent ++ rest)).dropWhile Ascii.isDigit)) = _
    rw [htake, hdrop, hbs, if_neg (by simp)]
    exact skipScale_exponent he hrest

theorem head_fraction {fraction : List Char} (hf : Fraction fraction)
    (hrest : ∀ b ∈ rest.head?, Ascii.isDigit b = false) :
    ∀ b ∈ (utf8Chars fraction ++ rest).head?, Ascii.isDigit b = false := by
  cases hf with
  | none => exact hrest
  | digits hds =>
    rw [utf8Chars_ascii (by decide)]
    rintro b ⟨⟩
    decide

/-- A number is got past. -/
theorem skipNumber_unsigned (ht : Unsigned t) (hrest : NumberEnds rest) :
    skipNumber (utf8Chars t ++ rest) = .ok rest := by
  cases ht with
  | @parts whole fraction exponent hw hf he =>
    have hpast := skipFraction_parts hf he hrest
    have hhead := head_fraction hf fun b hb => (head_exponent he hrest b hb).1
    rw [utf8Chars_append, utf8Chars_append, List.append_assoc, List.append_assoc]
    generalize utf8Chars fraction ++ (utf8Chars exponent ++ rest) = behind at hpast hhead
    cases hw with
    | zero =>
      cases behind with
      | nil => exact hpast
      | cons b behind =>
        have hb : Ascii.isDigit b = false := hhead b rfl
        refine Eq.trans ?_ hpast
        change (if Ascii.isDigit b then _ else skipFraction (b :: behind)) = _
        rw [hb]
        rfl
    | @digits d ds hne hds =>
      obtain ⟨hascii, hdigit, -⟩ := ascii_of_isDigit (hds.2 d List.mem_cons_self)
      have hzero := ofChar_ne_zero hascii hne
      have hdrop := (takeWhile_digits (fun d' hd' => hds.2 d' (List.mem_cons_of_mem _ hd')) hhead).2
      rw [utf8Chars_ascii hascii, List.cons_append, skipNumber.eq_def]
      dsimp only
      rw [hdigit, if_neg (by simp), if_neg hzero, hdrop]
      exact hpast

/-! ### Reading natural numbers -/

theorem le_ofDigitChars (ds : List Char) (n : Nat) : n ≤ Nat.ofDigitChars 10 ds n := by
  induction ds generalizing n with
  | nil => exact Nat.le_refl n
  | cons d ds ih =>
    rw [Nat.ofDigitChars_cons]
    exact Nat.le_trans (by omega) (ih _)

theorem accumulate_digits (hds : ∀ d ∈ ds, d.isDigit = true) {bound n : Nat}
    (hlt : Nat.ofDigitChars 10 ds n < bound) : accumulate bound n (utf8Chars ds) = (Nat.ofDigitChars 10 ds n, []) := by
  induction ds generalizing n with
  | nil => rfl
  | cons d ds ih =>
    obtain ⟨hascii, -, hvalue⟩ := ascii_of_isDigit (hds d List.mem_cons_self)
    rw [Nat.ofDigitChars_cons] at hlt ⊢
    have hstep : 10 * n + Ascii.digitValue (Ascii.ofChar d) = 10 * n + (d.toNat - '0'.toNat) := by rw [hvalue]; rfl
    rw [utf8Chars_ascii hascii, accumulate, hstep, if_pos (Nat.lt_of_le_of_lt (le_ofDigitChars ds _) hlt)]
    exact ih (fun d' hd' => hds d' (List.mem_cons_of_mem _ hd')) hlt

theorem whole_digits (hw : Whole ds) : Digits ds ∧ ∀ b bs, utf8Chars ds = b :: bs → b = Ascii.zero → bs = [] := by
  cases hw with
  | zero => exact ⟨by decide, fun b bs hbs _ => (List.cons.inj hbs).2.symm⟩
  | @digits d ds hne hds =>
    obtain ⟨hascii, -⟩ := ascii_of_isDigit (hds.2 d List.mem_cons_self)
    refine ⟨hds, fun b bs hbs hb => ?_⟩
    rw [utf8Chars_ascii hascii] at hbs
    exact absurd ((List.cons.inj hbs).1.trans hb) (ofChar_ne_zero hascii hne)

/-- **A natural number below 2^64 reads as its value.** -/
theorem readNumber_whole (hw : Whole ds) (hlt : Nat.ofDigitChars 10 ds 0 < UInt64.size) (hrest : NumberEnds rest) :
    readNumber false (utf8Chars ds ++ rest) = .ok (.natural (Nat.ofDigitChars 10 ds 0), rest) := by
  obtain ⟨hds, hzero⟩ := whole_digits hw
  obtain ⟨b, bs, hbs, hb⟩ := digits_eq_cons hds
  have haccumulate := accumulate_digits hds.2 hlt
  obtain ⟨htake, hdrop⟩ := takeWhile_digits hds.2 fun b hb => (hrest b hb).1
  rw [hbs] at haccumulate
  rw [hbs, List.cons_append, List.takeWhile_cons_of_pos hb] at htake
  rw [hbs, List.cons_append, List.dropWhile_cons_of_pos hb] at hdrop
  have hshort : ¬ (b = Ascii.zero ∧ 1 < (b :: bs).length) := by
    rintro ⟨hb, hlength⟩
    rw [hzero b bs hbs hb] at hlength
    exact absurd hlength (by simp)
  rw [hbs, List.cons_append, readNumber]
  dsimp only
  rw [hb, if_neg (by simp), htake, if_neg hshort, hdrop, haccumulate]
  cases rest with
  | nil => rfl
  | cons c rest =>
    obtain ⟨-, hpoint, hmark⟩ := hrest c rfl
    dsimp only
    split
    · next heq => exact absurd (List.cons.inj heq).1 hpoint
    · next heq =>
      cases heq
      rw [hmark]
      rfl
    · next heq => cases heq

end JsonReader

end MerkleBuffer
