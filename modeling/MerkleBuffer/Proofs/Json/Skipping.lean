/-
Every value of the grammar is got past.

The reader keeps the frames it is inside of on a stack, and has fuel for its steps. Behind a
value it resumes with what may follow one (`resume`). So a part of a text takes some steps,
not more than it has bytes, and leaves the reader to resume in the frames that were open
before (`Skips`); this holds of each rule of the grammar, and by induction of all texts.
-/
import MerkleBuffer.Json.Skip
import MerkleBuffer.Proofs.Json.Tokens

namespace MerkleBuffer.JsonReader

open JsonGrammar

variable {fuel : Nat} {frame : JsonFrame} {frames : List JsonFrame} {input inner rest after : Bytes} {b : UInt8}
  {t w name : List Char} {part : Part}

/-- What is left to do behind a value. -/
def resume (fuel : Nat) (frames : List JsonFrame) (input : Bytes) : Except JsonStop Bytes := do
  let (frames, rest) ← skipClosers frames input
  if frames.isEmpty then return rest else skipFrames fuel frames rest

/-! ']' The texts in bytes -/

theorem utf8Chars_enclosed {c d : Char} (hc : c.toNat < 128) (hd : d.toNat < 128) (t : List Char) (rest : Bytes) :
    utf8Chars (c :: t ++ [d]) ++ rest = Ascii.ofChar c :: (utf8Chars t ++ Ascii.ofChar d :: rest) := by
  rw [utf8Chars_append, utf8Chars_ascii hc, utf8Chars_ascii hd, List.append_assoc]
  rfl

theorem utf8Chars_separated (a more : List Char) (rest : Bytes) :
    utf8Chars (a ++ ',' :: more) ++ rest = utf8Chars a ++ Ascii.comma :: (utf8Chars more ++ rest) := by
  rw [utf8Chars_append, utf8Chars_ascii (by decide), List.append_assoc]
  rfl

theorem utf8Chars_key (w t w' : List Char) (rest : Bytes) :
    utf8Chars (w ++ '"' :: t ++ '"' :: w' ++ [':']) ++ rest =
      utf8Chars w ++ Ascii.quote :: (utf8Chars t ++ Ascii.quote :: (utf8Chars w' ++ Ascii.colon :: rest)) := by
  simp only [utf8Chars_append, utf8Chars_ascii (show '"'.toNat < 128 by decide),
    utf8Chars_ascii (show ':'.toNat < 128 by decide), List.append_assoc, List.cons_append, utf8Chars_nil,
    List.nil_append]
  rfl

theorem length_enclosed {c d : Char} (hc : c.toNat < 128) (hd : d.toNat < 128) {steps : Nat}
    (hsteps : steps ≤ (utf8Chars t).length) : steps + 1 ≤ (utf8Chars (c :: t ++ [d])).length := by
  rw [← List.append_nil (utf8Chars (c :: t ++ [d])), utf8Chars_enclosed hc hd, List.length_cons, List.length_append]
  omega

theorem length_between (w t w' : List Char) : (utf8Chars t).length ≤ (utf8Chars (w ++ t ++ w')).length := by
  rw [utf8Chars_append, utf8Chars_append, List.length_append, List.length_append]
  omega

theorem length_separated (a more : List Char) :
    (utf8Chars more).length + (utf8Chars a).length ≤ (utf8Chars (a ++ ',' :: more)).length := by
  rw [utf8Chars_append, utf8Chars_ascii (by decide), List.length_append, List.length_cons]
  omega

theorem of_isDigit (b : UInt8) : Ascii.isDigit b = true → isBlank b = false ∧ JsonFrame.opened? b = none ∧
    b ∉ [Ascii.ofChar 'n', Ascii.ofChar 't', Ascii.ofChar 'f', Ascii.minus, Ascii.closeBracket] :=
  Hex.forall_byte (p := fun b => Ascii.isDigit b = true → isBlank b = false ∧ JsonFrame.opened? b = none ∧
    b ∉ [Ascii.ofChar 'n', Ascii.ofChar 't', Ascii.ofChar 'f', Ascii.minus, Ascii.closeBracket]) (by decide +kernel) b

theorem unsigned_eq_cons (ht : Unsigned t) : ∃ b bs, utf8Chars t = b :: bs ∧ Ascii.isDigit b = true := by
  cases ht with
  | parts hw hf he =>
    obtain ⟨b, bs, hbs, hb⟩ := digits_eq_cons (whole_digits hw).1
    rw [utf8Chars_append, utf8Chars_append, hbs]
    exact ⟨b, _, rfl, hb⟩

/-- A value starts with a byte that is neither a blank nor the closer of a list. -/
theorem head_value (ht : Derives .value t) :
    ∃ b bs, utf8Chars t = b :: bs ∧ isBlank b = false ∧ b ≠ Ascii.closeBracket := by
  have hascii : ∀ {c : Char} {cs : List Char}, c.toNat < 128 → isBlank (Ascii.ofChar c) = false →
      Ascii.ofChar c ≠ Ascii.closeBracket →
      ∃ b bs, utf8Chars (c :: cs) = b :: bs ∧ isBlank b = false ∧ b ≠ Ascii.closeBracket :=
    fun hc hblank hne => ⟨_, _, utf8Chars_ascii hc _, hblank, hne⟩
  cases ht with
  | word ht =>
    simp only [List.mem_cons, List.not_mem_nil, or_false] at ht
    rcases ht with rfl | rfl | rfl <;> exact hascii (by decide) (by decide) (by decide)
  | number ht =>
    obtain ⟨b, bs, hbs, hb⟩ := unsigned_eq_cons ht
    obtain ⟨hblank, -, hother⟩ := of_isDigit b hb
    exact ⟨b, bs, hbs, hblank, fun heq => hother (by simp [heq])⟩
  | negative ht => exact hascii (by decide) (by decide) (by decide)
  | string ht => exact hascii (by decide) (by decide) (by decide)
  | noItems hw => exact hascii (by decide) (by decide) (by decide)
  | list ht => exact hascii (by decide) (by decide) (by decide)
  | noMembers hw => exact hascii (by decide) (by decide) (by decide)
  | object ht => exact hascii (by decide) (by decide) (by decide)

/-! '}' Steps of the reader -/

theorem skipFrames_blanks (hw : Blanks w) (input : Bytes) :
    skipFrames fuel frames (utf8Chars w ++ input) = skipFrames fuel frames input := by
  cases fuel with
  | zero => rfl
  | succ fuel => rw [skipFrames, skipFrames, skipStep, skipStep, skipBlanks_blanks hw]

theorem resume_blanks (hw : Blanks w) (input : Bytes) :
    resume fuel (frame :: frames) (utf8Chars w ++ input) = resume fuel (frame :: frames) input := by
  rw [resume, resume, skipClosers, skipClosers, skipBlanks_blanks hw]

@[simp] theorem resume_nil (fuel : Nat) (input : Bytes) : resume fuel [] input = .ok input := rfl

theorem resume_closer (frame : JsonFrame) :
    resume fuel (frame :: frames) (frame.closer :: rest) = resume fuel frames rest := by
  cases frame <;> rfl

theorem resume_comma (frame : JsonFrame) (hname : skipName frame rest = .ok after) :
    resume fuel (frame :: frames) (Ascii.comma :: rest) = skipFrames fuel (frame :: frames) after := by
  have hclosers : skipClosers (frame :: frames) (Ascii.comma :: rest) = .ok (frame :: frames, after) := by
    rw [skipClosers, skipBlanks_of_not (by decide)]
    dsimp only
    rw [if_pos rfl, hname]
    rfl
  rw [resume, hclosers]
  rfl

theorem skipFrames_scalar (hblank : isBlank b = false) (hopened : JsonFrame.opened? b = none)
    (hscalar : skipScalar b rest = .ok after) :
    skipFrames (fuel + 1) frames (b :: rest) = resume fuel frames after := by
  rw [skipFrames, skipStep, skipBlanks_of_not hblank]
  dsimp only
  rw [hopened, hscalar]
  rfl

theorem skipFrames_empty (hblank : isBlank b = false) (hopened : JsonFrame.opened? b = some frame) (hw : Blanks w) :
    skipFrames (fuel + 1) frames (b :: (utf8Chars w ++ frame.closer :: rest)) = resume fuel frames rest := by
  have hcloser : skipBlanks (utf8Chars w ++ frame.closer :: rest) = frame.closer :: rest := by
    rw [skipBlanks_blanks hw]
    cases frame <;> rfl
  rw [skipFrames, skipStep, skipBlanks_of_not hblank]
  dsimp only
  rw [hopened]
  dsimp only
  rw [hcloser]
  dsimp only
  rw [if_pos rfl]
  rfl

theorem skipFrames_open (frame : JsonFrame) (hblank : isBlank b = false)
    (hopened : JsonFrame.opened? b = some frame) {c : UInt8} (hinput : skipBlanks input = c :: rest)
    (hc : c ≠ frame.closer) (hname : skipName frame (c :: rest) = .ok after) :
    skipFrames (fuel + 1) frames (b :: input) = skipFrames fuel (frame :: frames) after := by
  rw [skipFrames, skipStep, skipBlanks_of_not hblank]
  dsimp only
  rw [hopened]
  dsimp only
  rw [hinput]
  dsimp only
  rw [if_neg hc, hname]
  rfl

theorem skipScalar_digit (hb : Ascii.isDigit b = true) (rest : Bytes) : skipScalar b rest = skipNumber (b :: rest) := by
  obtain ⟨-, -, hother⟩ := of_isDigit b hb
  simp only [List.mem_cons, not_or] at hother
  obtain ⟨hn, ht, hf, hminus, -⟩ := hother
  rw [skipScalar, if_neg hn, if_neg ht, if_neg hf, if_neg hminus, if_pos hb]

/-- A name with its colon is got past. -/
theorem skipName_key (hkey : Key Content t) (input : Bytes) : skipName .object (utf8Chars t ++ input) = .ok input := by
  cases hkey with
  | @colon w t w' hw ht hw' =>
    have hstring := skipString_content ht (utf8Chars w' ++ Ascii.colon :: input)
    rw [utf8Chars_key, skipName, skipBlanks_blanks hw]
    change (do skipColon (← skipString (utf8Chars t ++ Ascii.quote :: (utf8Chars w' ++ Ascii.colon :: input)))) = _
    rw [hstring]
    change skipColon (utf8Chars w' ++ Ascii.colon :: input) = _
    rw [skipColon, skipBlanks_blanks hw']
    rfl

theorem skipName_member {key : List Char} (hkey : Key Content key) (w t w' : List Char) (input : Bytes) :
    skipName .object (utf8Chars (key ++ w ++ t ++ w') ++ input) = .ok (utf8Chars (w ++ t ++ w') ++ input) := by
  rw [List.append_assoc, List.append_assoc, utf8Chars_append, List.append_assoc, ← List.append_assoc w]
  exact skipName_key hkey _

/-! ## Parts of texts -/

/-- How the reader gets past a part of a text: in some steps, not more than it has bytes, and
ready to resume in the frames that were open before. Inside an object it starts at a value. -/
def Skips : Part → List Char → Prop
  | .value, t => ∃ steps ≤ (utf8Chars t).length, ∀ fuel frames rest, NumberEnds rest →
      skipFrames (fuel + steps) frames (utf8Chars t ++ rest) = resume fuel frames rest
  | .items, t => ∃ steps ≤ (utf8Chars t).length, ∀ fuel frames rest,
      skipFrames (fuel + steps) (.list :: frames) (utf8Chars t ++ Ascii.closeBracket :: rest) = resume fuel frames rest
  | .members, t => ∃ steps ≤ (utf8Chars t).length, ∀ rest, ∃ inner,
      skipName .object (utf8Chars t ++ Ascii.closeBrace :: rest) = .ok inner ∧ ∀ fuel frames,
        skipFrames (fuel + steps) (.object :: frames) inner = resume fuel frames rest

/-- Behind a value and blanks stands what ends any number. -/
theorem numberEnds_of (hw : Blanks w) (hb : b ∈ [Ascii.comma, Ascii.closeBracket, Ascii.closeBrace]) (rest : Bytes) :
    NumberEnds (utf8Chars w ++ b :: rest) := by
  have hends : ∀ b', isBlank b' = true ∨ b' ∈ [Ascii.comma, Ascii.closeBracket, Ascii.closeBrace] →
      Ascii.isDigit b' = false ∧ b' ≠ Ascii.point ∧ isExponentMark b' = false :=
    Hex.forall_byte (by decide +kernel)
  intro b' hb'
  refine hends b' ?_
  cases hw' : utf8Chars w with
  | nil =>
    rw [hw'] at hb'
    cases hb'
    exact .inr hb
  | cons c cs =>
    rw [hw'] at hb'
    cases hb'
    exact .inl (isBlank_of_mem hw b' (hw' ▸ List.mem_cons_self))

theorem skips_scalar {bs : Bytes} (hbs : utf8Chars t = b :: bs) (hblank : isBlank b = false)
    (hopened : JsonFrame.opened? b = none) (hscalar : ∀ rest, NumberEnds rest → skipScalar b (bs ++ rest) = .ok rest) :
    Skips .value t := by
  refine ⟨1, by simp [hbs], fun fuel frames rest hrest => ?_⟩
  rw [hbs]
  exact skipFrames_scalar hblank hopened (hscalar rest hrest)

theorem skips_number (ht : Unsigned t) : Skips .value t := by
  obtain ⟨b, bs, hbs, hb⟩ := unsigned_eq_cons ht
  obtain ⟨hblank, hopened, -⟩ := of_isDigit b hb
  refine skips_scalar hbs hblank hopened fun rest hrest => ?_
  rw [skipScalar_digit hb, ← List.cons_append, ← hbs]
  exact skipNumber_unsigned ht hrest

/-- A frame with a part inside: one step opens it. -/
theorem skips_list (ht : Derives .items t) (hskips : Skips .items t) : Skips .value ('[' :: t ++ [']']) := by
  obtain ⟨steps, hsteps, hskip⟩ := hskips
  obtain ⟨w, c, cs, hw, htext, hblank, hc⟩ : ∃ w c cs, Blanks w ∧ utf8Chars t = utf8Chars w ++ c :: cs ∧
      isBlank c = false ∧ c ≠ Ascii.closeBracket := by
    cases ht with
    | @item w t w' hw ht hw' =>
      obtain ⟨b, bs, hbs, hblank, hne⟩ := head_value ht
      exact ⟨w, b, bs ++ utf8Chars w', hw, by simp [hbs], hblank, hne⟩
    | @moreItems w t w' more hw ht hw' hmore =>
      obtain ⟨b, bs, hbs, hblank, hne⟩ := head_value ht
      exact ⟨w, b, bs ++ (utf8Chars w' ++ utf8Chars (',' :: more)), hw, by simp [hbs], hblank, hne⟩
  refine ⟨steps + 1, length_enclosed (by decide) (by decide) hsteps, fun fuel frames rest _ => ?_⟩
  rw [utf8Chars_enclosed (by decide) (by decide)]
  have hinput : utf8Chars t ++ Ascii.closeBracket :: rest = utf8Chars w ++ c :: (cs ++ Ascii.closeBracket :: rest) := by
    rw [htext, List.append_assoc]
    rfl
  have hfirst : skipBlanks (utf8Chars t ++ Ascii.closeBracket :: rest) = c :: (cs ++ Ascii.closeBracket :: rest) := by
    rw [hinput, skipBlanks_blanks hw, skipBlanks_of_not hblank]
  calc skipFrames (fuel + steps + 1) frames (Ascii.openBracket :: (utf8Chars t ++ Ascii.closeBracket :: rest))
      = skipFrames (fuel + steps) (.list :: frames) (c :: (cs ++ Ascii.closeBracket :: rest)) :=
        skipFrames_open .list (by decide) rfl hfirst hc rfl
    _ = skipFrames (fuel + steps) (.list :: frames) (utf8Chars t ++ Ascii.closeBracket :: rest) := by
        rw [hinput, skipFrames_blanks hw]
    _ = resume fuel frames rest := hskip fuel frames rest

theorem skipBlanks_of_skipName (hname : skipName .object input = .ok inner) :
    ∃ rest, skipBlanks input = Ascii.quote :: rest := by
  rw [skipName] at hname
  split at hname
  · cases hname
  · next rest hquote => exact ⟨rest, hquote⟩
  · cases hname

theorem skips_object (hskips : Skips .members t) : Skips .value ('{' :: t ++ ['}']) := by
  obtain ⟨steps, hsteps, hskip⟩ := hskips
  refine ⟨steps + 1, length_enclosed (by decide) (by decide) hsteps, fun fuel frames rest _ => ?_⟩
  rw [utf8Chars_enclosed (by decide) (by decide)]
  obtain ⟨inner, hname, hinner⟩ := hskip rest
  obtain ⟨behind, hquote⟩ := skipBlanks_of_skipName hname
  have hname' : skipName .object (Ascii.quote :: behind) = .ok inner := by
    rw [← hname, skipName, skipName, hquote]
    rfl
  calc skipFrames (fuel + steps + 1) frames (Ascii.openBrace :: (utf8Chars t ++ Ascii.closeBrace :: rest))
      = skipFrames (fuel + steps) (.object :: frames) inner :=
        skipFrames_open .object (by decide) rfl hquote (by decide) hname'
    _ = resume fuel frames rest := hinner fuel frames

theorem skips_empty (frame : JsonFrame) {c d : Char} (hc : c.toNat < 128) (hd : d.toNat < 128)
    (hblank : isBlank (Ascii.ofChar c) = false)
    (hopened : JsonFrame.opened? (Ascii.ofChar c) = some frame) (hcloser : Ascii.ofChar d = frame.closer)
    (hw : Blanks w) : Skips .value (c :: w ++ [d]) := by
  refine ⟨1, by simp [utf8Chars_ascii hc], fun fuel frames rest _ => ?_⟩
  rw [utf8Chars_enclosed hc hd, hcloser]
  exact skipFrames_empty hblank hopened hw

/-- A value among others, with what the reader does behind it. -/
theorem skip_inside {t w w' : List Char} {steps : Nat} (hskip : ∀ fuel frames rest, NumberEnds rest →
      skipFrames (fuel + steps) frames (utf8Chars t ++ rest) = resume fuel frames rest)
    (hw : Blanks w) (hw' : Blanks w') (hb : b ∈ [Ascii.comma, Ascii.closeBracket, Ascii.closeBrace]) (rest : Bytes) :
    skipFrames (fuel + steps) (frame :: frames) (utf8Chars (w ++ t ++ w') ++ b :: rest) =
      resume fuel (frame :: frames) (b :: rest) := by
  rw [utf8Chars_append, utf8Chars_append, List.append_assoc, List.append_assoc, skipFrames_blanks hw,
    hskip _ _ _ (numberEnds_of hw' hb rest), resume_blanks hw']

/-- **Every part of a text is got past.** -/
theorem skips (ht : Derives part t) : Skips part t := by
  induction ht with
  | word ht =>
    simp only [List.mem_cons, List.not_mem_nil, or_false] at ht
    rcases ht with rfl | rfl | rfl
    · have htext : utf8Chars "null".toList = Ascii.ofChar 'n' :: utf8 "ull" := rfl
      exact skips_scalar htext rfl rfl fun rest _ => skipWord_append _ rest
    · have htext : utf8Chars "true".toList = Ascii.ofChar 't' :: utf8 "rue" := rfl
      exact skips_scalar htext rfl rfl fun rest _ => skipWord_append _ rest
    · have htext : utf8Chars "false".toList = Ascii.ofChar 'f' :: utf8 "alse" := rfl
      exact skips_scalar htext rfl rfl fun rest _ => skipWord_append _ rest
  | number ht => exact skips_number ht
  | @negative t ht =>
    have htext : utf8Chars ('-' :: t) = Ascii.minus :: utf8Chars t := utf8Chars_ascii (by decide) t
    exact skips_scalar htext rfl rfl fun rest hrest => skipNumber_unsigned ht hrest
  | @string t ht =>
    have htext : utf8Chars ('"' :: t ++ ['"']) = Ascii.quote :: (utf8Chars t ++ [Ascii.quote]) := by
      rw [← List.append_nil (utf8Chars _), utf8Chars_enclosed (by decide) (by decide)]
      rfl
    refine skips_scalar htext rfl rfl fun rest _ => ?_
    rw [List.append_assoc]
    exact skipString_content ht rest
  | noItems hw => exact skips_empty .list (by decide) (by decide) rfl rfl rfl hw
  | list ht ih => exact skips_list ht ih
  | noMembers hw => exact skips_empty .object (by decide) (by decide) rfl rfl rfl hw
  | object ht ih => exact skips_object ih
  | @item w t w' hw ht hw' ih =>
    obtain ⟨steps, hsteps, hskip⟩ := ih
    refine ⟨steps, Nat.le_trans hsteps (length_between w t w'), fun fuel frames rest => ?_⟩
    rw [skip_inside hskip hw hw' (by decide)]
    exact resume_closer .list
  | @moreItems w t w' more hw ht hw' hmore ih ihmore =>
    obtain ⟨steps, hsteps, hskip⟩ := ih
    obtain ⟨steps', hsteps', hskip'⟩ := ihmore
    have hlength := Nat.le_trans (Nat.add_le_add hsteps' (Nat.le_trans hsteps (length_between w t w')))
      (length_separated _ more)
    refine ⟨steps' + steps, hlength, fun fuel frames rest => ?_⟩
    rw [utf8Chars_separated, ← Nat.add_assoc, skip_inside hskip hw hw' (by decide), resume_comma .list rfl]
    exact hskip' fuel frames rest
  | @member key w t w' hkey hw ht hw' ih =>
    obtain ⟨steps, hsteps, hskip⟩ := ih
    refine ⟨steps, Nat.le_trans hsteps (length_between (key ++ w) t w'), fun rest => ?_⟩
    refine ⟨_, skipName_member hkey w t w' _, fun fuel frames => ?_⟩
    rw [skip_inside hskip hw hw' (by decide)]
    exact resume_closer .object
  | @moreMembers key w t w' more hkey hw ht hw' hmore ih ihmore =>
    obtain ⟨steps, hsteps, hskip⟩ := ih
    obtain ⟨steps', hsteps', hskip'⟩ := ihmore
    have hlength := Nat.le_trans (Nat.add_le_add hsteps' (Nat.le_trans hsteps (length_between (key ++ w) t w')))
      (length_separated _ more)
    refine ⟨steps' + steps, hlength, fun rest => ?_⟩
    obtain ⟨inner, hname, hinner⟩ := hskip' rest
    rw [utf8Chars_separated]
    refine ⟨_, skipName_member hkey w t w' _, fun fuel frames => ?_⟩
    rw [← Nat.add_assoc, skip_inside hskip hw hw' (by decide), resume_comma .object hname]
    exact hinner fuel frames

/-- **Every value is got past**, up to what stands behind it. -/
theorem skipValue_value (hw : Blanks w) (ht : Derives .value t) (hrest : NumberEnds rest) :
    skipValue (utf8Chars w ++ (utf8Chars t ++ rest)) = .ok rest := by
  obtain ⟨steps, hsteps, hskip⟩ := skips ht
  have hfuel : steps ≤ (utf8Chars w ++ (utf8Chars t ++ rest)).length + 1 := by
    simp only [List.length_append]
    omega
  rw [skipValue, skipFrames_blanks hw, ← Nat.sub_add_cancel hfuel, hskip _ _ _ hrest, resume_nil]

end MerkleBuffer.JsonReader
