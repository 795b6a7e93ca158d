/-
Settings texts: what they give, and how they are read and written.

An object gives the settings that stand among its members, each spelled in any way, in any
order and among any others (`GivesSettings`). It reads as the standard settings with those
that it gives in their place (`ofJson_gives`, `get_ofGiven`). The text that settings are
written as gives all of them (`gives_pretty`), and those are the settings (`ofGiven_givenBy`).
-/
import MerkleBuffer.Config.Json
import MerkleBuffer.Proofs.Json.Skipping

namespace MerkleBuffer

open JsonGrammar JsonReader

namespace Config

/-- A member of an object: one of the settings with a natural number below 2^64, or
anything else under any other name. -/
inductive GivesMember : Given → List Char → Prop
  | setting {s : Setting} {value : UInt64} {key w ds w' : List Char} (hkey : Key (Spells · s.name.toList) key)
      (hw : Blanks w) (hds : Whole ds) (hvalue : Nat.ofDigitChars 10 ds 0 = value.toNat) (hw' : Blanks w') :
      GivesMember [(s, value)] (key ++ w ++ ds ++ w')
  | other {name key w t w' : List Char} (hname : ∀ s : Setting, name ≠ s.name.toList)
      (hkey : Key (Spells · name) key) (hw : Blanks w) (ht : Derives .value t) (hw' : Blanks w') :
      GivesMember [] (key ++ w ++ t ++ w')

/-- The members of an object, and the settings among them. -/
inductive GivesMembers : Given → List Char → Prop
  | last {given : Given} {t : List Char} (hmember : GivesMember given t) : GivesMembers given t
  | more {given given' : Given} {t more : List Char} (hmember : GivesMember given t)
      (hmore : GivesMembers given' more) : GivesMembers (given ++ given') (t ++ ',' :: more)

/-- A text that is an object, and the settings among its members. -/
inductive GivesSettings : Given → List Char → Prop
  | nothing {w inside w' : List Char} (hw : Blanks w) (hinside : Blanks inside) (hw' : Blanks w') :
      GivesSettings [] (w ++ '{' :: inside ++ '}' :: w')
  | members {given : Given} {w t w' : List Char} (hw : Blanks w) (hmembers : GivesMembers given t)
      (hw' : Blanks w') : GivesSettings given (w ++ '{' :: t ++ '}' :: w')

variable {given added : Given} {t w name key ds : List Char} {rest : Bytes} {b : UInt8} {fuel : Nat} {c d : Config}

/-! ## Reading -/

theorem utf8Chars_injective {a b : List Char} (h : utf8Chars a = utf8Chars b) : a = b := by
  have hbytes : (String.ofList a).toByteArray = (String.ofList b).toByteArray := by
    rw [String.toByteArray_ofList, String.toByteArray_ofList]
    exact congrArg List.toByteArray h
  have hlist := congrArg String.toList (String.toByteArray_inj.1 hbytes)
  rwa [String.toList_ofList, String.toList_ofList] at hlist

theorem ofName?_name (s : Setting) : Setting.ofName? (utf8Chars s.name.toList) = some s := by
  rw [← utf8_eq]
  cases s <;> decide +kernel

theorem ofName?_other (hname : ∀ s : Setting, name ≠ s.name.toList) : Setting.ofName? (utf8Chars name) = none := by
  refine List.find?_eq_none.2 fun s _ hs => hname s ?_
  have heq : utf8 s.name = utf8Chars name := of_decide_eq_true hs
  rw [utf8_eq] at heq
  exact (utf8Chars_injective heq).symm

theorem read_key (hkey : Key (Spells · name) key) (input : Bytes) :
    ∃ after behind, skipBlanks (utf8Chars key ++ input) = Ascii.quote :: after ∧
      readString after = .ok (utf8Chars name, behind) ∧ skipColon behind = .ok input := by
  cases hkey with
  | @colon w t w' hw ht hw' =>
    refine ⟨_, _, ?_, readString_spells ht (utf8Chars w' ++ Ascii.colon :: input), ?_⟩
    · rw [utf8Chars_key, skipBlanks_blanks hw]
      rfl
    · rw [skipColon, skipBlanks_blanks hw']
      rfl

theorem readValue_whole {value : UInt64} (hw : Blanks w) (hds : Whole ds)
    (hvalue : Nat.ofDigitChars 10 ds 0 = value.toNat) (hrest : NumberEnds rest) :
    readValue (utf8Chars w ++ (utf8Chars ds ++ rest)) = .ok (value, rest) := by
  obtain ⟨b, bs, hbs, hb⟩ := digits_eq_cons (whole_digits hds).1
  obtain ⟨hblank, -, hother⟩ := of_isDigit b hb
  have hminus : b ≠ Ascii.minus := fun heq => hother (by simp [heq])
  have hread := readNumber_whole hds (hvalue ▸ value.toNat_lt_size) hrest
  rw [hbs, List.cons_append, hvalue] at hread
  rw [readValue, skipBlanks_blanks hw, hbs, List.cons_append, skipBlanks_of_not hblank]
  dsimp only
  rw [if_neg hminus, if_pos hb, hread]
  change Except.ok (UInt64.ofNat value.toNat, rest) = _
  rw [UInt64.ofNat_toNat]

theorem readMember_setting {s : Setting} {value : UInt64} {input behind after : Bytes}
    (hname : readString input = .ok (utf8Chars s.name.toList, behind)) (hcolon : skipColon behind = .ok after)
    (hvalue : readValue after = .ok (value, rest)) (hfresh : s ∉ given.map Prod.fst) :
    readMember given input = .ok (given ++ [(s, value)], rest) := by
  have hnone : given.any (·.1 = s) = false := List.any_eq_false.2 fun g hg heq =>
    hfresh (List.mem_map.2 ⟨g, hg, of_decide_eq_true heq⟩)
  simp only [readMember, hname, bind, Except.bind, ofName?_name, hnone, hcolon, hvalue]
  rfl

theorem readMember_other {input behind after : Bytes} (hother : ∀ s : Setting, name ≠ s.name.toList)
    (hname : readString input = .ok (utf8Chars name, behind)) (hcolon : skipColon behind = .ok after)
    (hvalue : skipValue after = .ok rest) : readMember given input = .ok (given, rest) := by
  simp only [readMember, hname, bind, Except.bind, ofName?_other hother, hcolon, hvalue]
  rfl

theorem readMember_gives (hmember : GivesMember added t) (hnodup : ((given ++ added).map Prod.fst).Nodup)
    (hb : b ∈ [Ascii.comma, Ascii.closeBracket, Ascii.closeBrace]) (rest : Bytes) :
    ∃ after w, skipBlanks (utf8Chars t ++ b :: rest) = Ascii.quote :: after ∧ Blanks w ∧
      readMember given after = .ok (given ++ added, utf8Chars w ++ b :: rest) := by
  cases hmember with
  | @setting s value key w ds w' hkey hw hds hvalue hw' =>
    have hread := readValue_whole hw hds hvalue (numberEnds_of hw' hb rest)
    obtain ⟨after, behind, hquote, hname, hcolon⟩ :=
      read_key hkey (utf8Chars w ++ (utf8Chars ds ++ (utf8Chars w' ++ b :: rest)))
    have hfresh : s ∉ given.map Prod.fst := by
      rw [List.map_append, List.nodup_append] at hnodup
      exact fun hs => hnodup.2.2 s hs s (List.mem_singleton.2 rfl) rfl
    refine ⟨after, w', ?_, hw', readMember_setting hname hcolon hread hfresh⟩
    rw [← hquote]
    simp only [utf8Chars_append, List.append_assoc]
  | @other name key w t w' hother hkey hw ht hw' =>
    have hskip := skipValue_value hw ht (numberEnds_of hw' hb rest)
    obtain ⟨after, behind, hquote, hname, hcolon⟩ :=
      read_key hkey (utf8Chars w ++ (utf8Chars t ++ (utf8Chars w' ++ b :: rest)))
    refine ⟨after, w', ?_, hw', ?_⟩
    · rw [← hquote]
      simp only [utf8Chars_append, List.append_assoc]
    · rw [List.append_nil]
      exact readMember_other hother hname hcolon hskip

/-! ### Members -/

theorem readMembers_end (hw : Blanks w) (rest : Bytes) :
    readMembers (fuel + 1) given (utf8Chars w ++ Ascii.closeBrace :: rest) = .ok (given, rest) := by
  rw [readMembers, skipBlanks_blanks hw]
  rfl

theorem readMembers_comma {input after : Bytes} (hw : Blanks w) (hquote : skipBlanks input = Ascii.quote :: after)
    (hmember : readMember given after = .ok (added, rest)) :
    readMembers (fuel + 1) given (utf8Chars w ++ Ascii.comma :: input) = readMembers fuel added rest := by
  rw [readMembers, skipBlanks_blanks hw, skipBlanks_of_not (by decide)]
  split
  · next heq => cases heq
  · next heq => exact absurd (List.cons.inj heq).1 (by decide)
  · next input' heq =>
    obtain rfl : input = input' := (List.cons.inj heq).2
    rw [hquote]
    refine Eq.trans (b := readMember given after >>= fun x => readMembers fuel x.1 x.2) rfl ?_
    rw [hmember]
    rfl
  · next hno heq => exact absurd (List.cons.inj heq).1.symm hno

/-- **All members are read**, behind a comma, up to the end of the object. -/
theorem readMembers_gives (hmembers : GivesMembers added t) {given : Given} {fuel : Nat} {w : List Char}
    (hnodup : ((given ++ added).map Prod.fst).Nodup) (hw : Blanks w) (hfuel : (utf8Chars t).length < fuel)
    (rest : Bytes) : readMembers (fuel + 1) given
      (utf8Chars w ++ Ascii.comma :: (utf8Chars t ++ Ascii.closeBrace :: rest)) = .ok (given ++ added, rest) := by
  induction hmembers generalizing given fuel w with
  | @last added t hmember =>
    obtain ⟨after, w', hquote, hw', hread⟩ :=
      readMember_gives (b := Ascii.closeBrace) hmember hnodup (by decide) rest
    cases fuel with
    | zero => cases hfuel
    | succ fuel => rw [readMembers_comma hw hquote hread, readMembers_end hw']
  | @more added added' t more hmember hmore ih =>
    rw [← List.append_assoc] at hnodup ⊢
    have hfirst : ((given ++ added).map Prod.fst).Nodup := by
      rw [List.map_append] at hnodup
      exact (List.nodup_append.1 hnodup).1
    obtain ⟨after, w', hquote, hw', hread⟩ := readMember_gives (b := Ascii.comma) hmember hfirst (by decide)
      (utf8Chars more ++ Ascii.closeBrace :: rest)
    rw [← utf8Chars_separated] at hquote
    cases fuel with
    | zero => cases hfuel
    | succ fuel =>
      rw [utf8Chars_append, utf8Chars_ascii (by decide), List.length_append, List.length_cons] at hfuel
      rw [readMembers_comma hw hquote hread]
      exact ih hnodup hw' (by omega)

theorem readObject_gives (hmembers : GivesMembers given t) (hnodup : (given.map Prod.fst).Nodup) (rest : Bytes) :
    readObject (utf8Chars t ++ Ascii.closeBrace :: rest) = .ok (given, rest) := by
  have hfirst : ∀ {added : Given} {input after behind : Bytes}, skipBlanks input = Ascii.quote :: after →
      readMember [] after = .ok (added, behind) → readObject input = readMembers behind.length added behind := by
    intro added input after behind hquote hread
    rw [readObject, hquote]
    refine Eq.trans (b := readMember [] after >>= fun x => readMembers x.2.length x.1 x.2) rfl ?_
    rw [hread]
    rfl
  cases hmembers with
  | last hmember =>
    have hnodup' : (([] ++ given).map Prod.fst).Nodup := hnodup
    obtain ⟨after, w, hquote, hw, hread⟩ :=
      readMember_gives (b := Ascii.closeBrace) hmember hnodup' (by decide) rest
    rw [hfirst hquote hread, List.length_append, List.length_cons, ← Nat.add_assoc]
    exact readMembers_end hw rest
  | @more added added' t more hmember hmore =>
    have hadded : (([] ++ added).map Prod.fst).Nodup := by
      rw [List.map_append] at hnodup
      exact (List.nodup_append.1 hnodup).1
    obtain ⟨after, w, hquote, hw, hread⟩ := readMember_gives (b := Ascii.comma) hmember hadded (by decide)
      (utf8Chars more ++ Ascii.closeBrace :: rest)
    rw [← utf8Chars_separated] at hquote
    rw [hfirst hquote hread, List.length_append, List.length_cons, ← Nat.add_assoc]
    refine readMembers_gives hmore hnodup hw ?_ rest
    simp only [List.length_append, List.length_cons]
    omega

/-- **An object reads as the settings that it gives.** -/
theorem readText_gives (hgives : GivesSettings given t) (hnodup : (given.map Prod.fst).Nodup) :
    readText (utf8Chars t) = .ok given := by
  have hobject : ∀ {w inside w' : List Char}, Blanks w → Blanks w' →
      readObject (utf8Chars inside ++ Ascii.closeBrace :: utf8Chars w') = .ok (given, utf8Chars w') →
      readText (utf8Chars (w ++ '{' :: inside ++ '}' :: w')) = .ok given := by
    intro w inside w' hw hw' hread
    have hbehind : skipBlanks (utf8Chars w') = [] := by
      rw [← List.append_nil (utf8Chars w'), skipBlanks_blanks hw']
      rfl
    have htext : skipBlanks (utf8Chars (w ++ '{' :: inside ++ '}' :: w')) =
        Ascii.openBrace :: (utf8Chars inside ++ Ascii.closeBrace :: utf8Chars w') := by
      rw [utf8Chars_append, utf8Chars_append, List.append_assoc, skipBlanks_blanks hw, utf8Chars_ascii (by decide),
        utf8Chars_ascii (by decide)]
      rfl
    rw [readText, htext]
    refine Eq.trans (b := readObject (utf8Chars inside ++ Ascii.closeBrace :: utf8Chars w') >>= fun x =>
      if (skipBlanks x.2).isEmpty then .ok x.1 else stopAt .trailingCharacters (skipBlanks x.2)) rfl ?_
    rw [hread]
    change (if (skipBlanks (utf8Chars w')).isEmpty then _ else _) = _
    rw [hbehind]
    rfl
  cases hgives with
  | @nothing w inside w' hw hinside hw' =>
    refine hobject hw hw' ?_
    rw [readObject, skipBlanks_blanks hinside]
    rfl
  | members hw hmembers hw' => exact hobject hw hw' (readObject_gives hmembers hnodup _)

theorem ofJson_gives (hgives : GivesSettings given t) (hnodup : (given.map Prod.fst).Nodup) :
    ofJson (utf8Chars t) = .ok (ofGiven given) := by
  rw [ofJson, readText_gives hgives hnodup]

/-! ## The settings that are given -/

theorem get_set (c : Config) (s s' : Setting) (value : UInt64) :
    (c.set s value).get s' = if s' = s then value else c.get s' := by
  cases s <;> cases s' <;> rfl

theorem ext_get (h : ∀ s, c.get s = d.get s) : c = d := by
  obtain ⟨h₁, h₂, h₃, h₄⟩ := And.intro (h .cleanCacheSize)
    (And.intro (h .cleanCacheShards) (And.intro (h .idealBatchSize) (h .preimageFlushThreshold)))
  cases c
  cases d
  simp_all [get]

/-- **Settings that are given stand in place of the standard ones.** -/
theorem get_ofGiven (hnodup : (given.map Prod.fst).Nodup) (s : Setting) :
    (ofGiven given).get s = (given.lookup s).getD (standard.get s) := by
  have hfold : ∀ c : Config, (given.foldl (fun c g => c.set g.1 g.2) c).get s = (given.lookup s).getD (c.get s) := by
    induction given with
    | nil => exact fun c => rfl
    | cons g given ih =>
      intro c
      obtain ⟨hnew, hnodup⟩ := List.nodup_cons.1 hnodup
      rw [List.foldl_cons, ih hnodup, get_set, List.lookup_cons]
      by_cases hs : s = g.1
      · subst hs
        have hnone : given.lookup g.1 = none := List.lookup_eq_none_iff.2 fun g' hg' =>
          bne_iff_ne.2 fun heq => hnew (heq ▸ List.mem_map_of_mem hg')
        simp [hnone]
      · have hs' : (s == g.1) = false := beq_false_of_ne hs
        rw [if_neg hs, hs']
  exact hfold standard

/-- All settings, each given with its value. -/
def givenBy (c : Config) : Given := Setting.all.map fun s => (s, c.get s)

theorem keys_givenBy (c : Config) : c.givenBy.map Prod.fst = Setting.all := by
  rw [givenBy, List.map_map]
  exact List.map_id _

theorem nodup_givenBy (c : Config) : (c.givenBy.map Prod.fst).Nodup := by
  rw [keys_givenBy]
  decide

theorem ofGiven_givenBy (c : Config) : ofGiven c.givenBy = c := by
  refine ext_get fun s => ?_
  rw [get_ofGiven c.nodup_givenBy]
  cases s <;> rfl

/-! ## Writing -/

theorem whole_toDigits (n : Nat) : Whole (Nat.toDigits 10 n) := by
  induction n using Nat.strongRecOn with
  | ind n ih =>
    have hdigit : ∀ d ∈ Nat.toDigits 10 n, d.isDigit = true := fun d hd =>
      Nat.isDigit_of_mem_toDigits (by decide) (by decide) hd
    rw [Nat.toDigits_eq_if (by decide)] at hdigit ⊢
    split at hdigit
    · next hlt =>
      rw [if_pos hlt]
      by_cases hzero : n = 0
      · subst hzero
        exact .zero
      · exact .digits ((by decide : ∀ n < 10, n ≠ 0 → n.digitChar ≠ '0') n hlt hzero) ⟨by simp, hdigit⟩
    · next hlt =>
      rw [if_neg hlt]
      have hvalue : Nat.ofDigitChars 10 (Nat.toDigits 10 (n / 10)) 0 = n / 10 := Nat.ofDigitChars_ten_toDigits
      have hfirst := ih (n / 10) (by omega)
      generalize Nat.toDigits 10 (n / 10) = ds at hdigit hvalue hfirst
      cases hfirst with
      | zero =>
        have hzero : 0 = n / 10 := hvalue
        omega
      | digits hne hds => exact .digits hne ⟨by simp, hdigit⟩

theorem spells_self (ht : Plains t) : Spells t t := by
  induction t with
  | nil => exact .nil
  | cons c t ih => exact .plain (ht c List.mem_cons_self) (ih fun c' hc' => ht c' (List.mem_cons_of_mem _ hc'))

theorem plains_name (s : Setting) : Plains s.name.toList := by
  cases s <;> decide +kernel

theorem toList_quote_name (s : Setting) : (Json.quote s.name).toList = '"' :: s.name.toList ++ ['"'] := by
  cases s <;> decide +kernel

theorem blanks_newline (depth : Nat) : Blanks (Json.newline depth).toList := by
  have htext : (Json.newline depth).toList = '\n' :: List.replicate (2 * depth) ' ' := by simp [Json.newline]
  rw [htext]
  intro c hc
  rcases List.mem_cons.1 hc with rfl | hc
  · decide
  · rw [List.eq_of_mem_replicate hc]
    decide

/-- A setting on a line of its own. -/
def lineOf (depth : Nat) (s : Setting) (value : UInt64) : String :=
  Json.newline depth ++ Json.quote s.name ++ ": " ++ Json.prettyAt depth (.number value.toNat)

theorem gives_line (s : Setting) (value : UInt64) (depth : Nat) (hw : Blanks w) :
    GivesMember [(s, value)] ((lineOf depth s value).toList ++ w) := by
  have hkey : Key (Spells · s.name.toList)
      ((Json.newline depth).toList ++ '"' :: s.name.toList ++ '"' :: [] ++ [':']) :=
    .colon (blanks_newline depth) (spells_self (plains_name s)) (by decide)
  have hspace : Blanks [' '] := by decide
  have hmember : GivesMember [(s, value)] _ :=
    .setting hkey hspace (whole_toDigits value.toNat) Nat.ofDigitChars_ten_toDigits hw
  have hdigits : (Json.prettyAt depth (.number value.toNat)).toList = Nat.toDigits 10 value.toNat := by
    rw [Json.prettyAt, Nat.toString_eq_ofList_toDigits, String.toList_ofList]
  have htext : (lineOf depth s value).toList ++ w =
      (Json.newline depth).toList ++ '"' :: s.name.toList ++ '"' :: [] ++ [':'] ++ [' '] ++
        Nat.toDigits 10 value.toNat ++ w := by
    simp [lineOf, toList_quote_name, hdigits]
  rw [htext]
  exact hmember

theorem gives_lines (c : Config) (s : Setting) (settings : List Setting) (depth : Nat) (hw : Blanks w) :
    GivesMembers ((s :: settings).map fun s => (s, c.get s))
      ((Json.prettyMembers depth ((s :: settings).map fun s => (s.name, .number (c.get s).toNat))).toList ++ w) := by
  induction settings generalizing s with
  | nil => exact .last (gives_line s (c.get s) depth hw)
  | cons s' settings ih =>
    have hmore := GivesMembers.more (gives_line s (c.get s) depth (w := []) (by decide)) (ih s')
    have htext : (Json.prettyMembers depth
          ((s :: s' :: settings).map fun s => (s.name, .number (c.get s).toNat))).toList ++ w =
        (lineOf depth s (c.get s)).toList ++ [] ++ ',' :: ((Json.prettyMembers depth
            ((s' :: settings).map fun s => (s.name, .number (c.get s).toNat))).toList ++ w) := by
      simp [lineOf, Json.prettyMembers]
    rw [htext]
    exact hmore

/-- **The text of settings gives all of them.** -/
theorem gives_pretty (c : Config) : GivesSettings c.givenBy c.toJson.pretty.toList := by
  have hlines := gives_lines c .cleanCacheSize [.cleanCacheShards, .idealBatchSize, .preimageFlushThreshold] 1
    (blanks_newline 0)
  have hnone : Blanks [] := by decide
  have hgives := GivesSettings.members hnone hlines hnone
  have htext : c.toJson.pretty.toList =
      [] ++ '{' :: ((Json.prettyMembers 1 (Setting.all.map fun s => (s.name, .number (c.get s).toNat))).toList ++
        (Json.newline 0).toList) ++ '}' :: [] := by
    have hpretty : c.toJson.pretty = "\x7b" ++ Json.prettyMembers 1
        (Setting.all.map fun s => (s.name, .number (c.get s).toNat)) ++ Json.newline 0 ++ "\x7d" := rfl
    rw [hpretty]
    simp
  rw [htext]
  exact hgives

end Config

end MerkleBuffer
