/-
The grammar of JSON texts, over characters.

Numbers and strings are built from their parts (`Unsigned`, `Content`), and values, items and
members from those (`Derives`). A string that is read as a name has a meaning too, for
which an escaped surrogate needs its other half (`Spells`). Nothing here knows of a reader.
-/
import MerkleBuffer.Bytes

namespace MerkleBuffer.JsonGrammar

/-- Blanks that may stand between tokens. -/
def Blanks (w : List Char) : Prop := ∀ c ∈ w, c ∈ [' ', '\t', '\n', '\r']

instance (w : List Char) : Decidable (Blanks w) := List.decidableBAll _ w

/-! ## Numbers -/

/-- Any digits, and at least one. -/
def Digits (ds : List Char) : Prop := ds ≠ [] ∧ ∀ d ∈ ds, d.isDigit = true

instance (ds : List Char) : Decidable (Digits ds) := @instDecidableAnd _ _ _ (List.decidableBAll _ ds)

/-- The part of a number in front of its point: no zero stands in front of others. -/
inductive Whole : List Char → Prop
  | zero : Whole ['0']
  | digits {d : Char} {ds : List Char} (hne : d ≠ '0') (hds : Digits (d :: ds)) : Whole (d :: ds)

/-- The part of a number behind its point, if it has one. -/
inductive Fraction : List Char → Prop
  | none : Fraction []
  | digits {ds : List Char} (hds : Digits ds) : Fraction ('.' :: ds)

/-- The exponent of a number, if it has one. -/
inductive Exponent : List Char → Prop
  | none : Exponent []
  | digits {e : Char} {sign ds : List Char} (he : e ∈ ['e', 'E']) (hsign : sign ∈ [[], ['+'], ['-']])
      (hds : Digits ds) : Exponent (e :: sign ++ ds)

/-- A number behind its sign. -/
inductive Unsigned : List Char → Prop
  | parts {whole fraction exponent : List Char} (hw : Whole whole) (hf : Fraction fraction) (he : Exponent exponent) :
      Unsigned (whole ++ fraction ++ exponent)

/-! ## Strings -/

/-- A character that stands for itself inside quotes. -/
def Plain (c : Char) : Prop := c ≠ '"' ∧ c ≠ '\\' ∧ 32 ≤ c.toNat

instance (c : Char) : Decidable (Plain c) := inferInstanceAs (Decidable (c ≠ '"' ∧ c ≠ '\\' ∧ 32 ≤ c.toNat))

/-- A text of such characters. -/
def Plains (t : List Char) : Prop := ∀ c ∈ t, Plain c

instance (t : List Char) : Decidable (Plains t) := List.decidableBAll _ t

/-- The characters that may follow a backslash, and what they stand for. -/
def shortEscapes : List (Char × Char) :=
  [('"', '"'), ('\\', '\\'), ('/', '/'), ('b', Char.ofNat 8), ('f', Char.ofNat 12), ('n', '\n'), ('r', '\r'),
    ('t', '\t')]

/-- A hexadecimal digit of either case. -/
inductive HexDigit : Char → Nat → Prop
  | lower {x : Nat} (hx : x < 16) : HexDigit x.digitChar x
  | upper {x : Nat} (hx : x < 16) : HexDigit x.digitChar.toUpper x

/-- An escape of four hexadecimal digits, behind its backslash. -/
inductive Code : List Char → Nat → Prop
  | digits {a b c d : Char} {x y z w : Nat} (ha : HexDigit a x) (hb : HexDigit b y) (hc : HexDigit c z)
      (hd : HexDigit d w) : Code ['u', a, b, c, d] (4096 * x + 256 * y + 16 * z + w)

/-- What may stand inside quotes. -/
inductive Content : List Char → Prop
  | nil : Content []
  | plain {c : Char} {t : List Char} (hc : Plain c) (ht : Content t) : Content (c :: t)
  | short {e c : Char} {t : List Char} (he : (e, c) ∈ shortEscapes) (ht : Content t) : Content ('\\' :: e :: t)
  | code {code t : List Char} {n : Nat} (hn : Code code n) (ht : Content t) : Content ('\\' :: code ++ t)

/-- What stands inside quotes, and the text that it means. An escape of four digits is a
character, or two of them are, the halves of a surrogate pair. -/
inductive Spells : List Char → List Char → Prop
  | nil : Spells [] []
  | plain {c : Char} {t text : List Char} (hc : Plain c) (ht : Spells t text) : Spells (c :: t) (c :: text)
  | short {e c : Char} {t text : List Char} (he : (e, c) ∈ shortEscapes) (ht : Spells t text) :
      Spells ('\\' :: e :: t) (c :: text)
  | code {code t text : List Char} {c : Char} (hc : Code code c.toNat) (ht : Spells t text) :
      Spells ('\\' :: code ++ t) (c :: text)
  | pair {code code' t text : List Char} {c : Char} {x y : Nat} (hx : Code code (0xD800 + x))
      (hy : Code code' (0xDC00 + y)) (hx' : x < 0x400) (hy' : y < 0x400) (hc : c.toNat = 0x10000 + 0x400 * x + y)
      (ht : Spells t text) : Spells ('\\' :: code ++ '\\' :: code' ++ t) (c :: text)

/-- A name of a member, with the blanks around it and its colon. -/
inductive Key (name : List Char → Prop) : List Char → Prop
  | colon {w t w' : List Char} (hw : Blanks w) (ht : name t) (hw' : Blanks w') :
      Key name (w ++ '"' :: t ++ '"' :: w' ++ [':'])

/-! ## Values -/

/-- What the texts of a JSON value are made of. -/
inductive Part where
  | value
  | items
  | members

/-- The texts of values, and of what stands inside brackets and braces that are not empty. -/
inductive Derives : Part → List Char → Prop
  | word {t : List Char} (ht : t ∈ ["null".toList, "true".toList, "false".toList]) : Derives .value t
  | number {t : List Char} (ht : Unsigned t) : Derives .value t
  | negative {t : List Char} (ht : Unsigned t) : Derives .value ('-' :: t)
  | string {t : List Char} (ht : Content t) : Derives .value ('"' :: t ++ ['"'])
  | noItems {w : List Char} (hw : Blanks w) : Derives .value ('[' :: w ++ [']'])
  | list {t : List Char} (ht : Derives .items t) : Derives .value ('[' :: t ++ [']'])
  | noMembers {w : List Char} (hw : Blanks w) : Derives .value ('{' :: w ++ ['}'])
  | object {t : List Char} (ht : Derives .members t) : Derives .value ('{' :: t ++ ['}'])
  | item {w t w' : List Char} (hw : Blanks w) (ht : Derives .value t) (hw' : Blanks w') :
      Derives .items (w ++ t ++ w')
  | moreItems {w t w' more : List Char} (hw : Blanks w) (ht : Derives .value t) (hw' : Blanks w')
      (hmore : Derives .items more) : Derives .items (w ++ t ++ w' ++ ',' :: more)
  | member {key w t w' : List Char} (hkey : Key Content key) (hw : Blanks w) (ht : Derives .value t)
      (hw' : Blanks w') : Derives .members (key ++ w ++ t ++ w')
  | moreMembers {key w t w' more : List Char} (hkey : Key Content key) (hw : Blanks w) (ht : Derives .value t)
      (hw' : Blanks w') (hmore : Derives .members more) : Derives .members (key ++ w ++ t ++ w' ++ ',' :: more)

end MerkleBuffer.JsonGrammar
