/-
  LegacyGradient.Proofs.Json.Grammar

  JSON texts as they may be written. Any blanks may stand between two tokens, a character of a
  string may be written as it is or by one of several escapes (`Spells`), and every other value has
  the texts that the grammar of JSON gives it (`IsValue`). Nothing here refers to a reader.
-/
import LegacyGradient.Text.Basic

namespace LegacyGradient.Json

/-! ## Blanks -/

/-- What may stand between two tokens: spaces, tabs, line feeds and carriage returns. -/
abbrev Blanks := { t : Text // ∀ c ∈ t, c ∈ [' ', '\t', '\n', '\r'] }

/-- No blanks at all. -/
def Blanks.none : Blanks := ⟨[], by simp⟩

/-! ## Strings -/

/-- The letters that may follow a backslash, each with the character that it stands for there. -/
def letterEscapes : List (Char × Char) :=
  [('"', '"'), ('\\', '\\'), ('/', '/'), ('b', '\x08'), ('f', '\x0c'), ('n', '\n'), ('r', '\r'),
    ('t', '\t')]

/-- A hexadecimal digit, of either case, and its value. -/
def HexDigit (c : Char) (n : Nat) : Prop :=
  "0123456789abcdef".toList[n]? = some c ∨ "0123456789ABCDEF".toList[n]? = some c

/-- Four hexadecimal digits and their value. -/
inductive HexUnit : Text → Nat → Prop where
  /-- Each digit counts sixteen times the next one. -/
  | intro {a b c d : Char} {i j k l : Nat} (ha : HexDigit a i) (hb : HexDigit b j)
      (hc : HexDigit c k) (hd : HexDigit d l) :
      HexUnit [a, b, c, d] (0x1000 * i + 0x100 * j + 0x10 * k + l)

/-- The character may be written like this in a string. -/
inductive Spells : Char → Text → Prop where
  /-- The character stands for itself. -/
  | plain {c : Char} (hquote : c ≠ '"') (hescape : c ≠ '\\') (hcontrol : ' ' ≤ c) : Spells c [c]
  /-- A letter after a backslash stands for the character. -/
  | letter {c d : Char} (h : (d, c) ∈ letterEscapes) : Spells c ['\\', d]
  /-- The digits give the code point. -/
  | unit {c : Char} {ds : Text} (h : HexUnit ds c.toNat) : Spells c ('\\' :: 'u' :: ds)
  /-- The digits give the two halves of a surrogate pair. -/
  | pair {c : Char} {ds ds' : Text} {i j : Nat} (hi : i < 0x400) (hj : j < 0x400)
      (hc : c.toNat = 0x10000 + i * 0x400 + j) (hleading : HexUnit ds (0xD800 + i))
      (htrailing : HexUnit ds' (0xDC00 + j)) :
      Spells c ('\\' :: 'u' :: (ds ++ '\\' :: 'u' :: ds'))

/-- The characters of a text may be written like this between the quotes of a string. -/
inductive SpellsText : Text → Text → Prop where
  /-- Nothing is written for no character. -/
  | nil : SpellsText [] []
  /-- The characters are written one after the other. -/
  | cons {c : Char} {s t u : Text} (hc : Spells c t) (hs : SpellsText s u) :
      SpellsText (c :: s) (t ++ u)

/-- The text may stand between the quotes of a string. The halves of surrogate pairs need not come
in pairs here, so that there are strings that stand for no text. -/
inductive IsBody : Text → Prop where
  /-- The empty string. -/
  | nil : IsBody []
  /-- A character for itself. -/
  | plain {c : Char} {t : Text} (hquote : c ≠ '"') (hescape : c ≠ '\\') (hcontrol : ' ' ≤ c)
      (h : IsBody t) : IsBody (c :: t)
  /-- A letter after a backslash. -/
  | letter {c d : Char} {t : Text} (hd : (d, c) ∈ letterEscapes) (h : IsBody t) :
      IsBody ('\\' :: d :: t)
  /-- Four digits after a backslash and their letter. -/
  | unit {ds t : Text} {n : Nat} (hds : HexUnit ds n) (h : IsBody t) :
      IsBody ('\\' :: 'u' :: (ds ++ t))

variable {c : Char} {s t u : Text}

theorem Spells.isBody_append (hc : Spells c t) (hu : IsBody u) : IsBody (t ++ u) := by
  cases hc with
  | plain hquote hescape hcontrol => exact .plain hquote hescape hcontrol hu
  | letter h => exact .letter h hu
  | unit h => exact .unit h hu
  | pair _ _ _ hleading htrailing =>
    have hpair := IsBody.unit hleading (.unit htrailing hu)
    simpa using hpair

theorem SpellsText.append {s' t' : Text} (h : SpellsText s t) (h' : SpellsText s' t') :
    SpellsText (s ++ s') (t ++ t') := by
  induction h with
  | nil => exact h'
  | cons hc _ ih =>
    rw [List.append_assoc]
    exact .cons hc ih

/-- A text without quotes, backslashes and control characters may be written as it is. -/
theorem spellsText_self (h : ∀ c ∈ s, c ≠ '"' ∧ c ≠ '\\' ∧ ' ' ≤ c) : SpellsText s s := by
  induction s with
  | nil => exact .nil
  | cons c s ih =>
    obtain ⟨⟨hquote, hescape, hcontrol⟩, hs⟩ := List.forall_mem_cons.1 h
    exact .cons (.plain hquote hescape hcontrol) (ih hs)

theorem SpellsText.isBody (h : SpellsText s t) : IsBody t := by
  induction h with
  | nil => exact .nil
  | cons hc _ ih => exact hc.isBody_append ih

/-! ## Numbers -/

/-- At least one digit, and nothing else. -/
def IsDigits (t : Text) : Prop := t ≠ [] ∧ ∀ c ∈ t, c.isDigit = true

/-- The power of ten of a number, which may be left out. -/
inductive IsPower : Text → Prop where
  /-- No power of ten. -/
  | none : IsPower []
  /-- A letter, a sign if need be, and digits. -/
  | some {letter : Char} {sign ds : Text} (hletter : letter ∈ ['e', 'E'])
      (hsign : sign ∈ [[], ['+'], ['-']]) (hds : IsDigits ds) : IsPower (letter :: (sign ++ ds))

/-- The point of a number with the digits after it, which may be left out. -/
inductive IsFraction : Text → Prop where
  /-- No point. -/
  | none : IsFraction []
  /-- A point and digits. -/
  | some {ds : Text} (hds : IsDigits ds) : IsFraction ('.' :: ds)

/-- The text is a number. No zero comes first among several digits before the point. -/
inductive IsNumber : Text → Prop where
  /-- A sign if need be, digits, a fraction and a power of ten. -/
  | intro {sign whole fraction power : Text} (hsign : sign ∈ [[], ['-']]) (hwhole : IsDigits whole)
      (hzero : whole.head? = some '0' → whole.length = 1) (hfraction : IsFraction fraction)
      (hpower : IsPower power) : IsNumber (sign ++ (whole ++ (fraction ++ power)))

/-! ## Values -/

/-- A value with the blanks around it, as it stands in an array. -/
structure Element where
  /-- The blanks in front. -/
  before : Blanks
  /-- The text of the value. -/
  value : Text
  /-- The blanks behind. -/
  after : Blanks

/-- The text of an element. -/
def Element.text (e : Element) : Text := e.before ++ (e.value ++ e.after)

/-- A field with the blanks between and around its tokens, as it stands in an object. -/
structure Member where
  /-- The blanks in front. -/
  before : Blanks
  /-- The name, as it is written between its quotes. -/
  key : Text
  /-- The blanks between the name and the colon. -/
  afterKey : Blanks
  /-- The blanks between the colon and the value. -/
  beforeValue : Blanks
  /-- The text of the value. -/
  value : Text
  /-- The blanks behind. -/
  after : Blanks

/-- The text of a field. -/
def Member.text (m : Member) : Text :=
  m.before ++ '"' :: (m.key ++ '"' :: (m.afterKey ++ ':' :: (m.beforeValue ++ (m.value ++ m.after))))

theorem Member.text_append (m : Member) (v : Text) :
    m.text ++ v = m.before ++ '"' :: (m.key ++ '"' :: (m.afterKey ++ ':' ::
      (m.beforeValue ++ (m.value ++ (m.after ++ v))))) := by
  simp [Member.text]

/-- A field with the name that is spelled in it. -/
structure Entry extends Member where
  /-- The name. -/
  name : Text
  /-- The name is the one that is written. -/
  spells : SpellsText name key

/-- An array with these elements. Without any it may still hold blanks. -/
def arrayOf (blanks : Blanks) (elements : List Element) : Text :=
  '[' :: (blanks ++ (Text.join [','] (elements.map Element.text) ++ [']']))

/-- An object with these fields. Without any it may still hold blanks. -/
def objectOf (blanks : Blanks) (members : List Member) : Text :=
  '\x7b' :: (blanks ++ (Text.join [','] (members.map Member.text) ++ ['\x7d']))

theorem objectOf_append (blanks : Blanks) (members : List Member) (v : Text) :
    objectOf blanks members ++ v =
      '\x7b' :: (blanks ++ (Text.join [','] (members.map Member.text) ++ '\x7d' :: v)) := by
  simp [objectOf]

/-- The text is a JSON value. -/
inductive IsValue : Text → Prop where
  /-- The value null or a truth value. -/
  | word {t : Text} (h : t ∈ ["null".toList, "true".toList, "false".toList]) : IsValue t
  /-- A number. -/
  | number {t : Text} (h : IsNumber t) : IsValue t
  /-- A string. -/
  | string {t : Text} (h : IsBody t) : IsValue ('"' :: (t ++ ['"']))
  /-- An array of values. -/
  | array (blanks : Blanks) (elements : List Element) (h : ∀ e ∈ elements, IsValue e.value) :
      IsValue (arrayOf blanks elements)
  /-- An object whose fields have values. -/
  | object (blanks : Blanks) (members : List Member) (hkeys : ∀ m ∈ members, IsBody m.key)
      (hvalues : ∀ m ∈ members, IsValue m.value) : IsValue (objectOf blanks members)

end LegacyGradient.Json
