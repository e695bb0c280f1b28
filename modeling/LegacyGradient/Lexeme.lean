/-
  LegacyGradient.Lexeme

  Lexemes, the rules for the tokens of a gradient. A lexeme finds a match at the front of a text and
  leaves the rest, and the two joined are the text again, which is part of the type. Lexemes are
  put together by sequence (`++`), by ordered choice (`<|>`, where the first alternative that
  matches is final) and by repetition with separators.
-/
import LegacyGradient.Text.Blank

namespace LegacyGradient

/-- A rule that matches at the front of a text. -/
structure Lexeme where
  /-- The match and the rest, or `none` if the text does not begin with a match. -/
  scan : Text → Option (Text × Text)
  /-- Nothing is lost: the match and the rest make up the text. -/
  append_of_scan : ∀ {t m rest : Text}, scan t = some (m, rest) → m ++ rest = t

namespace Lexeme

instance : CoeFun Lexeme fun _ => Text → Option (Text × Text) := ⟨scan⟩

/-! ## Single lexemes -/

/-- Exactly this word. -/
def word (w : Text) : Lexeme where
  scan t := if w.isPrefixOf t then some (w, t.drop w.length) else none
  append_of_scan h := by
    split at h
    case isTrue hw =>
      obtain ⟨rest, rfl⟩ := List.isPrefixOf_iff_prefix.1 hw
      simp_all
    case isFalse => contradiction

/-- Exactly this character. -/
def char (c : Char) : Lexeme := word [c]

/-- Nothing: the lexeme without a match. -/
def never : Lexeme where
  scan _ := none
  append_of_scan h := by contradiction

/-- The longest run of characters of a class, possibly empty. -/
def run (p : Char → Bool) : Lexeme where
  scan t := some (t.takeWhile p, t.dropWhile p)
  append_of_scan h := by
    simp only [Option.some.injEq, Prod.mk.injEq] at h
    rw [← h.1, ← h.2, List.takeWhile_append_dropWhile]

/-! ## Lexemes made of others -/

/-- The matches of a lexeme that satisfy a condition. -/
def such (p : Text → Bool) (a : Lexeme) : Lexeme where
  scan t := (a t).filter fun (m, _) => p m
  append_of_scan h := a.append_of_scan (Option.filter_eq_some_iff.1 h).1

/-- The longest run of characters of a class, at least one. -/
def run1 (p : Char → Bool) : Lexeme := (run p).such (!·.isEmpty)

/-- A match of one lexeme and right after it one of another. -/
def append (a b : Lexeme) : Lexeme where
  scan t :=
    match a t with
    | none => none
    | some (m, rest) => (b rest).map fun (n, rest) => (m ++ n, rest)
  append_of_scan h := by
    split at h
    case h_1 => contradiction
    case h_2 m rest ha =>
      obtain ⟨⟨n, rest'⟩, hb, he⟩ := Option.map_eq_some_iff.1 h
      simp only [Prod.mk.injEq] at he
      rw [← a.append_of_scan ha, ← b.append_of_scan hb, ← he.1, ← he.2, List.append_assoc]

instance : Append Lexeme := ⟨append⟩

/-- A match of the first lexeme, or of the second where the first has none. -/
def orElse (a b : Lexeme) : Lexeme where
  scan t :=
    match a t with
    | some found => some found
    | none => b t
  append_of_scan h := by
    split at h
    case h_1 ha => exact a.append_of_scan (ha.trans h)
    case h_2 => exact b.append_of_scan h

instance : OrElse Lexeme := ⟨fun a b => orElse a (b ())⟩

/-- The first of the words with which the text begins. -/
def oneOf (words : List Text) : Lexeme := words.foldr (fun w others => word w <|> others) never

/-- A match of the lexeme, or the empty one where it has none. -/
def optional (a : Lexeme) : Lexeme := a.orElse (word [])

/-- A run of the blanks that may stand between tokens. -/
def gap : Lexeme := run Text.isGap

/-- A run of at least one of the blanks that may stand between tokens. -/
def gap1 : Lexeme := run1 Text.isGap

/-! ## Repetition -/

theorem length_rest_le (a : Lexeme) {t m rest : Text} (h : a t = some (m, rest)) :
    rest.length ≤ t.length := by
  have := congrArg List.length (a.append_of_scan h)
  simp only [List.length_append] at this
  omega

/-- What follows the first item of a list: separators with an item after each, as many as there
are. A separator that no item follows is left where it is. -/
def moreItems (separator : Char) (item : Lexeme) (t : Text) : Text × Text :=
  match t with
  | [] => ([], [])
  | c :: rest =>
    if c = separator then
      match _found : item rest with
      -- the separator is given back
      | none => ([], c :: rest)
      | some (m, rest) =>
        let (more, rest) := moreItems separator item rest
        (c :: m ++ more, rest)
    else ([], c :: rest)
termination_by t.length
decreasing_by
  -- the separator alone makes the rest shorter, even if the item is empty
  have := length_rest_le item _found
  simp only [List.length_cons]
  omega

theorem append_moreItems (separator : Char) (item : Lexeme) (t : Text) :
    (moreItems separator item t).1 ++ (moreItems separator item t).2 = t := by
  fun_induction moreItems separator item t with
  | case1 => rfl
  | case2 => rfl
  | case3 rest m rest' found more rest'' later ih =>
    rw [later] at ih
    simp [ih, item.append_of_scan found]
  | case4 => rfl

/-- One item or more with a separator between neighbours. -/
def separated (separator : Char) (item : Lexeme) : Lexeme where
  scan t := (item t).map fun (m, rest) =>
    let (more, rest) := moreItems separator item rest
    (m ++ more, rest)
  append_of_scan h := by
    obtain ⟨⟨m, rest⟩, hi, he⟩ := Option.map_eq_some_iff.1 h
    simp only [Prod.mk.injEq] at he
    rw [← he.1, ← he.2, List.append_assoc, append_moreItems, item.append_of_scan hi]

end Lexeme

/-- The value of a scan that leaves nothing of the text. -/
def wholeText {α : Type} (scan : Text → Option (α × Text)) (t : Text) : Option α :=
  match scan t with
  | some (value, []) => some value
  | _ => none

end LegacyGradient
