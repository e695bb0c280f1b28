/-
  LegacyGradient.Json.Reader

  Readers take a value from the front of a JSON text and leave the rest, or stop at the first
  problem. What is left is never longer than what was given, which is part of the type and lets the
  loops over arrays and objects end. Readers form a monad, so that a format is written down as the
  steps of its reading.
-/
import LegacyGradient.Json.Problem
import LegacyGradient.Text.Blank

namespace LegacyGradient.Json

/-- A way to read a value at the front of a text. -/
structure Reader (α : Type) where
  /-- The value and the rest of the text, or the first problem. -/
  run : Text → Except Problem (α × Text)
  /-- The rest is not longer than the text. -/
  length_le : ∀ {t : Text} {a : α} {rest : Text},
    run t = .ok (a, rest) → rest.length ≤ t.length

namespace Reader

variable {α β : Type}

/-- Takes nothing and gives a value. -/
protected def pure (a : α) : Reader α where
  run t := .ok (a, t)
  length_le h := by cases h; exact Nat.le_refl _

/-- Reads, and goes on with a reader that may depend on the value read. -/
protected def bind (r : Reader α) (f : α → Reader β) : Reader β where
  run t :=
    match r.run t with
    | .error problem => .error problem
    | .ok (a, rest) => (f a).run rest
  length_le h := by
    split at h
    case h_1 => contradiction
    case h_2 a rest hr => exact Nat.le_trans ((f a).length_le h) (r.length_le hr)

instance : Monad Reader where
  pure := Reader.pure
  bind := Reader.bind

/-- Stops with a problem. -/
def fail (problem : Problem) : Reader α where
  run _ := .error problem
  length_le h := by contradiction

/-- Goes on with a value, or stops with the mismatch in its place. -/
def accept : Except Mismatch α → Reader α
  | .ok a => pure a
  | .error cause => fail (.mismatch cause)

/-- The first character of the text, which stays there. -/
def here : Reader (Option Char) where
  run t := .ok (t.head?, t)
  length_le h := by cases h; exact Nat.le_refl _

theorem length_dropWhile_le (p : Char → Bool) (t : Text) :
    (t.dropWhile p).length ≤ t.length :=
  (List.dropWhile_suffix p).length_le

/-- What comes after the first character outside a class is shorter than the text. -/
theorem length_lt_of_dropWhile {p : Char → Bool} {t rest : Text} {c : Char}
    (h : t.dropWhile p = c :: rest) : rest.length < t.length := by
  have := length_dropWhile_le p t
  rw [h, List.length_cons] at this
  omega

/-- The first character after any blanks. The blanks are taken and the character stays. -/
def peek : Reader (Option Char) where
  run t := .ok ((t.dropWhile Text.isGap).head?, t.dropWhile Text.isGap)
  length_le h := by cases h; exact length_dropWhile_le _ _

/-- Takes one character. -/
def skip1 : Reader Unit where
  run t := .ok ((), t.drop 1)
  length_le h := by cases h; simp

/-- Takes the longest run of characters of a class. -/
def takeRun (p : Char → Bool) : Reader Text where
  run t := .ok (t.takeWhile p, t.dropWhile p)
  length_le h := by cases h; exact length_dropWhile_le _ _

/-- Takes exactly the characters of a word. -/
def word : Text → Reader Unit
  | [] => pure ()
  | c :: w => do
    match ← here with
    | none => fail .truncated
    | some d => if d = c then do skip1; word w else fail .malformed

/-- Takes one character after any blanks, which has to be this one. -/
def mark (c : Char) : Reader Unit := do
  match ← peek with
  | none => fail .truncated
  | some d => if d = c then skip1 else fail .malformed

/-- The value of a text that holds nothing else but blanks. -/
def whole (r : Reader α) (t : Text) : Except Problem α :=
  match r.run t with
  | .error problem => .error problem
  | .ok (a, rest) => if (rest.dropWhile Text.isGap).isEmpty then .ok a else .error .malformed

end Reader

end LegacyGradient.Json
