/-
  LegacyGradient.Text.Cut

  Cutting a text at its outermost commas. The depth of a place is the number of parentheses open
  there, where a closing parenthesis with none open counts for nothing; a comma at depth zero cuts.
  Both the stops of a gradient and the gradients of a property value are cut this way, so there is
  one definition for both. Joined with commas the pieces are the text again (`join_pieces`).
-/
import LegacyGradient.Text.Basic

namespace LegacyGradient.Text

/-- The number of open parentheses after `c`, when `depth` are open before it. -/
def nesting (depth : Nat) (c : Char) : Nat :=
  if c = '(' then depth + 1 else if c = ')' then depth - 1 else depth

/-- The number of open parentheses at the end of a text that begins at depth `depth`. -/
def depthAfter (depth : Nat) (t : Text) : Nat := t.foldl nesting depth

/-- The first piece of a text that begins at depth `depth`, and the pieces after it. -/
def piecesFrom (depth : Nat) : Text → Text × List Text
  | [] => ([], [])
  | c :: rest =>
    if c = ',' ∧ depth = 0 then
      -- the comma belongs to no piece
      let (piece, others) := piecesFrom 0 rest
      ([], piece :: others)
    else
      let (piece, others) := piecesFrom (nesting depth c) rest
      (c :: piece, others)

/-- The pieces of a text between its commas at depth zero. There is at least one. -/
def pieces (t : Text) : List Text :=
  let (piece, others) := piecesFrom 0 t
  piece :: others

theorem join_piecesFrom (depth : Nat) (t : Text) :
    join [','] ((piecesFrom depth t).1 :: (piecesFrom depth t).2) = t := by
  induction t generalizing depth with
  | nil => rfl
  | cons c rest ih =>
    simp only [piecesFrom]
    split
    -- a cut: the piece that ends here is empty, and the comma comes back by joining
    case isTrue h =>
      have := ih 0
      simp_all [join, List.intercalate]
    -- no cut: the character goes to the front of the first piece
    case isFalse h =>
      have := ih (nesting depth c)
      cases hp : piecesFrom (nesting depth c) rest with
      | mk piece others =>
        cases others <;> simp_all [join, List.intercalate]

/-- Cutting loses nothing: the pieces joined with commas are the text. -/
theorem join_pieces (t : Text) : join [','] (pieces t) = t :=
  join_piecesFrom 0 t

end LegacyGradient.Text
