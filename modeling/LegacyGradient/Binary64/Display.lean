/-
  LegacyGradient.Binary64.Display

  The text of a number in messages and in the written gradient: the fewest digits that read back,
  always in their places and without a needless point, a minus sign also before a zero that has
  one, and words for what is not finite.
-/
import LegacyGradient.Decimal.Shortest

namespace LegacyGradient.Binary64

/-- The text of a number. -/
def display : Binary64 → Text
  | nan => ['N', 'a', 'N']
  | ranked negative r =>
    let distance :=
      if r = .zero then ['0']
      else if r = .top then ['i', 'n', 'f']
      else (Decimal.shortest .up r).positional
    if negative then '-' :: distance else distance

end LegacyGradient.Binary64
