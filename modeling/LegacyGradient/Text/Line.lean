/-
  LegacyGradient.Text.Line

  The lines of a text. A line ends at a line feed, and a carriage return right before that line
  feed belongs to the line end. What follows the last line feed is a line too, unless it is empty,
  and it keeps a carriage return at its end.
-/
import LegacyGradient.Text.Basic

namespace LegacyGradient.Text

/-- A line whose characters are given last one first, without one carriage return at its end. -/
def endedLine : Text → Text
  | '\r' :: reversed => reversed.reverse
  | reversed => reversed.reverse

/-- The lines of a text, when the characters in `reversed`, last one first, stand before it on its
first line. -/
def linesFrom (reversed : Text) : Text → List Text
  -- no line feed ends the last line, so it keeps a carriage return
  | [] => if reversed.isEmpty then [] else [reversed.reverse]
  | c :: rest =>
    if c = '\n' then endedLine reversed :: linesFrom [] rest
    else linesFrom (c :: reversed) rest

/-- The lines of a text, without their line ends. -/
def lines (t : Text) : List Text := linesFrom [] t

end LegacyGradient.Text
