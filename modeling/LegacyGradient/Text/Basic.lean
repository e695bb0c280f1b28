/-
  LegacyGradient.Text.Basic

  Text as a list of characters, so that every scanner and every writer of this library is a plain
  function on lists. Strings occur only where text enters or leaves the program.
-/

namespace LegacyGradient

/-- A text, character by character. -/
abbrev Text := List Char

namespace Text

/-- The parts of a list in order, with `separator` between neighbours. -/
def join (separator : Text) (parts : List Text) : Text :=
  separator.intercalate parts

/-- The comma and blank that separate the parts of a written list. -/
def commaBlank : Text := [',', ' ']

end Text

end LegacyGradient
