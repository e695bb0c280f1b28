/-
  LegacyGradient.Json.Compact

  Writing JSON without any blanks: arrays, objects with their fields in the order given, and the
  values of the plain types.
-/
import LegacyGradient.Json.String

namespace LegacyGradient.Json

/-- The text of a truth value. -/
def boolText (b : Bool) : Text := if b then "true".toList else "false".toList

/-- The text of a value that may be absent. -/
def optionalText {α : Type} (write : α → Text) : Option α → Text
  | none => "null".toList
  | some a => write a

/-- The text of an array with these elements. -/
def arrayText (elements : List Text) : Text := ['['] ++ Text.join [','] elements ++ [']']

/-- The text of an object with these fields. -/
def objectText (members : List (Text × Text)) : Text :=
  ['\x7b'] ++ Text.join [','] (members.map fun (name, value) => stringText name ++ ':' :: value) ++
    ['\x7d']

end LegacyGradient.Json
