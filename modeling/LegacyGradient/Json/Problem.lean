/-
  LegacyGradient.Json.Problem

  What can be wrong with a JSON text that is read as a value of a given type. It may break the
  rules of JSON, it may end early, or it may hold something else than the type asks for. The last
  has a message.
-/
import LegacyGradient.Json.Number
import LegacyGradient.Text.Quoted

namespace LegacyGradient.Json

/-- A value as a message names it. -/
inductive Found where
  /-- The value null. -/
  | null
  /-- A truth value. -/
  | boolean (value : Bool)
  /-- A number written as an integer, of at most 64 bits. -/
  | integer (value : Int)
  /-- Any other number. -/
  | number (value : Binary64)
  /-- A string. -/
  | string (value : Text)
  /-- An array. -/
  | sequence
  /-- An object. -/
  | object
  /-- A variant without a value. -/
  | plainVariant
deriving DecidableEq

/-- The decimal text of an integer. -/
def integerText (i : Int) : Text :=
  if i < 0 then '-' :: Text.ofNat i.natAbs else Text.ofNat i.natAbs

/-- A name set off by grave accents. -/
def named (t : Text) : Text := '\x60' :: t ++ ['\x60']

/-- The phrase for a value. -/
def Found.phrase : Found → Text
  | null => "null".toList
  | boolean value => "boolean ".toList ++ named (if value then "true".toList else "false".toList)
  | integer value => "integer ".toList ++ named (integerText value)
  | number value => "floating point ".toList ++ named (numberText value)
  | string value => "string ".toList ++ value.quoted
  | sequence => "sequence".toList
  | object => "map".toList
  | plainVariant => "unit variant".toList

/-- A value that does not fit the type. -/
inductive Mismatch where
  /-- The value is of another kind than expected. -/
  | wrongType (found : Found) (expected : Text)
  /-- The value is of the right kind and out of range. -/
  | wrongValue (found : Found) (expected : Text)
  /-- An array has too few elements. -/
  | wrongLength (length : Nat) (expected : Text)
  /-- An object has a field that the type does not know. -/
  | unknownField (name : Text) (known : List Text)
  /-- An object has a field twice. -/
  | duplicateField (name : Text)
  /-- An object lacks a field. -/
  | missingField (name : Text)
  /-- A variant has a name that the type does not know. -/
  | unknownVariant (name : Text) (known : List Text)
deriving DecidableEq

/-- The phrase that lists the names to choose from. -/
def choices : List Text → Text
  | [] => []
  | [a] => "expected ".toList ++ named a
  | [a, b] => "expected ".toList ++ named a ++ " or ".toList ++ named b
  | names => "expected one of ".toList ++ Text.join Text.commaBlank (names.map named)

/-- The message for a value that does not fit. -/
def Mismatch.message : Mismatch → Text
  | wrongType found expected =>
    "invalid type: ".toList ++ found.phrase ++ ", expected ".toList ++ expected
  | wrongValue found expected =>
    "invalid value: ".toList ++ found.phrase ++ ", expected ".toList ++ expected
  | wrongLength length expected =>
    "invalid length ".toList ++ Text.ofNat length ++ ", expected ".toList ++ expected
  | unknownField name known => "unknown field ".toList ++ named name ++ ", ".toList ++ choices known
  | duplicateField name => "duplicate field ".toList ++ named name
  | missingField name => "missing field ".toList ++ named name
  | unknownVariant name known =>
    "unknown variant ".toList ++ named name ++ ", ".toList ++ choices known

/-- The first thing wrong with a JSON text. -/
inductive Problem where
  /-- A value does not fit the type that is read. -/
  | mismatch (cause : Mismatch)
  /-- The text breaks the rules of JSON. -/
  | malformed
  /-- The text ends before the value does. -/
  | truncated
deriving DecidableEq

end LegacyGradient.Json
