/-
  LegacyGradient.Text.Quoted

  Quoting a text for a message. The text stands between double quotes; a double quote, a backslash,
  a tab, a carriage return, a line feed and the null character have short escapes, every other
  hidden character is written as its code point in lowercase hexadecimal digits, and all else
  stands for itself.
-/
import LegacyGradient.Text.Printable

namespace LegacyGradient.Text

/-- The written form of one character of a quoted text. -/
def quotedChar (c : Char) : Text :=
  if c = '"' then ['\\', '"']
  else if c = '\\' then ['\\', '\\']
  else if c = '\t' then ['\\', 't']
  else if c = '\r' then ['\\', 'r']
  else if c = '\n' then ['\\', 'n']
  else if c = '\x00' then ['\\', '0']
  else if isHidden c then ['\\', 'u', '\x7b'] ++ Nat.toDigits 16 c.toNat ++ ['\x7d']
  else [c]

/-- A text between double quotes, with what could not be read back or seen written as escapes. -/
def quoted (t : Text) : Text := ['"'] ++ t.flatMap quotedChar ++ ['"']

end LegacyGradient.Text
