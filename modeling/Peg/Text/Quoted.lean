import Peg.Text.Character

/-!
# Quoted text

The quoted form of a text stands between double quotes. A double quote and a backslash inside it
are written after a backslash, the usual control characters by their letters, and every other
character that would not be seen as itself by its code point in braces: those that are not
printable, those that are drawn together with the character before them, and those that leave
nothing to be seen. A single quote needs no escape.
-/

namespace Peg.Text

/-- The hexadecimal digits of a number, in lower case and without leading zeros. -/
def hex (n : Nat) : List Char := Nat.toDigits 16 n

/-- A character written by its code point. -/
def byCodePoint (c : Char) : List Char :=
  ['\\', 'u', '\x7b'] ++ hex c.toNat ++ ['\x7d']

/-- A character as it stands in a quoted text. -/
def escape (c : Char) : List Char :=
  if c = '\x00' then ['\\', '0']
  else if c = '\t' then ['\\', 't']
  else if c = '\r' then ['\\', 'r']
  else if c = '\n' then ['\\', 'n']
  else if c = '"' then ['\\', '"']
  else if c = '\\' then ['\\', '\\']
  else if isExtending c || isIgnorable c || !isPrintable c then byCodePoint c
  else [c]

/-- The quoted form of a text. -/
def quote (text : String) : String :=
  String.ofList ('"' :: (text.toList.flatMap escape ++ ['"']))

end Peg.Text
