import Peg.Text.Offset

/-!
# Lines and columns

A place in a text is a line and a column, both counted from one. Lines end with a line feed and
columns count characters, so the column of a place does not depend on how wide the characters
before it are in UTF-8. Text is lined up under a column by padding it with spaces.
-/

namespace Peg.Text

/-- A line and a column, both counted from one. -/
structure Place where
  /-- One more than the number of line feeds before the place. -/
  line : Nat
  /-- One more than the number of characters since the last of them. -/
  column : Nat
deriving DecidableEq

namespace Place

/-- The place at the beginning of every text. -/
def origin : Place := ⟨1, 1⟩

/-- The place just after a character. -/
def next (p : Place) (c : Char) : Place :=
  if c = '\n' then ⟨p.line + 1, 1⟩ else ⟨p.line, p.column + 1⟩

/-- The place just after a text. -/
def after (text : List Char) : Place := text.foldl next origin

end Place

/-- The place of a byte offset. An offset beyond the text counts as its end; one inside a
character has no place. -/
def place? (text : List Char) (offset : Nat) : Option Place :=
  (take? (min offset (size text)) text).map Place.after

/-! ## Padding

Columns are lined up with spaces. No field is padded to more than `maxWidth` characters; a layout
that would need more has no text.
-/

/-- A number of spaces. -/
def spaces (n : Nat) : String := String.ofList (List.replicate n ' ')

/-- The width of the widest field there is. -/
def maxWidth : Nat := 65535

end Peg.Text
