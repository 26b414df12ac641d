import Peg.Row

/-!
# Byte offsets in a text

A text is a row of characters whose positions are the byte offsets of its UTF-8 form. It can be cut
between characters only, and the functions here answer `none` for an offset inside a character or
beyond the end.
-/

namespace Peg.Text

/-- The number of bytes of a text in UTF-8. -/
def size (text : List Char) : Nat := Row.size Char.utf8Size text

/-- The text before a byte offset. -/
def take? (offset : Nat) (text : List Char) : Option (List Char) :=
  Row.take? Char.utf8Size offset text

/-- The text from a byte offset on. -/
def drop? (offset : Nat) (text : List Char) : Option (List Char) :=
  Row.drop? Char.utf8Size offset text

/-- Whether a byte offset lies between characters, or at an end of the text. -/
def isBoundary (text : List Char) (offset : Nat) : Bool :=
  Row.isBoundary Char.utf8Size text offset

end Peg.Text

namespace Peg

/-- The text a span covers, if the text can be cut at both of its ends. -/
def Span.text? (span : Span) (text : String) : Option String :=
  (Row.slice? Char.utf8Size span text.toList).map String.ofList

end Peg
