import Peg.Grammar.Parse
import Peg.Text.Place

/-!
# Diagnostics

A diagnostic points at a place in a text and says what is wrong there:

    a number is missing
      --> sums.txt:12:6
       |
    12 | 3 + (*)
       |      ^ a number is missing

The caret stands below the character at the place. A line is quoted without its line feed, and
without a carriage return just before it. The caret is lined up in a field as wide as its column
number, so there is no diagnostic for a place in a column beyond the widest field.
-/

namespace Peg

/-- What to say about a place in a text. -/
structure Diagnostic where
  /-- The text. -/
  text : List Char
  /-- A byte offset in the text. -/
  position : Nat
  /-- What to say. -/
  message : String := "unexpected input"
  /-- Where the text comes from. -/
  filename : String := "<UNKNOWN>"

namespace Diagnostic

/-- The diagnostic of an offset, or of the end of the text if that comes first. -/
def atOffset (text : String) (offset : Nat) : Diagnostic :=
  { text := text.toList, position := min (Text.size text.toList) offset }

/-- The diagnostic of a parse: it points at the furthest position that was reached. -/
def ofOutcome {Id : Type} (text : String) (outcome : Outcome Id) : Diagnostic :=
  atOffset text outcome.furthest

/-- The diagnostic of a recovered syntax error, which it names. -/
def ofSyntaxError {Id : Type} (display : Id → String) (text : String) (error : SyntaxError Id) :
    Diagnostic :=
  { atOffset text error.position with message := "syntax error: " ++ display error.id }

/-- The diagnostic with another message. -/
def withMessage (message : String) (d : Diagnostic) : Diagnostic := { d with message := message }

/-- The diagnostic with another name for the text. -/
def withFilename (filename : String) (d : Diagnostic) : Diagnostic :=
  { d with filename := filename }

/-- A line without the carriage return that belongs to its line feed. -/
def withoutReturn (line : List Char) : List Char :=
  if line.getLast? = some '\r' then line.dropLast else line

/-- The line around a place, given the text before the place and the text after it. -/
def quotedLine (before after : List Char) : List Char :=
  let line := (before.reverse.takeWhile (· ≠ '\n')).reverse ++ after.takeWhile (· ≠ '\n')
  if '\n' ∈ after then withoutReturn line else line

/-- The five lines of the diagnostic, given the text before the place and the text after it. -/
def lines (d : Diagnostic) (before after : List Char) : List String :=
  let place := Text.Place.after before
  let number := Nat.repr place.line
  let margin := Text.spaces number.length
  let header := if after.isEmpty then d.message ++ ", reached EOS" else d.message
  [ header,
    "  --> " ++ d.filename ++ ":" ++ number ++ ":" ++ Nat.repr place.column,
    margin ++ " |",
    number ++ " | " ++ String.ofList (quotedLine before after),
    margin ++ " | " ++ Text.spaces (place.column - 1) ++ "^ " ++ d.message ]

/-- The text of the diagnostic. There is none for an offset inside a character, and none for a place
in a column beyond the widest field. -/
def render? (d : Diagnostic) : Option String :=
  match Text.take? d.position d.text, Text.drop? d.position d.text with
  | some before, some after =>
    if (Text.Place.after before).column ≤ Text.maxWidth then
      some (String.join ((d.lines before after).map (· ++ "\n")))
    else none
  | _, _ => none

end Diagnostic

end Peg
