import Peg.Match.Build
import Peg.Text.Offset

/-!
# Bracketed forms

The bracketed form of a match is its text if it is a leaf, and otherwise its tag followed by the
bracketed forms of its children, in brackets. It is made with `Match.build`, and can be told to
refuse a tag.
-/

namespace Peg.Match

variable {Id : Type}

/-- Why there is no bracketed form. -/
inductive BracketError where
  /-- The span of a leaf cannot be cut out of the text. -/
  | noText
  /-- A tag was refused. -/
  | refused (message : String)
deriving DecidableEq

/-- The bracketed form of one match from those of its children. -/
def bracket (display : Id → String) (text : String) (id : Id) (span : Span)
    (children : List String) : Except BracketError String :=
  if children.isEmpty then
    match span.text? text with
    | some t => .ok t
    | none => .error .noText
  else .ok ("(" ++ display id ++ " " ++ String.intercalate " " children ++ ")")

/-- The same, refusing a tag. The refusal says where the match was and how many children it had. -/
def bracketUnless [DecidableEq Id] (refused : Id) (display : Id → String) (text : String) (id : Id)
    (span : Span) (children : List String) : Except BracketError String :=
  if id = refused then
    .error (.refused (display id ++ " at " ++ Nat.repr span.start ++ " with "
      ++ Nat.repr children.length ++ " children"))
  else bracket display text id span children

/-- The bracketed forms of a forest. -/
def bracketed (display : Id → String) (text : String) (forest : List (Match Id)) :
    Except BracketError (List String) :=
  build (bracket display text) forest

/-- The bracketed forms of a forest that must not contain a tag. -/
def bracketedUnless [DecidableEq Id] (refused : Id) (display : Id → String) (text : String)
    (forest : List (Match Id)) : Except BracketError (List String) :=
  build (bracketUnless refused display text) forest

end Peg.Match
