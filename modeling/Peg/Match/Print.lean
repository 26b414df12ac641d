import Peg.Match
import Peg.Text.Place

/-!
# Printing a match

A match is printed one tag a line, indented by its depth. After the tag of a leaf stands what the
leaf covers: the text itself, or its positions. An inner match shows nothing but its tag.

`Match.render` is the layout, for every match. A match is actually printed only if its deepest
indentation is no wider than a field can be, and if there are words for each of its leaves:
`Match.render?` is the layout under these conditions, and there is no text otherwise.
-/

namespace Peg.Match

variable {Id : Type}

mutual

/-- The lines of a match, with `depth * tab` spaces before the tag of its root. -/
def renderFrom (display : Id → String) (tab : Nat) (leaf : Span → String) (depth : Nat) :
    Match Id → String
  | ⟨id, span, []⟩ => Text.spaces (depth * tab) ++ display id ++ " : " ++ leaf span ++ "\n"
  | ⟨id, _, child :: children⟩ =>
    Text.spaces (depth * tab) ++ display id ++ "\n"
      ++ (renderFrom display tab leaf (depth + 1) child
        ++ renderAllFrom display tab leaf (depth + 1) children)

/-- The lines of matches at the same depth. -/
def renderAllFrom (display : Id → String) (tab : Nat) (leaf : Span → String) (depth : Nat) :
    List (Match Id) → String
  | [] => ""
  | m :: rest => renderFrom display tab leaf depth m ++ renderAllFrom display tab leaf depth rest

end

mutual

/-- The spans of the leaves, in order. -/
def leaves : Match Id → List Span
  | ⟨_, span, []⟩ => [span]
  | ⟨_, _, child :: children⟩ => leaves child ++ leavesAll children

/-- The spans of the leaves of a forest, in order. -/
def leavesAll : List (Match Id) → List Span
  | [] => []
  | m :: rest => leaves m ++ leavesAll rest

end

/-- The lines of a match, with the words for its leaves given by a function. -/
def render (display : Id → String) (tab : Nat) (leaf : Span → String) (m : Match Id) : String :=
  m.renderFrom display tab leaf 0

mutual

/-- The depth of the deepest match below the root. -/
def height : Match Id → Nat
  | ⟨_, _, []⟩ => 0
  | ⟨_, _, child :: children⟩ => max (height child) (heightAll children) + 1

/-- The height of the highest tree of a forest. -/
def heightAll : List (Match Id) → Nat
  | [] => 0
  | m :: rest => max (height m) (heightAll rest)

end

/-- Whether the deepest indentation is no wider than a field can be. -/
def fits (tab : Nat) (m : Match Id) : Bool := decide (m.height * tab ≤ Text.maxWidth)

/-- The lines of a match that fits, provided that there are words for all of its leaves. -/
def render? (display : Id → String) (tab : Nat) (leaf : Span → Option String) (m : Match Id) :
    Option String :=
  if m.fits tab && m.leaves.all fun span => (leaf span).isSome then
    some (m.render display tab fun span => (leaf span).getD "")
  else none

/-- The lines of a match of a text. A leaf whose span cannot be cut out of the text shows
nothing. -/
def print? (display : Id → String) (text : String) (tab : Nat) (m : Match Id) : Option String :=
  m.render? display tab fun span => some ((span.text? text).getD "")

/-- A span as it is shown. -/
def showSpan (span : Span) : String := Nat.repr span.start ++ ".." ++ Nat.repr span.stop

/-- The lines of a match, four spaces to a level, with positions for its leaves. -/
def outline? (display : Id → String) (m : Match Id) : Option String :=
  m.render? display 4 fun span => some (showSpan span)

end Peg.Match
