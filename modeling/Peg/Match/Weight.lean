import Peg.Match.Build

/-!
# Weights

The weight of a match is the length of its span together with the weights of its children. Weights
are computed with `Match.build`, and every computation is put on record, so the record shows the
order in which nodes are made. A tag may be refused; the refused match is the last on record.
-/

namespace Peg.Match

variable {Id : Type}

/-- A computation on record: the tag, the span, and the weights of the children. -/
structure Weighing (Id : Type) where
  /-- The tag of the match. -/
  id : Id
  /-- Its span. -/
  span : Span
  /-- The weights of its children. -/
  children : List Nat
deriving DecidableEq

/-- Computes the weight of a match and puts it on record; the refused tag has none. -/
def weigh [DecidableEq Id] (refused : Option Id) (display : Id → String) (id : Id) (span : Span)
    (children : List Nat) : ExceptT String (StateM (List (Weighing Id))) Nat := do
  modify (· ++ [⟨id, span, children⟩])
  if refused = some id then throw ("cannot build " ++ display id)
  else pure (children.foldl (· + ·) span.length)

/-- The weights of the roots of a forest, with the record of all computations. -/
def weights [DecidableEq Id] (refused : Option Id) (display : Id → String)
    (forest : List (Match Id)) : Except String (List Nat) × List (Weighing Id) :=
  (build (weigh refused display) forest).run.run []

end Peg.Match
