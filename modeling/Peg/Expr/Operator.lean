import Peg.Expr

/-!
# Operators on expressions

Expressions are put together with `>>` for sequence, `<|>` for ordered choice, `-` for exclusion and
`*` for a number of repetitions. Chains of one operator are kept flat: a sequence on either side of
`>>` gives its items to the new sequence, and `<|>` treats choices likewise. An expression under
`Expr.group` is never opened.
-/

namespace Peg.Expr

variable {α Id : Type}

/-- The items of a sequence; any other expression is one item. -/
def sequenceItems : Expr α Id → List (Expr α Id)
  | sequence items => items
  | e => [e]

/-- The items of a choice; any other expression is one item. -/
def choiceItems : Expr α Id → List (Expr α Id)
  | choice items => items
  | e => [e]

/-- One expression after another. -/
def andThen (a b : Expr α Id) : Expr α Id := sequence (a.sequenceItems ++ b.sequenceItems)

/-- One expression, or else another. -/
def orElse (a b : Expr α Id) : Expr α Id := choice (a.choiceItems ++ b.choiceItems)

/-- An expression where another one does not match. -/
def butNot (a b : Expr α Id) : Expr α Id := andThen (notAhead b) a

/-- The operator `>>` writes one expression after another. -/
instance : AndThen (Expr α Id) := ⟨fun a b => andThen a (b ())⟩

/-- The operator `<|>` writes one expression or else another. -/
instance : OrElse (Expr α Id) := ⟨fun a b => orElse a (b ())⟩

/-- The operator `-` writes an expression where another one does not match. -/
instance : Sub (Expr α Id) := ⟨butNot⟩

/-- The operator `*` writes a number of copies of an expression. -/
instance : HMul (Expr α Id) Nat (Expr α Id) := ⟨times⟩

/-- Expressions one after the other, from the left; a single expression stays as it is. -/
def chain (first : Expr α Id) (rest : List (Expr α Id)) : Expr α Id := rest.foldl andThen first

/-- Expressions to choose from, from the left; a single expression stays as it is. -/
def alternatives (first : Expr α Id) (rest : List (Expr α Id)) : Expr α Id :=
  rest.foldl orElse first

/-- A sequence that stays in one piece. The empty one matches. -/
def wholeSequence (items : List (Expr α Id)) : Expr α Id := group (sequence items)

/-- A choice that stays in one piece. The empty one does not match. -/
def wholeChoice (items : List (Expr α Id)) : Expr α Id := group (choice items)

end Peg.Expr
