import Peg.Text.Quoted

/-!
# Labels

Matches, tokens and syntax errors carry an identifier of a type that the caller chooses. A label is
the identifier of choice for grammars that are read at run time: a text or a number. A text and a
number are never equal, and a label is shown as a quoted text or as a decimal number.
-/

namespace Peg

/-- An identifier that is a text or a number. -/
inductive Label where
  | text (value : String)
  | number (value : Int)
deriving DecidableEq

namespace Label

/-- The decimal form of an integer. -/
def decimal : Int → String
  | .ofNat n => Nat.repr n
  | .negSucc n => "-" ++ Nat.repr (n + 1)

/-- The form in which a label is shown. -/
def display : Label → String
  | .text value => Text.quote value
  | .number value => decimal value

end Label

end Peg
