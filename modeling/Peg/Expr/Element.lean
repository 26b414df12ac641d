import Peg.Expr
import Peg.Text.Character

/-!
# Expressions for elements

The usual tests for one element, the literals, and the classes of characters that grammars of texts
need.
-/

namespace Peg.Expr

variable {α Id : Type}

/-! ## Any kind of element -/

/-- Any element. -/
def any : Expr α Id := satisfy fun _ => true

/-- A given element. -/
def element [DecidableEq α] (a : α) : Expr α Id := satisfy fun b => decide (b = a)

/-- The given elements in order. -/
def elements [DecidableEq α] (row : List α) : Expr α Id :=
  literal (row.map fun a b => decide (b = a))

/-- One of the given elements. -/
def oneOf [DecidableEq α] (set : List α) : Expr α Id := satisfy fun b => decide (b ∈ set)

/-- An element between two others, which belong to the range. -/
def range [LE α] [DecidableLE α] (low high : α) : Expr α Id :=
  satisfy fun b => decide (low ≤ b) && decide (b ≤ high)

/-! ## Characters -/

/-- The characters of a text in order. -/
def text (t : String) : Expr Char Id := elements t.toList

/-- The characters of a text in order, whether capital or small. -/
def textAnyCase (t : String) : Expr Char Id :=
  literal (t.toList.map fun c b => Text.sameLetter b c)

/-- A decimal digit of the ASCII range. -/
def digit : Expr Char Id := satisfy Char.isDigit

/-- A capital letter of the ASCII range. -/
def capital : Expr Char Id := satisfy Char.isUpper

/-- A white space character in the sense of Unicode. -/
def blank : Expr Char Id := satisfy Text.isBlank

/-! ## Numbers -/

/-- An even number. -/
def even : Expr Int Id := satisfy fun n => decide (n % 2 = 0)

end Peg.Expr
