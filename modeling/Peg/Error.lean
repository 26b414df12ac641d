import Peg.Span

/-!
# Errors

Why a grammar could not be used, or why the input as a whole was not accepted, and the syntax errors
that a parse recovered from.
-/

namespace Peg

/-- Why a grammar was refused or an input was not accepted. -/
inductive Error where
  /-- The rule was declared and never defined. -/
  | undefinedRule (name : String)
  /-- The rule has a definition already. -/
  | redefinedRule (name : String)
  /-- The parse stopped before the end, or failed. -/
  | incomplete (position furthest : Nat)
  /-- Syntax errors were recorded, the first of them at the given position. -/
  | faulty (count position : Nat)
deriving DecidableEq

namespace Error

/-- The words of an error. -/
def message : Error → String
  | undefinedRule name => "rule `" ++ name ++ "` is declared but never defined"
  | redefinedRule name => "rule `" ++ name ++ "` is already defined"
  | incomplete position furthest =>
    "parse stopped at " ++ Nat.repr position ++ " (furthest position reached: "
      ++ Nat.repr furthest ++ ")"
  | faulty count position =>
    Nat.repr count ++ " syntax error(s), the first at " ++ Nat.repr position

/-- The position in the source to look at, if there is one: an incomplete parse points at the
furthest position it reached. -/
def position? : Error → Option Nat
  | undefinedRule _ => none
  | redefinedRule _ => none
  | incomplete _ furthest => some furthest
  | faulty _ position => some position

end Error

/-- Why there is no outcome: an error of the library, or a run that came back without an answer. -/
inductive Failure where
  /-- An error to report. -/
  | error (e : Error)
  /-- The run asked for something that is not there. -/
  | fault
  /-- The bound of the run was used up. -/
  | exhausted
deriving DecidableEq

/-! ## Recovered syntax errors

A syntax error is recorded when a part of a grammar failed and parsing went on after a stretch of
the input was skipped. It says how far the failed part had come and what was skipped. The skipped
stretch never stops before it starts; `SyntaxError.record` sees to that.
-/

/-- A syntax error that was recovered from. -/
structure SyntaxError (Id : Type) where
  /-- What was being parsed. -/
  id : Id
  /-- The furthest position the failed part reached. -/
  position : Nat
  /-- The input from where the failed part started to where parsing went on. -/
  skipped : Span
  /-- The skipped stretch is ordered. -/
  ordered : skipped.start ≤ skipped.stop
deriving DecidableEq

/-- The syntax error with the given data; a stretch that stops before its start is taken to be
empty. -/
def SyntaxError.record {Id : Type} (id : Id) (position : Nat) (skipped : Span) : SyntaxError Id :=
  ⟨id, position, skipped.clamped, skipped.clamped_ordered⟩

end Peg
