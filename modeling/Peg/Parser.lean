import Peg.State

/-!
# Parsers

A parser takes a state to a verdict and a new state. The two ways of running one that the rest is
built from are `attempt`, which puts back what a failed run recorded, and `lookahead`, which puts
it back in any case. Both leave a run without an answer as it stands.
-/

namespace Peg

/-- A parser takes a state to a verdict and a new state. -/
abbrev Parser (Id : Type) := State Id → Verdict × State Id

namespace Parser

variable {Id : Type}

/-- Matches without doing anything. -/
def succeed : Parser Id := fun st => (.ok, st)

/-- Never matches. -/
def mismatch : Parser Id := fun st => (.mismatch, st)

/-- Gives up because the bound of the run was used up. -/
def exhausted : Parser Id := fun st => (.exhausted, st)

/-- Comes back with a verdict, to a checkpoint if it is a failure. -/
def settle (c : Checkpoint) : Verdict × State Id → Verdict × State Id
  | (v, st) => (v, if v.isFailure then st.restore c else st)

/-- Runs a parser and takes back what it did if it fails. -/
def attempt (p : Parser Id) : Parser Id := fun st => settle st.checkpoint (p st)

/-- Comes back to a checkpoint with any answer. -/
def rewind (c : Checkpoint) : Verdict × State Id → Verdict × State Id
  | (v, st) => (v, if v.isAnswer then st.restore c else st)

/-- Runs a parser and takes back what it did. -/
def lookahead (p : Parser Id) : Parser Id := fun st => rewind st.checkpoint (p st)

end Parser

end Peg
