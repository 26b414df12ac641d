/-!
# Verdicts

How a parser came back. There are three *answers*: it matched, it did not match, or it ran into the
left recursion of a rule that is still being parsed. The other two are no answers, and a parser
that meets one of them stops where it stands, without undoing anything: a *fault*, an operation
that asked for something that is not there, such as a cut inside an element, and *exhaustion*, the
end of the bound on rounds and nested rules under which the run was started.
-/

namespace Peg

/-- How a parser came back. -/
inductive Verdict where
  /-- The expression matched. -/
  | ok
  /-- The expression did not match, and something else may be tried. -/
  | mismatch
  /-- The given rule was entered again at the position at which it is being parsed. -/
  | leftRecursion (rule : Nat)
  /-- An operation asked for something that is not there. -/
  | fault
  /-- The bound of the run was used up. -/
  | exhausted
deriving DecidableEq

namespace Verdict

/-- The verdicts after which a parser puts back what it had changed. -/
def isFailure : Verdict → Bool
  | mismatch => true
  | leftRecursion _ => true
  | _ => false

/-- The verdicts with which a run goes on. -/
def isAnswer : Verdict → Bool
  | fault => false
  | exhausted => false
  | _ => true

/-- The form in which a verdict is shown. -/
def display : Verdict → String
  | ok => "Ok(())"
  | mismatch => "Err(Mismatch)"
  | leftRecursion rule => "Err(LeftRecursion(RuleId(" ++ Nat.repr rule ++ ")))"
  | fault => "Fault"
  | exhausted => "Exhausted"

end Verdict

end Peg
