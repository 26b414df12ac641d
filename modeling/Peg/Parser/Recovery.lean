import Peg.Parser

/-!
# Error recovery

When a part of a grammar does not match, `recover` lets a fallback decide where parsing goes on, and
records a syntax error. The error stands at the furthest position that the failed part itself
reached, so the furthest position is started anew for it and merged with the old one afterwards.
The fallback begins where the failed part began. At the end of the source there is nothing to skip,
and the part fails as it would alone.

`skip` is the usual fallback: it moves over elements until a given token matches.
-/

namespace Peg.Parser

variable {α Id : Type}

/-- Runs a parser; if it does not match, records a syntax error and goes on as the fallback does. -/
def recover (s : Source α) (id : Id) (fallback p : Parser Id) : Parser Id := fun st =>
  if st.atEnd s then p st
  else
    match p st.resetFurthest with
    | (.mismatch, st') =>
      let reached := st'.furthest
      match fallback ((st'.mergeFurthest st.furthest).restore st.checkpoint) with
      | (.ok, st'') =>
        let resume := st''.position
        (.ok, (st''.note (.recovered reached resume)).addError id reached ⟨st.position, resume⟩)
      | result => settle st.checkpoint result
    | (v, st') => (v, if v.isAnswer then st'.mergeFurthest st.furthest else st')

/-- Moves over elements until the token matches or the source ends, in at most the given number of
rounds. The cursor stops before the token, or after it if `past` is set. What the token records is
dropped, and left recursion is passed on from where it arose. -/
def skip (s : Source α) (past : Bool) (token : Parser Id) : Nat → Parser Id
  | 0 => exhausted
  | n + 1 => fun st =>
    if st.atEnd s then (.ok, st)
    else
      match token st with
      | (.ok, st') =>
        let before := st'.restore st.checkpoint
        (.ok, if past then before.setPosition s st'.position else before)
      | (.mismatch, st') => skip s past token n (st'.advance s 1)
      | result => result

end Peg.Parser
