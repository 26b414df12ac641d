import Peg.Parser

/-!
# Invoking a rule

A rule is parsed by parsing its body, with a frame that says so. When the body reaches the same
rule at the same position, the frame answers:

1. at first it signals left recursion, which everything in between passes on, up to the invocation
   that owns the frame;
2. the body is then parsed once more with the recursive occurrence not matching, so that another
   alternative gives a *seed*;
3. from then on the body is parsed again and again with the last accepted result standing for the
   recursive occurrence, as long as each round gets further than the one before.

The last accepted result is the result of the rule.
-/

namespace Peg.Parser

variable {α Id : Type}

/-- The rounds of growth of a rule that was entered at `start`. The state holds the last accepted
result; `iteration` counts the rounds that were run before. -/
def growRounds (s : Source α) (rule : Nat) (name : String) (body : Parser Id) (start : Checkpoint) :
    (bound iteration : Nat) → Parser Id
  | 0, _ => exhausted
  | bound + 1, iteration => fun st =>
    match st.since? start with
    | none => (.fault, st)
    | some (forest, errors) =>
      let stop := st.position
      if s.size ≤ stop then (.ok, (st.restore start).replay stop forest errors)
      else
        let again := (st.note (.growing name start.position (iteration + 1) stop)).restore start
        match body (again.setMode rule (.growing stop forest errors)) with
        | (.ok, st') =>
          if stop < st'.position then
            growRounds s rule name body start bound (iteration + 1) st'
          else (.ok, (st'.restore start).replay stop forest errors)
        | (.mismatch, st') => (.ok, (st'.restore start).replay stop forest errors)
        | result => settle start result

/-- Parses a rule whose body has just signalled the left recursion of this very rule. -/
def grow (s : Source α) (bound : Nat) (rule : Nat) (name : String) (position : Nat)
    (body : Parser Id) : Parser Id := fun st =>
  if st.position ≠ position then (.fault, st)
  else
    match body (st.setMode rule .seeding) with
    | (.ok, st') =>
      match growRounds s rule name body st.checkpoint bound 0 st' with
      | (.ok, st'') => (.ok, st''.note (.grown name position st''.position))
      | result => result
    | result => result

/-- Parses a rule that is not being parsed at the cursor. -/
def enter (s : Source α) (bound : Nat) (rule : Nat) (name : String) (body : Parser Id) :
    Parser Id := fun st =>
  let result :=
    match body ((st.pushFrame rule).note (.enter name st.position)) with
    | (.leftRecursion cycle, st') =>
      if cycle = rule then grow s bound rule name st.position body st' else (.leftRecursion cycle, st')
    | result => result
  match result with
  | (v, st') =>
    (v, if v.isAnswer then (st'.popFrame rule).note (.leave name st.position v) else st')

/-- Parses a rule: as its frame answers if it is being parsed at the cursor, and by its body
otherwise. -/
def invoke (s : Source α) (bound : Nat) (rule : Nat) (name : String) (body : Parser Id) :
    Parser Id := fun st =>
  match (st.frame? rule).filter fun f => f.position == st.position with
  | none => enter s bound rule name body st
  | some frame =>
    match frame.mode with
    | .fresh => (.leftRecursion rule, st.note (.leftRecursion name st.position))
    | .seeding => (.mismatch, st)
    | .growing stop forest errors => (.ok, st.replay stop forest errors)

end Peg.Parser
