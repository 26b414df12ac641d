import Peg.Parser

/-!
# Combinators

The parsers that look at the source, and those that are made from others: sequence, ordered choice,
option, lookahead, tags, counted repetition and loops. Each of the latter answers left recursion by
passing it on, after taking back what was done; only a mismatch is a reason to try something else.
-/

namespace Peg.Parser

variable {α Id : Type}

/-! ## Elements

The parsers that look at the source. A literal looks at all of its elements before it moves, so a
literal that does not match leaves no trace, not even in the furthest position.
-/

/-- Matches one element that passes a test. -/
def satisfy (s : Source α) (test : α → Bool) : Parser Id := fun st =>
  match st.peek s with
  | some a => if test a then (.ok, st.advance s 1) else (.mismatch, st)
  | none => (.mismatch, st)

/-- Matches a run of elements that pass the given tests one by one. -/
def literal (s : Source α) (tests : List (α → Bool)) : Parser Id := fun st =>
  if s.passes st.position tests then (.ok, st.advance s tests.length) else (.mismatch, st)

/-- Matches the end of the source. -/
def endOfInput (s : Source α) : Parser Id := fun st =>
  if st.atEnd s then (.ok, st) else (.mismatch, st)

/-! ## Sequence and choice -/

/-- Runs parsers one after the other, up to the first that does not match. -/
def inOrder : List (Parser Id) → Parser Id
  | [] => succeed
  | p :: rest => fun st =>
    match p st with
    | (.ok, st') => inOrder rest st'
    | result => result

/-- Matches if all parsers match one after the other. -/
def sequence (ps : List (Parser Id)) : Parser Id := attempt (inOrder ps)

/-- Tries parsers in order, each from the checkpoint. -/
def firstOf (c : Checkpoint) : List (Parser Id) → Parser Id
  | [] => mismatch
  | p :: rest => fun st =>
    match p st with
    | (.mismatch, st') => firstOf c rest (st'.restore c)
    | result => settle c result

/-- Matches as the first parser that matches does. -/
def choice (ps : List (Parser Id)) : Parser Id := fun st => firstOf st.checkpoint ps st

/-! ## Option and lookahead -/

/-- Matches in any case, and as the parser does if it matches. -/
def optional (p : Parser Id) : Parser Id := fun st =>
  match attempt p st with
  | (.mismatch, st') => (.ok, st')
  | result => result

/-- Matches, without consuming or recording anything, if the parser does not match. -/
def notAhead (p : Parser Id) : Parser Id := fun st =>
  match lookahead p st with
  | (.ok, st') => (.mismatch, st')
  | (.mismatch, st') => (.ok, st')
  | result => result

/-! ## Tags -/

/-- Records a match around everything the parser records. -/
def tag (id : Id) (p : Parser Id) : Parser Id := fun st =>
  match attempt p st with
  | (.ok, st') =>
    if st.forest.length ≤ st'.forest.length then
      (.ok, st'.addMatch id ⟨st.position, st'.position⟩ (st'.forest.length - st.forest.length))
    else (.fault, st')
  | result => result

/-! ## Counted repetition -/

/-- Runs a parser `n` times, up to the first time it does not match. -/
def iterate (p : Parser Id) : Nat → Parser Id
  | 0 => succeed
  | n + 1 => fun st =>
    match p st with
    | (.ok, st') => iterate p n st'
    | result => result

/-- Matches if the parser matches `n` times in a row. -/
def times (n : Nat) (p : Parser Id) : Parser Id := attempt (iterate p n)

/-! ## Loops

A loop runs a parser again and again. It ends at the first round that does not match, which is taken
back, or at the first that matches without moving the cursor, whose records are kept: a further
round could only do the same again. The bound on the number of rounds is there to make the
definition total. A round that moves the cursor forward leaves less input to the next one, so a
bound above the number of elements is never used up by parsers that do not move backwards.
-/

/-- Runs at most the given number of rounds; left recursion goes back to where the loop began. -/
def rounds (p : Parser Id) (start : Checkpoint) : Nat → Parser Id
  | 0 => exhausted
  | n + 1 => fun st =>
    match p st with
    | (.ok, st') => if st'.position = st.position then (.ok, st') else rounds p start n st'
    | (.mismatch, st') => (.ok, st'.restore st.checkpoint)
    | result => settle start result

/-- Matches as often as possible, perhaps never. -/
def star (bound : Nat) (p : Parser Id) : Parser Id := fun st => rounds p st.checkpoint bound st

/-- Matches as often as possible, and at least once. A first match that does not move the cursor is
the only one. -/
def plus (bound : Nat) (p : Parser Id) : Parser Id := fun st =>
  match attempt p st with
  | (.ok, st') =>
    if st'.position = st.position then (.ok, st')
    else settle st.checkpoint (attempt (star bound p) st')
  | result => result

end Peg.Parser
