import Peg.State

/-!
# Sessions

Actions are carried out in a session: the state of a run and the places that were saved in it. Each
action gives a reply, and a row holds a reply together with the figures of the state after it.
-/

namespace Peg

/-- The figures of a state. -/
structure Snapshot where
  /-- The position of the cursor. -/
  position : Nat
  /-- The furthest position. -/
  furthest : Nat
  /-- The number of recorded matches. -/
  matchCount : Nat
  /-- The number of recorded errors. -/
  errorCount : Nat
deriving DecidableEq

/-- The figures of a state. -/
def State.snapshot {Id : Type} (st : State Id) : Snapshot :=
  ⟨st.position, st.furthest, st.forest.length, st.errors.length⟩

/-- What an action gives back. -/
inductive Reply (α Id : Type) where
  /-- Nothing. -/
  | done
  /-- The positions before and after a move. -/
  | moved (before after : Nat)
  /-- An element, if there was one. -/
  | element (a : Option α)
  /-- A place in the run. -/
  | place (c : Checkpoint)
  /-- A yes or no. -/
  | flag (b : Bool)
  /-- A number. -/
  | number (n : Nat)
  /-- A row of elements. -/
  | elements (row : List α)
  /-- A text. -/
  | text (t : String)
  /-- Matches. -/
  | forest (ms : List (Match Id))
  /-- Syntax errors. -/
  | errors (es : List (SyntaxError Id))
  /-- How an expression or a check came out. -/
  | verdict (v : Verdict)
  /-- How a list of actions came out, with the rows of those that were carried out. -/
  | block (v : Verdict) (rows : List (Reply α Id × Snapshot))

/-- A reply and the figures of the state after it. -/
abbrev Row (α Id : Type) := Reply α Id × Snapshot

/-- The reply of a list of actions; without an answer there is nothing to tell about its parts. -/
def Reply.ofBlock {α Id : Type} (v : Verdict) (rows : List (Row α Id)) : Reply α Id :=
  if v.isAnswer then .block v rows else .verdict v

/-- The state of a run and the places saved in it, oldest first. -/
structure Session (Id : Type) where
  /-- The state of the run. -/
  state : State Id
  /-- The saved places. -/
  saved : List Checkpoint := []

namespace Session

variable {Id : Type}

/-- The session with its state changed. -/
def onState (f : State Id → State Id) (ses : Session Id) : Session Id :=
  { ses with state := f ses.state }

/-- Keeps the present place. -/
def save (ses : Session Id) : Session Id :=
  { ses with saved := ses.saved ++ [ses.state.checkpoint] }

end Session

end Peg
