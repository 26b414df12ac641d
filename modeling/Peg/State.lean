import Peg.Error
import Peg.Event
import Peg.Match
import Peg.Source

/-!
# The state of a run

A run moves a cursor over a source and records matches and syntax errors as it goes. Everything it
may have to take back is a position and two lists that only grow at their ends, so a place to come
back to is three numbers: a `Checkpoint` holds the position and the lengths of the lists, and going
back cuts the lists to those lengths. Two things are never taken back: the furthest position the
cursor has reached, and the log.

The rules that are being parsed are kept as a stack of frames, the innermost first. A frame says
where its rule was entered and in which mode its recursive occurrence is to be answered.
-/

namespace Peg

/-- A place in a run to come back to. -/
structure Checkpoint where
  /-- The position of the cursor. -/
  position : Nat
  /-- The number of matches that were recorded. -/
  matchCount : Nat
  /-- The number of syntax errors that were recorded. -/
  errorCount : Nat
deriving DecidableEq

/-- How a rule answers when it is reached again at the position at which it was entered. -/
inductive Mode (Id : Type) where
  /-- It signals left recursion. -/
  | fresh
  /-- It does not match, so that an alternative without the recursion gives a first result. -/
  | seeding
  /-- It matches as it did the last time: up to `stop`, with these records. -/
  | growing (stop : Nat) (forest : List (Match Id)) (errors : List (SyntaxError Id))
deriving DecidableEq

/-- A rule that is being parsed. -/
structure Frame (Id : Type) where
  /-- The rule. -/
  rule : Nat
  /-- Where it was entered. -/
  position : Nat
  /-- How it answers there. -/
  mode : Mode Id
deriving DecidableEq

/-- A stack of frames with the mode of the innermost frame of a rule changed. -/
def Frame.setMode {Id : Type} (rule : Nat) (mode : Mode Id) : List (Frame Id) → List (Frame Id)
  | [] => []
  | f :: rest =>
    if f.rule == rule then { f with mode := mode } :: rest else f :: Frame.setMode rule mode rest

/-- The state of a run. -/
structure State (Id : Type) where
  /-- The position of the cursor. -/
  position : Nat := 0
  /-- The furthest position the cursor has been advanced to. -/
  furthest : Nat := 0
  /-- The matches recorded so far, oldest first. -/
  forest : List (Match Id) := []
  /-- The syntax errors recorded so far, oldest first. -/
  errors : List (SyntaxError Id) := []
  /-- The rules that are being parsed, innermost first. -/
  frames : List (Frame Id) := []
  /-- What happened so far, newest first. -/
  log : List Event := []

namespace State

variable {α Id : Type}

/-- The state in which every run begins. -/
def initial : State Id := {}

/-! ## Coming back -/

/-- The present place in the run. -/
def checkpoint (st : State Id) : Checkpoint :=
  ⟨st.position, st.forest.length, st.errors.length⟩

/-- Back to an earlier place: the cursor returns and later records are dropped. -/
def restore (st : State Id) (c : Checkpoint) : State Id :=
  { st with
    position := c.position
    forest := st.forest.take c.matchCount
    errors := st.errors.take c.errorCount }

/-! ## The cursor -/

/-- Whether the cursor is before the end of the source. -/
def hasInput (s : Source α) (st : State Id) : Bool := decide (st.position < s.size)

/-- Whether the cursor is at the end of the source. -/
def atEnd (s : Source α) (st : State Id) : Bool := !st.hasInput s

/-- The element under the cursor. -/
def peek (s : Source α) (st : State Id) : Option α := (s.elementAt st.position).map Prod.fst

/-- Puts the cursor at a position, or at the end of the source if that comes first. The furthest
position is not touched. -/
def setPosition (s : Source α) (p : Nat) (st : State Id) : State Id :=
  { st with position := min s.size p }

/-- Moves the cursor over at most `n` elements. -/
def advance (s : Source α) (n : Nat) (st : State Id) : State Id :=
  let stop := s.walk st.position n
  { st with position := stop, furthest := max st.furthest stop }

/-! ## The furthest position -/

/-- Starts the furthest position anew from the cursor. -/
def resetFurthest (st : State Id) : State Id := { st with furthest := st.position }

/-- Takes a position into account that was reached before. -/
def mergeFurthest (p : Nat) (st : State Id) : State Id := { st with furthest := max st.furthest p }

/-! ## Records -/

/-- Records a match, which takes the last `childCount` matches as its children; if there are not so
many, it takes all. -/
def addMatch (id : Id) (span : Span) (childCount : Nat) (st : State Id) : State Id :=
  let kept := st.forest.length - childCount
  { st with forest := st.forest.take kept ++ [⟨id, span, st.forest.drop kept⟩] }

/-- Records a syntax error. -/
def addError (id : Id) (position : Nat) (skipped : Span) (st : State Id) : State Id :=
  { st with errors := st.errors ++ [SyntaxError.record id position skipped] }

/-- The records made since a checkpoint, if the lists still reach back to it. -/
def since? (c : Checkpoint) (st : State Id) : Option (List (Match Id) × List (SyntaxError Id)) :=
  if c.matchCount ≤ st.forest.length ∧ c.errorCount ≤ st.errors.length then
    some (st.forest.drop c.matchCount, st.errors.drop c.errorCount)
  else none

/-- Takes an earlier result over: the cursor jumps to its end and its records are added. -/
def replay (stop : Nat) (forest : List (Match Id)) (errors : List (SyntaxError Id))
    (st : State Id) : State Id :=
  { st with
    position := stop
    furthest := max st.furthest stop
    forest := st.forest ++ forest
    errors := st.errors ++ errors }

/-- Adds an entry to the log. -/
def note (e : Event) (st : State Id) : State Id := { st with log := e :: st.log }

/-! ## Frames -/

/-- The innermost frame of a rule. -/
def frame? (rule : Nat) (st : State Id) : Option (Frame Id) :=
  st.frames.find? fun f => f.rule == rule

/-- Begins to parse a rule at the cursor. -/
def pushFrame (rule : Nat) (st : State Id) : State Id :=
  { st with frames := ⟨rule, st.position, .fresh⟩ :: st.frames }

/-- Ends the innermost parse of a rule. -/
def popFrame (rule : Nat) (st : State Id) : State Id :=
  { st with frames := st.frames.eraseP fun f => f.rule == rule }

/-- Changes how the innermost parse of a rule answers. -/
def setMode (rule : Nat) (mode : Mode Id) (st : State Id) : State Id :=
  { st with frames := Frame.setMode rule mode st.frames }

/-! ## Showing a state -/

/-- The form in which a state is shown: the cursor, the furthest position and the numbers of
records. -/
def display (st : State Id) : String :=
  "ParseContext \x7b position: Position(" ++ Nat.repr st.position
    ++ "), furthest: Position(" ++ Nat.repr st.furthest
    ++ "), matches: " ++ Nat.repr st.forest.length
    ++ ", errors: " ++ Nat.repr st.errors.length ++ " \x7d"

/-! ## Small facts -/

/-- To go back to where one is changes nothing. -/
@[simp]
theorem restore_checkpoint (st : State Id) : st.restore st.checkpoint = st := by
  simp [restore, checkpoint]

end State

end Peg
