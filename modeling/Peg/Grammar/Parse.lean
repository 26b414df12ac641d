import Peg.Expr.Parser
import Peg.Grammar
import Peg.Parser.Invoke

/-!
# Parsing with a grammar

The rules of a grammar get their parsers by recursion on a bound: a rule that is entered under a
bound parses its body under a smaller one. The same number bounds the rounds of loops.

As long as no script moves the cursor backwards, a rule is entered at most once at each position in
a nesting of rules, and every round of a loop but the last gets further. So the bound is never used
up if it is the number of rules times the number of positions, with room for the rounds of a loop in
the innermost rule: this is `Grammar.need`.

A script may move the cursor backwards, and then the number of rules and positions does not limit a
run: rules can nest as deep as their frames can be told apart, and loops can go on until the records
make an end of them. `Grammar.enough` therefore adds more nested calls and rounds than a machine
gets through, so that it is a run without an end that is cut off. The functions that do not mention
a bound use it.
-/

namespace Peg

/-- The result of a parse. -/
structure Outcome (Id : Type) where
  /-- Whether the start expression matched, up to the end of the source if that was asked for. -/
  success : Bool
  /-- The recorded matches. -/
  forest : List (Match Id)
  /-- Where the cursor was left. -/
  stop : Nat
  /-- The furthest position the cursor was advanced to. -/
  furthest : Nat
  /-- The recorded syntax errors. -/
  errors : List (SyntaxError Id)
deriving DecidableEq

/-- Whether a parse was successful without any syntax error. -/
def Outcome.isClean {Id : Type} (o : Outcome Id) : Bool := o.success && o.errors.isEmpty

/-- The matches of an outcome without any fault. Syntax errors are reported before an incomplete
parse is. -/
def Outcome.complete {Id : Type} (o : Outcome Id) : Except Failure (List (Match Id)) :=
  match o.errors with
  | first :: _ => .error (.error (.faulty o.errors.length first.position))
  | [] =>
    if o.success then .ok o.forest else .error (.error (.incomplete o.stop o.furthest))

namespace Grammar

variable {α Id : Type}

/-- The parsers of the rules under a bound. -/
def call (g : Grammar α Id) (s : Source α) : Nat → Nat → Parser Id
  | 0 => fun _ => Parser.exhausted
  | bound + 1 => fun index =>
    match g.body? index with
    | none => Parser.mismatch
    | some body =>
      Parser.invoke s bound index (g.name index)
        (body.parser ⟨s, g.size, bound, call g s bound⟩)

/-- The setting in which expressions are parsed under a bound. -/
def setting (g : Grammar α Id) (s : Source α) (bound : Nat) : Setting α Id :=
  ⟨s, g.size, bound, g.call s bound⟩

/-- A bound that suffices for every parse of the source without scripts. -/
def need (g : Grammar α Id) (s : Source α) : Nat := (g.size + 1) * (s.size + 2)

/-- More nested calls and rounds than a machine gets through: 2 to the power of 62. -/
def slack : Nat := 4611686018427387904

/-- A bound for every parse of the source, with or without scripts. -/
def enough (g : Grammar α Id) (s : Source α) : Nat := g.need s + slack

/-- Parses a source under a bound, from the given expression. Success asks for the end of the
source if `toEnd` is set. The second component is the log, oldest entry first. -/
def parseWithin (bound : Nat) (g : Grammar α Id) (s : Source α) (start : Expr α Id) (toEnd : Bool) :
    Except Failure (Outcome Id) × List Event :=
  match g.validate with
  | .error e => (.error (.error e), [])
  | .ok () =>
    match start.parser (g.setting s bound) (State.initial.note (.started g.size s.size)) with
    | (.fault, st) => (.error .fault, st.log.reverse)
    | (.leftRecursion _, st) => (.error .fault, st.log.reverse)
    | (.exhausted, st) => (.error .exhausted, st.log.reverse)
    | (v, st) =>
      let success := decide (v = .ok) && (!toEnd || st.atEnd s)
      let ended :=
        Event.finished success st.position st.furthest st.forest.length st.errors.length
      (.ok ⟨success, st.forest, st.position, st.furthest, st.errors⟩, (st.note ended).log.reverse)

/-- Parses a source and gives the log as well. -/
def parseLogged (g : Grammar α Id) (s : Source α) (start : Expr α Id) (toEnd : Bool) :
    Except Failure (Outcome Id) × List Event :=
  parseWithin (g.enough s) g s start toEnd

/-- Parses a source; success asks for the end of the source. -/
def parse (g : Grammar α Id) (s : Source α) (start : Expr α Id) : Except Failure (Outcome Id) :=
  (g.parseLogged s start true).1

/-- Parses a source that has to match completely and without syntax errors. -/
def parseComplete (g : Grammar α Id) (s : Source α) (start : Expr α Id) :
    Except Failure (List (Match Id)) × List Event :=
  match g.parseLogged s start true with
  | (result, log) => (result.bind Outcome.complete, log)

/-- Carries out actions on the state in which every run begins. -/
def perform (g : Grammar α Id) (s : Source α) (actions : List (Action α Id)) :
    List (Row α Id) × Session Id :=
  Action.run (g.setting s (g.enough s)) actions ⟨State.initial, []⟩

end Grammar

end Peg
