import Peg.Expr
import Peg.Parser.Combinator
import Peg.Parser.Recovery
import Peg.Session

/-!
# The parser of an expression

An expression is given its parser by recursion on its form; scripts are carried out action by
action. The parsers of rules are a parameter, so the same definition serves every way of giving
rules their meaning.
-/

namespace Peg

/-- What the parser of an expression depends on besides the expression. -/
structure Setting (α Id : Type) where
  /-- The source. -/
  source : Source α
  /-- The number of rules of the grammar. -/
  ruleCount : Nat
  /-- The bound on the rounds of a loop. -/
  bound : Nat
  /-- The parsers of the rules. -/
  call : Nat → Parser Id

variable {α Id : Type}

mutual

/-- The parser of an expression. -/
def Expr.parser (env : Setting α Id) : Expr α Id → Parser Id
  | .satisfy test => Parser.satisfy env.source test
  | .literal tests => Parser.literal env.source tests
  | .endOfInput => Parser.endOfInput env.source
  | .rule index => env.call index
  | .sequence items => Parser.sequence (Expr.parsers env items)
  | .choice items => Parser.choice (Expr.parsers env items)
  | .group e => e.parser env
  | .star e => Parser.star env.bound (e.parser env)
  | .plus e => Parser.plus env.bound (e.parser env)
  | .optional e => Parser.optional (e.parser env)
  | .ahead e => Parser.lookahead (e.parser env)
  | .notAhead e => Parser.notAhead (e.parser env)
  | .times e n => Parser.times n (e.parser env)
  | .tag e id => Parser.tag id (e.parser env)
  | .recover e id fallback => Parser.recover env.source id (fallback.parser env) (e.parser env)
  | .skipBefore token => Parser.skip env.source false (token.parser env) env.bound
  | .skipPast token => Parser.skip env.source true (token.parser env) env.bound
  | .script body => Parser.attempt fun st =>
    match Action.performAll env body ⟨st, []⟩ with
    | (v, _, ses) => (v, ses.state)
termination_by structural e => e

/-- The parsers of a list of expressions. -/
def Expr.parsers (env : Setting α Id) : List (Expr α Id) → List (Parser Id)
  | [] => []
  | e :: rest => e.parser env :: Expr.parsers env rest
termination_by structural items => items

/-- Carries out an action. The verdict says how it came out; most actions cannot fail. -/
def Action.perform (env : Setting α Id) : Action α Id → Session Id →
    Verdict × Reply α Id × Session Id
  | .advance n, ses =>
    let next := ses.onState (·.advance env.source n)
    (.ok, .moved ses.state.position next.state.position, next)
  | .read, ses =>
    match ses.state.peek env.source with
    | some a => (.ok, .element (some a), ses.onState (·.advance env.source 1))
    | none => (.ok, .element none, ses)
  | .peek, ses => (.ok, .element (ses.state.peek env.source), ses)
  | .peekNth n, ses => (.ok, .element (env.source.peekNth ses.state.position n), ses)
  | .setPosition p, ses => (.ok, .done, ses.onState (·.setPosition env.source p))
  | .save, ses => (.ok, .place ses.state.checkpoint, ses.save)
  | .restore k, ses =>
    match ses.saved[k]? with
    | some c => (.ok, .done, ses.onState (·.restore c))
    | none => (.fault, .verdict .fault, ses)
  | .addMatch id span childCount, ses => (.ok, .done, ses.onState (·.addMatch id span childCount))
  | .addError id position skipped, ses => (.ok, .done, ses.onState (·.addError id position skipped))
  | .atEnd, ses => (.ok, .flag (ses.state.atEnd env.source), ses)
  | .hasInput, ses => (.ok, .flag (ses.state.hasInput env.source), ses)
  | .size, ses => (.ok, .number env.source.size, ses)
  | .ruleCount, ses => (.ok, .number env.ruleCount, ses)
  | .remaining, ses =>
    match env.source.remaining? ses.state.position with
    | some row => (.ok, .elements row, ses)
    | none => (.fault, .verdict .fault, ses)
  | .display, ses => (.ok, .text ses.state.display, ses)
  | .forest, ses => (.ok, .forest ses.state.forest, ses)
  | .errors, ses => (.ok, .errors ses.state.errors, ses)
  | .parse e, ses =>
    match e.parser env ses.state with
    | (v, st) => (v, .verdict v, { ses with state := st })
  | .expect test, ses =>
    let v := if (ses.state.peek env.source).any test then Verdict.ok else Verdict.mismatch
    (v, .verdict v, ses)
  | .fail, ses => (.mismatch, .verdict .mismatch, ses)
  | .signal rule, ses => (.leftRecursion rule, .verdict (.leftRecursion rule), ses)
  | .attempt body, ses =>
    match Action.performAll env body ⟨ses.state, []⟩ with
    | (v, rows, inner) =>
      let result := Parser.settle ses.state.checkpoint (v, inner.state)
      (v, Reply.ofBlock v rows, { ses with state := result.2 })
  | .lookahead body, ses =>
    match Action.performAll env body ⟨ses.state, []⟩ with
    | (v, rows, inner) =>
      let result := Parser.rewind ses.state.checkpoint (v, inner.state)
      (v, Reply.ofBlock v rows, { ses with state := result.2 })
termination_by structural action => action

/-- Carries out actions up to the first that does not come out well, whose row is the last. There is
no action that is carried out in spite of a failure before it, and the places to go back to are
those that were saved in this very list of actions. -/
def Action.performAll (env : Setting α Id) : List (Action α Id) → Session Id →
    Verdict × List (Row α Id) × Session Id
  | [], ses => (.ok, [], ses)
  | action :: rest, ses =>
    match action.perform env ses with
    | (.ok, reply, ses') =>
      match Action.performAll env rest ses' with
      | (v, rows, ses'') => (v, (reply, ses'.state.snapshot) :: rows, ses'')
    | (v, reply, ses') => (v, [(reply, ses'.state.snapshot)], ses')
termination_by structural body => body

end

/-- Carries out actions one after the other, whether they fail or not, up to the first that comes
back without an answer. -/
def Action.run (env : Setting α Id) : List (Action α Id) → Session Id →
    List (Row α Id) × Session Id
  | [], ses => ([], ses)
  | action :: rest, ses =>
    match action.perform env ses with
    | (v, reply, ses') =>
      let row := (reply, ses'.state.snapshot)
      if v.isAnswer then
        match Action.run env rest ses' with
        | (rows, last) => (row :: rows, last)
      else ([row], ses')

/-- The parsers of a list are those of its members. -/
theorem Expr.parsers_eq_map (env : Setting α Id) (items : List (Expr α Id)) :
    Expr.parsers env items = items.map (Expr.parser env) := by
  induction items with
  | nil => rfl
  | cons e rest ih => simp [Expr.parsers, ih]

end Peg
