import Peg.Span

/-!
# Expressions

The expressions of a grammar, and the actions that a hand-written part of a grammar is made of. An
expression may contain a *script*, a list of actions on the state of the run, and an action may
parse an expression, so the two types are defined together.

Elements are known to an expression only through tests. Rules are referred to by number; the
numbers get their meaning from a grammar.
-/

namespace Peg

mutual

/-- An expression over elements of type `α`, with tags and error names of type `Id`. -/
inductive Expr (α Id : Type) where
  /-- One element that passes a test. -/
  | satisfy (test : α → Bool)
  /-- A run of elements that pass the tests one by one. -/
  | literal (tests : List (α → Bool))
  /-- The end of the source. -/
  | endOfInput
  /-- A rule of the grammar. -/
  | rule (index : Nat)
  /-- The items one after the other. -/
  | sequence (items : List (Expr α Id))
  /-- The first of the items that matches. -/
  | choice (items : List (Expr α Id))
  /-- An expression that operators keep in one piece. -/
  | group (e : Expr α Id)
  /-- An expression as often as possible, perhaps never. -/
  | star (e : Expr α Id)
  /-- An expression as often as possible, at least once. -/
  | plus (e : Expr α Id)
  /-- An expression or nothing. -/
  | optional (e : Expr α Id)
  /-- Nothing, provided that the expression would match. -/
  | ahead (e : Expr α Id)
  /-- Nothing, provided that the expression would not match. -/
  | notAhead (e : Expr α Id)
  /-- An expression a given number of times. -/
  | times (e : Expr α Id) (n : Nat)
  /-- An expression whose match is recorded under a tag. -/
  | tag (e : Expr α Id) (id : Id)
  /-- An expression with a fallback: if only the fallback matches, a syntax error is recorded. -/
  | recover (e : Expr α Id) (id : Id) (fallback : Expr α Id)
  /-- Any elements up to the first place where the token matches, or up to the end. -/
  | skipBefore (token : Expr α Id)
  /-- The same, and the token. -/
  | skipPast (token : Expr α Id)
  /-- A hand-written part of the grammar. -/
  | script (body : List (Action α Id))

/-- An action on the state of a run. These are the operations that a state offers to a hand-written
part, with every argument that they can be given. What a hand-written part cannot do here is to look
at how an action came out: a script ends with the first action that fails, so it does not go on
behind a failed `attempt`, `lookahead` or `parse`, and the actions inside an `attempt` or a
`lookahead` go back to places that were saved inside it only. -/
inductive Action (α Id : Type) where
  /-- Moves over at most `n` elements. -/
  | advance (n : Nat)
  /-- Takes the next element. -/
  | read
  /-- Looks at the next element. -/
  | peek
  /-- Looks at the element `n` elements ahead. -/
  | peekNth (n : Nat)
  /-- Moves the cursor. -/
  | setPosition (p : Nat)
  /-- Keeps the present place in a list of places. -/
  | save
  /-- Goes back to the place with the given number in that list. -/
  | restore (k : Nat)
  /-- Records a match around the last matches. -/
  | addMatch (id : Id) (span : Span) (childCount : Nat)
  /-- Records a syntax error. -/
  | addError (id : Id) (position : Nat) (skipped : Span)
  /-- Asks whether the source is used up. -/
  | atEnd
  /-- Asks whether there is input left. -/
  | hasInput
  /-- Asks for the end of the source. -/
  | size
  /-- Asks for the number of rules. -/
  | ruleCount
  /-- Asks for the elements from the cursor on. -/
  | remaining
  /-- Asks for the form in which the state is shown. -/
  | display
  /-- Asks for the recorded matches. -/
  | forest
  /-- Asks for the recorded errors. -/
  | errors
  /-- Parses an expression. -/
  | parse (e : Expr α Id)
  /-- Fails unless the next element passes a test. -/
  | expect (test : α → Bool)
  /-- Fails. -/
  | fail
  /-- Signals the left recursion of a rule. -/
  | signal (rule : Nat)
  /-- Runs actions up to the first that fails; if one does, takes them back and fails too. -/
  | attempt (body : List (Action α Id))
  /-- Runs actions up to the first that fails, and takes them back. -/
  | lookahead (body : List (Action α Id))

end

namespace Expr

variable {α Id : Type}

/-- The form in which an expression is shown. Only the outermost layer can be seen, and of most
expressions nothing but the fact that they are parsers. -/
def display : Expr α Id → String
  | sequence items => "Sequence(" ++ Nat.repr items.length ++ ")"
  | choice items => "Choice(" ++ Nat.repr items.length ++ ")"
  | rule index => "Rule(RuleId(" ++ Nat.repr index ++ "))"
  | _ => "Parser"

end Expr

end Peg
