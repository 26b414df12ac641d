import Peg.Grammar.Parse

/-!
# Tokens

Parsing in two stages: a first grammar cuts a text into tokens, and a second one parses the row of
tokens. The spans of the second stage count tokens; `Token.textSpan` takes them back to the text.
-/

namespace Peg

/-- A named stretch of a text. -/
structure Token (Id : Type) where
  /-- The name. -/
  id : Id
  /-- The stretch of the text. -/
  span : Span
deriving DecidableEq

/-- The result of cutting a text into tokens. -/
structure Tokenized (Id : Type) where
  /-- Whether the first grammar matched the whole text. -/
  success : Bool
  /-- The tokens in order. -/
  tokens : List (Token Id)
  /-- Where the first grammar stopped. -/
  stop : Nat
  /-- The syntax errors of the first grammar. -/
  errors : List (SyntaxError Id)
deriving DecidableEq

namespace Token

variable {Id : Type}

/-- The token of a match; what lies inside the match is forgotten. -/
def ofMatch (m : Match Id) : Token Id := ⟨m.id, m.span⟩

/-- Cuts a text into the tokens of the outermost matches. -/
def tokenize (g : Grammar Char Id) (text : String) (start : Expr Char Id) :
    Except Failure (Tokenized Id) × List Event :=
  match g.parseLogged (Source.ofText text) start true with
  | (.error e, log) => (.error e, log)
  | (.ok outcome, log) =>
    let tokens := outcome.forest.map ofMatch
    (.ok ⟨outcome.success, tokens, outcome.stop, outcome.errors⟩,
      log ++ [.tokenized tokens.length outcome.success outcome.stop])

/-- The part of the text that a span of tokens covers: from the start of its first token to the end
of its last one. An empty span stands before its token, or after the last token of the row. -/
def textSpan (tokens : List (Token Id)) (span : Span) : Span :=
  let start :=
    match tokens[span.start]? with
    | some token => token.span.start
    | none =>
      match tokens.getLast? with
      | some token => token.span.stop
      | none => 0
  if span.isEmpty then ⟨start, start⟩
  else
    match tokens[span.stop - 1]? with
    | some token => ⟨start, token.span.stop⟩
    | none => ⟨start, start⟩

end Token

/-- One token with the given name. -/
def Expr.token {TokenId Id : Type} [DecidableEq TokenId] (id : TokenId) :
    Expr (Token TokenId) Id :=
  .satisfy fun t => decide (t.id = id)

end Peg
