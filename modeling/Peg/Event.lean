import Peg.Verdict

/-!
# Events

What a run leaves in its log: the beginning and end of a parse, every rule that is entered and
left, left recursion and the growth of the rules that have it, recovered errors, and the result of
cutting a text into tokens. Rules appear by name.
-/

namespace Peg

/-- How much detail an event belongs to. -/
inductive Event.Level where
  | debug
  | trace
deriving DecidableEq

/-- The part of the library an event comes from. -/
inductive Event.Origin where
  /-- Rules and whole parses. -/
  | rule
  /-- Error recovery. -/
  | recovery
  /-- Cutting a text into tokens. -/
  | lexer
deriving DecidableEq

/-- An entry of the log. -/
inductive Event where
  /-- A parse begins, with so many rules and a source that ends at `stop`. -/
  | started (rules stop : Nat)
  /-- A parse has ended. -/
  | finished (success : Bool) (stop furthest matchCount errorCount : Nat)
  /-- A rule is entered. -/
  | enter (rule : String) (position : Nat)
  /-- A rule that was entered at `position` is left. -/
  | leave (rule : String) (position : Nat) (verdict : Verdict)
  /-- A rule was reached again at the position at which it is being parsed. -/
  | leftRecursion (rule : String) (position : Nat)
  /-- A rule that was entered at `position` is parsed once more, with what it accepted up to
  `accepted` standing for its own recursive occurrence. -/
  | growing (rule : String) (position iteration accepted : Nat)
  /-- The growth of a rule has ended. -/
  | grown (rule : String) (position stop : Nat)
  /-- A syntax error was recorded and parsing goes on at `resume`. -/
  | recovered (position resume : Nat)
  /-- A text was cut into tokens. -/
  | tokenized (count : Nat) (success : Bool) (stop : Nat)
deriving DecidableEq

namespace Event

/-- Rules and their growth are details; the rest is not. -/
def level : Event → Level
  | started .. => .debug
  | finished .. => .debug
  | enter .. => .trace
  | leave .. => .trace
  | leftRecursion .. => .trace
  | growing .. => .trace
  | grown .. => .trace
  | recovered .. => .debug
  | tokenized .. => .debug

/-- The part of the library an event comes from. -/
def origin : Event → Origin
  | recovered .. => .recovery
  | tokenized .. => .lexer
  | _ => .rule

/-- The words of an event. -/
def message : Event → String
  | started rules stop =>
    "parse start: rules=" ++ Nat.repr rules ++ ", end=" ++ Nat.repr stop
  | finished success stop furthest matchCount errorCount =>
    "parse finished: success=" ++ toString success ++ ", stop=" ++ Nat.repr stop
      ++ ", furthest=" ++ Nat.repr furthest ++ ", matches=" ++ Nat.repr matchCount
      ++ ", errors=" ++ Nat.repr errorCount
  | enter rule position =>
    "enter `" ++ rule ++ "` at " ++ Nat.repr position
  | leave rule position verdict =>
    "leave `" ++ rule ++ "` at " ++ Nat.repr position ++ ": " ++ verdict.display
  | leftRecursion rule position =>
    "left recursion: `" ++ rule ++ "` at " ++ Nat.repr position
  | growing rule position iteration accepted =>
    "grow `" ++ rule ++ "` from " ++ Nat.repr position ++ ": iteration " ++ Nat.repr iteration
      ++ ", accepted up to " ++ Nat.repr accepted
  | grown rule position stop =>
    "grow `" ++ rule ++ "` from " ++ Nat.repr position ++ ": fixpoint at " ++ Nat.repr stop
  | recovered position resume =>
    "syntax error at " ++ Nat.repr position ++ ", resuming at " ++ Nat.repr resume
  | tokenized count success stop =>
    "tokenize: " ++ Nat.repr count ++ " tokens, success=" ++ toString success
      ++ ", stop=" ++ Nat.repr stop

end Event

end Peg
