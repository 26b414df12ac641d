import Peg.Expr
import Peg.Error
import Peg.Text.Quoted

/-!
# Grammars

A grammar is a list of named rules. A rule is declared first and defined later, so that rules can
refer to each other, and it is known by its number in the list. Names are for reading only; two
rules may share one.
-/

namespace Peg

/-- A rule: its name, and its definition once there is one. -/
structure Rule (α Id : Type) where
  /-- The name. -/
  name : String
  /-- The definition. -/
  body : Option (Expr α Id)

/-- A list of rules. -/
structure Grammar (α Id : Type) where
  /-- The rules by number. -/
  rules : List (Rule α Id)

/-- A rule number as it is written. -/
def Rule.number (index : Nat) : String := "#" ++ Nat.repr index

/-- A rule reference as it is shown. -/
def Rule.display (index : Nat) : String := "Rule(RuleId(" ++ Nat.repr index ++ "))"

namespace Grammar

variable {α Id : Type}

/-- The grammar without rules. -/
def empty : Grammar α Id := ⟨[]⟩

/-- The number of rules. -/
def size (g : Grammar α Id) : Nat := g.rules.length

/-- Declares a rule; its number is the number of rules there were before. -/
def declare (g : Grammar α Id) (name : String) : Nat × Grammar α Id :=
  (g.size, ⟨g.rules ++ [⟨name, none⟩]⟩)

/-- Defines a rule that was declared. -/
def define (g : Grammar α Id) (index : Nat) (body : Expr α Id) : Except Error (Grammar α Id) :=
  match g.rules[index]? with
  | none => .error (.undefinedRule (Rule.number index))
  | some ⟨name, some _⟩ => .error (.redefinedRule name)
  | some ⟨name, none⟩ => .ok ⟨g.rules.set index ⟨name, some body⟩⟩

/-- Declares and defines a rule in one step. -/
def defineRule (g : Grammar α Id) (name : String) (body : Expr α Id) : Nat × Grammar α Id :=
  (g.size, ⟨g.rules ++ [⟨name, some body⟩]⟩)

/-- The name of a rule. -/
def name (g : Grammar α Id) (index : Nat) : String :=
  match g.rules[index]? with
  | some rule => rule.name
  | none => "<unknown>"

/-- The definition of a rule, if it has one. -/
def body? (g : Grammar α Id) (index : Nat) : Option (Expr α Id) :=
  (g.rules[index]?).bind (·.body)

/-- Refuses a grammar in which a rule has no definition, naming the first of them. -/
def validate (g : Grammar α Id) : Except Error Unit :=
  match g.rules.find? (·.body.isNone) with
  | some rule => .error (.undefinedRule rule.name)
  | none => .ok ()

/-- The form in which a grammar is shown: its rule names, quoted. -/
def display (g : Grammar α Id) : String :=
  "[" ++ String.intercalate ", " (g.rules.map fun rule => Text.quote rule.name) ++ "]"

end Grammar

end Peg
