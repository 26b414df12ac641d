import Peg.Expr.Element
import Peg.Grammar
import Peg.Source

/-!
# Plain expressions

An expression is *plain* if it is built without scripts. A script may put the cursor anywhere and
take records that are not its own, so the laws of this library are laws of plain expressions, and of
grammars whose rules are plain.

`Expr.plain_induction` is induction over plain expressions; the items of sequences and choices come
with a hypothesis each.
-/

set_option linter.unusedSectionVars false

namespace Peg

variable {α Id : Type}

mutual

/-- Whether an expression is built without scripts. -/
def Expr.isPlain : Expr α Id → Bool
  | .satisfy _ => true
  | .literal _ => true
  | .endOfInput => true
  | .rule _ => true
  | .sequence items => Expr.allPlain items
  | .choice items => Expr.allPlain items
  | .group e => e.isPlain
  | .star e => e.isPlain
  | .plus e => e.isPlain
  | .optional e => e.isPlain
  | .ahead e => e.isPlain
  | .notAhead e => e.isPlain
  | .times e _ => e.isPlain
  | .tag e _ => e.isPlain
  | .recover e _ fallback => e.isPlain && fallback.isPlain
  | .skipBefore token => token.isPlain
  | .skipPast token => token.isPlain
  | .script _ => false
termination_by structural e => e

/-- Whether all expressions of a list are built without scripts. -/
def Expr.allPlain : List (Expr α Id) → Bool
  | [] => true
  | e :: rest => e.isPlain && Expr.allPlain rest
termination_by structural items => items

end

/-- Whether all rules of a grammar that are defined have plain definitions. -/
def Grammar.isPlain (g : Grammar α Id) : Bool := g.rules.all fun rule => rule.body.all Expr.isPlain

/-- A list is plain if all of its expressions are. -/
theorem Expr.allPlain_iff (items : List (Expr α Id)) :
    Expr.allPlain items = true ↔ ∀ e ∈ items, e.isPlain = true := by
  induction items with
  | nil => simp [Expr.allPlain]
  | cons e rest ih => simp [Expr.allPlain, ih]

/-- A member of a list of plain expressions is plain, and so are the members before it. -/
theorem Expr.allPlain_split {before behind : List (Expr α Id)} {e : Expr α Id}
    (h : Expr.allPlain (before ++ e :: behind) = true) :
    Expr.allPlain before = true ∧ e.isPlain = true := by
  have hall := (Expr.allPlain_iff _).1 h
  refine ⟨(Expr.allPlain_iff before).2 fun x hx => hall x (List.mem_append_left _ hx), ?_⟩
  exact hall e (List.mem_append_right _ List.mem_cons_self)

/-- The definitions in a plain grammar are plain. -/
theorem Grammar.isPlain_body {g : Grammar α Id} (hg : g.isPlain = true) {i : Nat} {e : Expr α Id}
    (h : g.body? i = some e) : e.isPlain = true := by
  simp only [Grammar.body?, Option.bind_eq_some_iff] at h
  obtain ⟨rule, hrule, hbody⟩ := h
  have := List.all_eq_true.1 hg rule (List.mem_of_getElem? hrule)
  rw [hbody] at this
  exact this

/-- A rule with a definition is one of the rules of the grammar. -/
theorem Grammar.lt_size_of_body? {g : Grammar α Id} {i : Nat} {e : Expr α Id}
    (h : g.body? i = some e) : i < g.size := by
  simp only [Grammar.body?, Option.bind_eq_some_iff] at h
  obtain ⟨rule, hrule, -⟩ := h
  exact (List.getElem?_eq_some_iff.1 hrule).1

/-! ## An example -/

/-- Two plain rules that are left-recursive through each other: `a` is `b x` or `y`, and `b` is
`a z` or `a`. -/
def Grammar.entangled : Grammar Char Nat where
  rules :=
    [⟨"a", some (.choice [.tag (.sequence [.rule 1, .element 'x']) 0, .element 'y'])⟩,
      ⟨"b", some (.choice [.tag (.sequence [.rule 0, .element 'z']) 1, .rule 0])⟩]

/-- A text that the first of these rules matches as a whole. -/
def Source.entangled : Source Char := .ofText "yxzx"

/-- A left-recursive rule on top of one that is not: a `sum` is a `sum`, a plus sign and a `term`,
or a `term`, and a `term` is a `term` in brackets or a digit. -/
def Grammar.sums : Grammar Char Nat where
  rules :=
    [⟨"sum", some (.choice [.tag (.sequence [.rule 0, .element '+', .rule 1]) 0, .rule 1])⟩,
      ⟨"term", some (.choice [.tag (.sequence [.element '(', .rule 1, .element ')']) 1, .digit])⟩]

/-! ## Induction -/

section induction

variable {motive : (e : Expr α Id) → e.isPlain = true → Prop}
  (satisfy : ∀ test, motive (.satisfy test) rfl)
  (literal : ∀ tests, motive (.literal tests) rfl)
  (endOfInput : motive .endOfInput rfl)
  (rule : ∀ index, motive (.rule index) rfl)
  (sequence : ∀ items h, (∀ e ∈ items, ∀ he, motive e he) → motive (.sequence items) h)
  (choice : ∀ items h, (∀ e ∈ items, ∀ he, motive e he) → motive (.choice items) h)
  (group : ∀ e h, motive e h → motive (.group e) h)
  (star : ∀ e h, motive e h → motive (.star e) h)
  (plus : ∀ e h, motive e h → motive (.plus e) h)
  (optional : ∀ e h, motive e h → motive (.optional e) h)
  (ahead : ∀ e h, motive e h → motive (.ahead e) h)
  (notAhead : ∀ e h, motive e h → motive (.notAhead e) h)
  (times : ∀ e n h, motive e h → motive (.times e n) h)
  (tag : ∀ e id h, motive e h → motive (.tag e id) h)
  (recover : ∀ e id fallback h he hf, motive e he → motive fallback hf →
    motive (.recover e id fallback) h)
  (skipBefore : ∀ token h, motive token h → motive (.skipBefore token) h)
  (skipPast : ∀ token h, motive token h → motive (.skipPast token) h)

include satisfy literal endOfInput rule sequence choice group star plus optional ahead notAhead
  times tag recover skipBefore skipPast

mutual

/-- What holds of the terminals and the references, and of an expression if it holds of its parts,
holds of every plain expression. -/
@[elab_as_elim]
theorem Expr.plain_induction : (e : Expr α Id) → (plain : e.isPlain = true) → motive e plain
  | .satisfy test, _ => satisfy test
  | .literal tests, _ => literal tests
  | .endOfInput, _ => endOfInput
  | .rule index, _ => rule index
  | .sequence items, h => sequence items h (Expr.plain_induction_all items h)
  | .choice items, h => choice items h (Expr.plain_induction_all items h)
  | .group e, h => group e h (Expr.plain_induction e h)
  | .star e, h => star e h (Expr.plain_induction e h)
  | .plus e, h => plus e h (Expr.plain_induction e h)
  | .optional e, h => optional e h (Expr.plain_induction e h)
  | .ahead e, h => ahead e h (Expr.plain_induction e h)
  | .notAhead e, h => notAhead e h (Expr.plain_induction e h)
  | .times e n, h => times e n h (Expr.plain_induction e h)
  | .tag e id, h => tag e id h (Expr.plain_induction e h)
  | .recover e id fallback, h =>
    have both := Bool.and_eq_true_iff.1 h
    recover e id fallback h both.1 both.2 (Expr.plain_induction e both.1)
      (Expr.plain_induction fallback both.2)
  | .skipBefore token, h => skipBefore token h (Expr.plain_induction token h)
  | .skipPast token, h => skipPast token h (Expr.plain_induction token h)
  | .script _, h => Bool.noConfusion h
termination_by structural e => e

/-- What is shown of plain expressions holds of every expression of a plain list. -/
theorem Expr.plain_induction_all :
    (items : List (Expr α Id)) → Expr.allPlain items = true →
      ∀ e ∈ items, ∀ plain, motive e plain
  | [], _ => fun _ he => absurd he List.not_mem_nil
  | e :: rest, h =>
    have both := Bool.and_eq_true_iff.1 h
    List.forall_mem_cons.2
      ⟨fun _ => Expr.plain_induction e both.1, Expr.plain_induction_all rest both.2⟩
termination_by structural items => items

end

end induction

end Peg
