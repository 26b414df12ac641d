import Peg.Expr.Operator
import Peg.Proofs.Operators
import Peg.Proofs.Termination

/-!
# Combinators and their expansions

Some combinators say nothing that could not be said with others: a number of repetitions is a
sequence of copies, an option is a choice between the expression and nothing, a lookahead is a
lookahead that must not fail to fail, and repetition at least once is the expression and a loop.
Each of them has its own way of going back, and each treats a mismatch, a signal of left recursion
and a match that uses nothing up in its own way. `Grammar.combinators_expand` compares them with
their expansions in every state that arises in a parse.

* The first three are equations between parsers. They hold in every state and for all expressions,
  since going back twice to the same checkpoint is going back once (`State.restore_restore`).
* Repetition at least once is its expansion as long as the first run does not match, or gets
  further (`State.Proper.plus_cases`). If the first run matches without getting further, the
  combinator is content with it, while the loop of the expansion runs the expression once more from
  the same place. That run does the same again, since it depends on nothing but the position and
  the frames. So everything is as in the combinator, but the records are there twice.
-/

namespace Peg

variable {α Id : Type}

/-! ## Equations between parsers -/

/-- Going back twice to one checkpoint is going back once. -/
theorem State.restore_restore (st : State Id) (c : Checkpoint) :
    (st.restore c).restore c = st.restore c := by
  simp [State.restore, List.take_take]

namespace Parser

/-- A number of repetitions is a sequence of so many copies. -/
theorem times_eq_sequence (p : Parser Id) (n : Nat) :
    times n p = sequence (List.replicate n p) := by
  rw [times, iterate_eq_inOrder, sequence]

/-- An option is a choice between the expression and nothing. -/
theorem optional_eq_choice (p : Parser Id) : optional p = choice [p, sequence []] := by
  funext st
  simp only [optional, attempt, choice, firstOf]
  generalize p st = r
  obtain ⟨v, st'⟩ := r
  cases v <;> rfl

/-- A lookahead is a negative lookahead of a negative one. -/
theorem lookahead_eq_notAhead (p : Parser Id) : lookahead p = notAhead (notAhead p) := by
  funext st
  obtain ⟨v, st', hrun⟩ : ∃ v st', p st = (v, st') := ⟨_, _, rfl⟩
  cases v with
  | ok | mismatch | leftRecursion =>
    simp only [lookahead, notAhead, hrun, rewind, Verdict.isAnswer, if_true,
      State.restore_restore]
  | fault | exhausted =>
    simp only [lookahead, notAhead, hrun, rewind, Verdict.isAnswer, Bool.false_eq_true, if_false]

end Parser

/-! ## Repetition at least once -/

section plus

variable {s : Source α} {C : Nat → Nat → Verdict → Effect Id → Prop}
  {e : Expr α Id} {pos : Nat} {v : Verdict} {a c : Effect Id}

/-- An expression and then a loop over it. -/
theorem Runs.sequence_star (h : Runs s C (.expr e) pos .ok a)
    (hloop : Runs s C (.loop e) a.stop v c) (hc : c.stop ≤ c.reach) :
    Runs s C (.expr (.sequence [e, .star e])) pos v ((a.andThen c).settle v pos) := by
  have hstar := Runs.star hloop
  by_cases hv : v = .ok
  · subst hv
    have hitems := Runs.itemsCons h (.itemsCons hstar .itemsNil)
    rw [Effect.settle_ok, Effect.andThen_jump hc] at hitems
    exact .sequence hitems
  · rw [← Effect.settle_andThen_settle v a c pos a.stop]
    exact .sequence (.itemsCons h (.itemsFail hstar hv))

variable {g : Grammar α Id} {b : Nat} {st : State Id}

/-- What a loop of at least one run expands to is plain if its expression is. -/
theorem Expr.isPlain_plusExpansion (he : e.isPlain = true) :
    (wholeSequence [e, .star e]).isPlain = true := by
  simp [wholeSequence, Expr.isPlain, Expr.allPlain, he]

/-- Either repetition at least once is its expansion, and the first run does not match or gets
further; or the first run matches and stays, and the expansion does twice what the combinator does
once. -/
theorem State.Proper.plus_cases (h : st.Proper g s b) (hg : g.isPlain = true)
    (he : e.isPlain = true) :
    (∃ v st', (Expr.plus e).parser (g.setting s b) st = (v, st') ∧ v.isAnswer = true ∧
        (Expr.wholeSequence [e, .star e]).parser (g.setting s b) st = (v, st') ∧
        ∀ st₁, e.parser (g.setting s b) st = (.ok, st₁) → st₁.position ≠ st.position) ∨
      ∃ a : Effect Id, a.stop = st.position ∧ e.parser (g.setting s b) st = (.ok, a.on st) ∧
        (Expr.plus e).parser (g.setting s b) st = (.ok, a.on st) ∧
        (Expr.wholeSequence [e, .star e]).parser (g.setting s b) st = (.ok, a.on (a.on st)) := by
  have hplus : (Expr.plus e).isPlain = true := he
  have hexpansion := Expr.isPlain_plusExpansion he
  have hregular := Grammar.regular (g := g) (invokes_lawful s) (g.depth s st.frames) h.stack
  obtain ⟨v, c, hrun, hconf, -⟩ := Grammar.exists_done (t := .expr (.plus e)) (invokes_lawful s)
    (invokes_realizedBy s) hg hplus h.stack h.boundary
  have heq := h.parser_eq hg hplus hrun
  cases hrun with
  | reads hr => cases hr
  | misses hr => cases hr
  | @plusOnce _ _ _ a hfirst hstay =>
    have hfirst_eq := h.parser_eq hg he hfirst
    by_cases hv : v = .ok
    · subst hv
      right
      have hstop := hstay rfl
      have hagain : Runs s (g.Derives Invokes s (g.depth s st.frames) st.frames) (.expr e) a.stop
          .ok a := by
        rw [hstop]
        exact hfirst
      -- the loop of the expansion begins where the first run ended, which is where that began
      have hsequence := hfirst.sequence_star (.loopStay hagain rfl) hconf.stop_le_reach
      have hexpansion_eq := h.parser_eq hg hexpansion (.group hsequence)
      rw [Effect.settle_ok, Effect.andThen_on] at hexpansion_eq
      exact ⟨a, hstop, hfirst_eq, heq, hexpansion_eq⟩
    · left
      refine ⟨v, _, heq, hconf.answer, ?_, fun st₁ hok => ?_⟩
      · exact h.parser_eq hg hexpansion (.group (.sequence (.itemsFail hfirst hv)))
      · rw [hfirst_eq] at hok
        exact absurd (congrArg Prod.fst hok) hv
  | @plusMore _ _ _ a c hfirst hmoved hloop =>
    left
    have hfirst_eq := h.parser_eq hg he hfirst
    have hwithin := (hfirst.conforms hregular (Nat.le_refl _) h.boundary).toWithin
    have hrest := hloop.conforms hregular hwithin.le_stop hwithin.boundary
    have hsequence := hfirst.sequence_star hloop hrest.stop_le_reach
    have hexpansion_eq := h.parser_eq hg hexpansion (.group hsequence)
    refine ⟨v, _, heq, hconf.answer, hexpansion_eq, fun st₁ hok => ?_⟩
    rw [hfirst_eq] at hok
    cases hok
    exact hmoved

end plus

/-! ## In a parse -/

/-- What the combinators that can be written with others come to in a state. The equations are
between verdicts and whole states: cursor, furthest position, records, frames and log. -/
structure Expr.Expands (g : Grammar α Id) (s : Source α) (b : Nat) (e : Expr α Id)
    (st : State Id) : Prop where
  /-- A number of repetitions is a sequence of so many copies. -/
  times : ∀ n : Nat, (e * n).parser (g.setting s b) st =
    (wholeSequence (List.replicate n e)).parser (g.setting s b) st
  /-- An option is a choice between the expression and the empty sequence. -/
  optional : (Expr.optional e).parser (g.setting s b) st =
    (wholeChoice [e, wholeSequence []]).parser (g.setting s b) st
  /-- A lookahead is a double negative one. -/
  ahead : (Expr.ahead e).parser (g.setting s b) st =
    (Expr.notAhead (.notAhead e)).parser (g.setting s b) st
  /-- Repetition at least once comes out as the expression and a loop does: with the same answer,
  at the same position, with the same furthest position and frames. -/
  plus : ∃ v st₁ st₂, (Expr.plus e).parser (g.setting s b) st = (v, st₁) ∧ v.isAnswer = true ∧
    (wholeSequence [e, .star e]).parser (g.setting s b) st = (v, st₂) ∧
    st₁.position = st₂.position ∧ st₁.furthest = st₂.furthest ∧ st₁.frames = st₂.frames
  /-- Unless the first run matches and stays where it began, everything else is the same as well. -/
  plus_eq : (∀ st₁, e.parser (g.setting s b) st = (.ok, st₁) → st₁.position ≠ st.position) →
    (Expr.plus e).parser (g.setting s b) st =
      (wholeSequence [e, .star e]).parser (g.setting s b) st
  /-- If it does, the combinator records what the first run recorded, and the expansion records it
  twice. -/
  plus_twice : ∀ {st₁ : State Id}, e.parser (g.setting s b) st = (.ok, st₁) →
    st₁.position = st.position →
    ∃ st₂ forest errors, (Expr.plus e).parser (g.setting s b) st = (.ok, st₁) ∧
      (wholeSequence [e, .star e]).parser (g.setting s b) st = (.ok, st₂) ∧
      st₁.forest = st.forest ++ forest ∧ st₂.forest = st₁.forest ++ forest ∧
      st₁.errors = st.errors ++ errors ∧ st₂.errors = st₁.errors ++ errors

namespace Grammar

/-- In every state that arises in a parse, the combinators are what their expansions are. -/
theorem combinators_expand (g : Grammar α Id) (s : Source α) (start e : Expr α Id)
    (hg : g.isPlain = true) (hstart : start.isPlain = true) (he : e.isPlain = true) {b : Nat}
    {st : State Id} (hst : g.Context s start b st) : Expr.Expands g s b e st := by
  have hplus := (hst.proper hg hstart).plus_cases hg he
  constructor
  case times =>
    intro n
    show Parser.times n (e.parser (g.setting s b)) st =
      Parser.sequence (Expr.parsers (g.setting s b) (List.replicate n e)) st
    rw [Parser.times_eq_sequence, Expr.parsers_eq_map, List.map_replicate]
  case optional => exact congrFun (Parser.optional_eq_choice _) st
  case ahead => exact congrFun (Parser.lookahead_eq_notAhead _) st
  case plus =>
    rcases hplus with ⟨v, st', heq, hv, heq', -⟩ | ⟨a, -, -, heq, heq'⟩
    · exact ⟨v, st', st', heq, hv, heq', rfl, rfl, rfl⟩
    · refine ⟨.ok, _, _, heq, rfl, heq', rfl, ?_, rfl⟩
      simp only [Effect.on_furthest, Nat.max_assoc, Nat.max_self]
  case plus_eq =>
    intro hmoved
    rcases hplus with ⟨v, st', heq, -, heq', -⟩ | ⟨a, hstop, hfirst, -, -⟩
    · exact heq.trans heq'.symm
    · exact absurd hstop (hmoved _ hfirst)
  case plus_twice =>
    intro st₁ hok hstay
    rcases hplus with ⟨v, st', -, -, -, hmoved⟩ | ⟨a, -, hfirst, heq, heq'⟩
    · exact absurd hstay (hmoved st₁ hok)
    · cases hfirst.symm.trans hok
      exact ⟨_, a.forest, a.errors, heq, heq', rfl, rfl, rfl, rfl⟩

/-- Behind the whole text, where the rule does not match, an empty match under a tag is recorded
once by the combinator and twice by its expansion. -/
theorem combinators_expand_entangled :
    let e : Expr Char Nat := .choice [.rule 0, .tag (.sequence []) 6]
    let start : Expr Char Nat := .sequence [.rule 0, .plus e]
    entangled.isPlain = true ∧ start.isPlain = true ∧ e.isPlain = true ∧
      ∃ (b : Nat) (st st₁ st₂ : State Nat), entangled.Context .entangled start b st ∧
        Expr.Expands entangled .entangled b e st ∧ st.position = 4 ∧
        (Expr.plus e).parser (entangled.setting .entangled b) st = (.ok, st₁) ∧
        (Expr.wholeSequence [e, .star e]).parser (entangled.setting .entangled b) st = (.ok, st₂) ∧
        st₁.forest = st.forest ++ [⟨6, ⟨4, 4⟩, []⟩] ∧
        st₂.forest = st.forest ++ [⟨6, ⟨4, 4⟩, []⟩, ⟨6, ⟨4, 4⟩, []⟩] := by
  intro e start
  have hplain : start.isPlain = true ∧ e.isPlain = true := by decide
  let before (b : Nat) : Verdict × State Nat :=
    (Expr.sequence [.rule 0]).parser (entangled.setting .entangled b)
      (State.initial.note (.started 2 4))
  let result (b : Nat) : Verdict × State Nat :=
    e.parser (entangled.setting .entangled b) (before b).2
  have hbefore : (before (entangled.enough .entangled)).1 = .ok ∧
      (before (entangled.enough .entangled)).2.position = 4 := by decide +kernel
  have hrun : (result (entangled.enough .entangled)).1 = .ok ∧
      (result (entangled.enough .entangled)).2.position = 4 ∧
      (result (entangled.enough .entangled)).2.forest =
        (before (entangled.enough .entangled)).2.forest ++ [⟨6, ⟨4, 4⟩, []⟩] := by decide +kernel
  have hfirst : Calls entangled .entangled (entangled.firstCall .entangled start)
      (.task (entangled.enough .entangled) (.expr (.plus e))
        (before (entangled.enough .entangled)).2) := by
    have heq : before (entangled.enough .entangled) =
        (.ok, (before (entangled.enough .entangled)).2) := by rw [← hbefore.1]
    exact .item heq
  have hst : entangled.Context .entangled start (entangled.enough .entangled)
      (before (entangled.enough .entangled)).2 := .made (.single hfirst)
  -- from here on the bound is some number, so that nothing is evaluated again
  generalize entangled.enough .entangled = b at hbefore hrun hst
  obtain ⟨hok, hstop, hforest⟩ := hrun
  have hexpands :=
    combinators_expand entangled .entangled start e (by decide) hplain.1 hplain.2 hst
  have heq : result b = (.ok, (result b).2) := by rw [← hok]
  obtain ⟨st₂, forest, errors, hplus, hexpansion, hnew, htwice, -, -⟩ :=
    hexpands.plus_twice heq (hstop.trans hbefore.2.symm)
  have hone : forest = [⟨6, ⟨4, 4⟩, []⟩] := List.append_cancel_left (hnew.symm.trans hforest)
  refine ⟨by decide, hplain.1, hplain.2, b, (before b).2, (result b).2, st₂, hst, hexpands,
    hbefore.2, hplus, hexpansion, hforest, ?_⟩
  rw [htwice, hnew, hone, List.append_assoc]
  rfl

end Grammar

end Peg
