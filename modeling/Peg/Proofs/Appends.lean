import Peg.Grammar.Parse
import Peg.Proofs.Plain

/-!
# Plain expressions only append

Wherever a plain expression is parsed, what was recorded before stays as it is, and what the
expression records comes behind it: `Grammar.call_appends` for the parsers of rules,
`Grammar.setting_appends` for those of expressions. Nothing is assumed about the state here. The
cursor may be inside an element, the frames may be anything, and the bound may be used up on the
way; the finer laws of `Peg.Proofs.Effect` do not apply then, but this one still does.

The reason is the same everywhere. A parser goes back only to checkpoints that were made after it
was called, and these keep what was recorded before (`Checkpoint.Keeps`).
-/

namespace Peg

variable {α Id : Type}

/-! ## States with the same records and more -/

/-- A state with the records of another one, and perhaps more behind them. -/
structure State.Extends (st₀ st : State Id) : Prop where
  forest : st₀.forest <+: st.forest
  errors : st₀.errors <+: st.errors

/-- Going back to the checkpoint leaves the records of the state alone. -/
structure Checkpoint.Keeps (c : Checkpoint) (st₀ : State Id) : Prop where
  le_matchCount : st₀.forest.length ≤ c.matchCount
  le_errorCount : st₀.errors.length ≤ c.errorCount

namespace State.Extends

variable {st₀ st st' : State Id} {c : Checkpoint}

/-- Every state has its own records. -/
theorem refl (st : State Id) : st.Extends st := ⟨List.prefix_rfl, List.prefix_rfl⟩

/-- What has the records of a state and more has those that the state had from before. -/
theorem trans (h : st₀.Extends st) (h' : st.Extends st') : st₀.Extends st' :=
  ⟨h.forest.trans h'.forest, h.errors.trans h'.errors⟩

/-- A checkpoint that is made when there are more records keeps the records there were. -/
theorem keeps (h : st₀.Extends st) : st.checkpoint.Keeps st₀ :=
  ⟨h.forest.length_le, h.errors.length_le⟩

/-- Going back to a checkpoint that keeps the records leaves them there. -/
theorem restore (h : st₀.Extends st) (hc : c.Keeps st₀) : st₀.Extends (st.restore c) where
  forest := List.prefix_take_iff.2 ⟨h.forest, hc.le_matchCount⟩
  errors := List.prefix_take_iff.2 ⟨h.errors, hc.le_errorCount⟩

/-- Replaying a growing rule only appends. -/
theorem replay (h : st₀.Extends st) (stop : Nat) (forest : List (Match Id))
    (errors : List (SyntaxError Id)) : st₀.Extends (st.replay stop forest errors) where
  forest := h.forest.trans (List.prefix_append _ _)
  errors := h.errors.trans (List.prefix_append _ _)

/-- Recording an error only appends. -/
theorem addError (h : st₀.Extends st) (id : Id) (position : Nat) (skipped : Span) :
    st₀.Extends (st.addError id position skipped) where
  forest := h.forest
  errors := h.errors.trans (List.prefix_append _ _)

/-- A match takes no children from the records of a state, if enough matches were recorded since. -/
theorem addMatch (h : st₀.Extends st) {k : Nat} (hk : st₀.forest.length ≤ st.forest.length - k)
    (id : Id) (span : Span) : st₀.Extends (st.addMatch id span k) where
  forest := (List.prefix_take_iff.2 ⟨h.forest, hk⟩).trans (List.prefix_append _ _)
  errors := h.errors

/-- What is taken back on failure is only what came after the records. -/
theorem settle {r : Verdict × State Id} (h : st₀.Extends r.2) (hc : c.Keeps st₀) :
    st₀.Extends (Parser.settle c r).2 := by
  show st₀.Extends (if r.1.isFailure then r.2.restore c else r.2)
  split
  · exact h.restore hc
  · exact h

/-- What a lookahead takes back is only what came after the records. -/
theorem rewind {r : Verdict × State Id} (h : st₀.Extends r.2) (hc : c.Keeps st₀) :
    st₀.Extends (Parser.rewind c r).2 := by
  show st₀.Extends (if r.1.isAnswer then r.2.restore c else r.2)
  split
  · exact h.restore hc
  · exact h

end State.Extends

/-! ## Combinators -/

/-- A parser that leaves alone, in every state, what was recorded before. -/
def Parser.Appends (p : Parser Id) : Prop := ∀ st : State Id, st.Extends (p st).2

namespace Parser.Appends

variable {p q : Parser Id} {s : Source α} {st₀ st : State Id} {c : Checkpoint}

/-- A parser that appends leaves alone what its own state already had from before. -/
theorem after (hp : p.Appends) (h : st₀.Extends st) : st₀.Extends (p st).2 := h.trans (hp st)

/-- An attempt appends if its parser does. -/
theorem attempt (hp : p.Appends) : (attempt p).Appends := fun st =>
  (hp st).settle (State.Extends.refl st).keeps

/-- A lookahead appends if its parser does. -/
theorem lookahead (hp : p.Appends) : (lookahead p).Appends := fun st =>
  (hp st).rewind (State.Extends.refl st).keeps

/-- A test of one element records nothing. -/
theorem satisfy (s : Source α) (test : α → Bool) : (satisfy s test : Parser Id).Appends := by
  intro st
  unfold Parser.satisfy
  split
  · split
    · exact ⟨List.prefix_rfl, List.prefix_rfl⟩
    · exact .refl st
  · exact .refl st

/-- A literal records nothing. -/
theorem literal (s : Source α) (tests : List (α → Bool)) :
    (literal s tests : Parser Id).Appends := by
  intro st
  unfold Parser.literal
  split
  · exact ⟨List.prefix_rfl, List.prefix_rfl⟩
  · exact .refl st

/-- The test for the end records nothing. -/
theorem endOfInput (s : Source α) : (endOfInput s : Parser Id).Appends := by
  intro st
  unfold Parser.endOfInput
  split
  · exact .refl st
  · exact .refl st

/-- A row appends if its parsers do. -/
theorem inOrder {ps : List (Parser Id)} (hps : ∀ p ∈ ps, p.Appends) : (inOrder ps).Appends := by
  induction ps with
  | nil => exact State.Extends.refl
  | cons p rest ih =>
    obtain ⟨hp, hrest⟩ := List.forall_mem_cons.1 hps
    intro st
    have hfirst := hp st
    unfold Parser.inOrder
    split
    · next st' heq =>
      rw [heq] at hfirst
      exact (ih hrest).after hfirst
    · exact hfirst

/-- A choice appends if its alternatives do: between two of them it goes back to a checkpoint that
keeps the records. -/
theorem firstOf {ps : List (Parser Id)} (hps : ∀ p ∈ ps, p.Appends) (h : st₀.Extends st)
    (hc : c.Keeps st₀) : st₀.Extends (firstOf c ps st).2 := by
  induction ps generalizing st with
  | nil => exact h
  | cons p rest ih =>
    obtain ⟨hp, hrest⟩ := List.forall_mem_cons.1 hps
    have hfirst := hp.after h
    unfold Parser.firstOf
    split
    · next st' heq =>
      rw [heq] at hfirst
      exact ih hrest (hfirst.restore hc)
    · exact hfirst.settle hc

/-- An option appends if its parser does. -/
theorem optional (hp : p.Appends) : (optional p).Appends := by
  intro st
  have htry := hp.attempt st
  unfold Parser.optional
  split
  · next st' heq => rwa [heq] at htry
  · exact htry

/-- A negative lookahead appends if its parser does. -/
theorem notAhead (hp : p.Appends) : (notAhead p).Appends := by
  intro st
  have hlook := hp.lookahead st
  unfold Parser.notAhead
  split
  · next st' heq => rwa [heq] at hlook
  · next st' heq => rwa [heq] at hlook
  · exact hlook

/-- A tag appends if its parser does: it takes no more children than were recorded inside it. -/
theorem tag (hp : p.Appends) (id : Id) : (tag id p).Appends := by
  intro st
  have htry := hp.attempt st
  unfold Parser.tag
  split
  · next st' heq =>
    rw [heq] at htry
    split
    · next hle =>
      have hkept : st.forest.length ≤
          st'.forest.length - (st'.forest.length - st.forest.length) := by omega
      exact htry.addMatch hkept id _
    · exact htry
  · exact htry

/-- Copies append if their parser does. -/
theorem iterate (hp : p.Appends) (n : Nat) : (iterate p n).Appends := by
  induction n with
  | zero => exact State.Extends.refl
  | succ n ih =>
    intro st
    have hfirst := hp st
    unfold Parser.iterate
    split
    · next st' heq =>
      rw [heq] at hfirst
      exact ih.after hfirst
    · exact hfirst

/-! ## Loops and recovery -/

/-- The rounds of a loop append if their parser does. -/
theorem rounds (hp : p.Appends) (n : Nat) (h : st₀.Extends st) (hc : c.Keeps st₀) :
    st₀.Extends (rounds p c n st).2 := by
  induction n generalizing st with
  | zero => exact h
  | succ n ih =>
    have hround := hp.after h
    unfold Parser.rounds
    split
    · next st' heq =>
      rw [heq] at hround
      split
      · exact hround
      · exact ih hround
    · next st' heq =>
      rw [heq] at hround
      exact hround.restore h.keeps
    · exact hround.settle hc

/-- A loop appends if its parser does. -/
theorem star (hp : p.Appends) (bound : Nat) : (star bound p).Appends := fun st =>
  hp.rounds bound (.refl st) (State.Extends.refl st).keeps

/-- A loop of at least one run appends if its parser does. -/
theorem plus (hp : p.Appends) (bound : Nat) : (plus bound p).Appends := by
  intro st
  have hfirst := hp.attempt st
  unfold Parser.plus
  split
  · next st' heq =>
    rw [heq] at hfirst
    split
    · exact hfirst
    · exact ((hp.star bound).attempt.after hfirst).settle (State.Extends.refl st).keeps
  · exact hfirst

/-- A recovery appends if its primary and its fallback do. -/
theorem recover (hp : p.Appends) (hq : q.Appends) (s : Source α) (id : Id) :
    (recover s id q p).Appends := by
  intro st
  have hself := (State.Extends.refl st).keeps
  unfold Parser.recover
  split
  · exact hp st
  · have hpart : st.Extends (p st.resetFurthest).2 := hp.after ⟨List.prefix_rfl, List.prefix_rfl⟩
    split
    · next st' heq =>
      rw [heq] at hpart
      have hback : st.Extends ((st'.mergeFurthest st.furthest).restore st.checkpoint) :=
        .restore ⟨hpart.forest, hpart.errors⟩ hself
      have hfallback := hq.after hback
      split
      · next st'' heq' =>
        rw [heq'] at hfallback
        have hnoted : st.Extends (st''.note (.recovered st'.furthest st''.position)) :=
          ⟨hfallback.forest, hfallback.errors⟩
        exact hnoted.addError id _ _
      · exact hfallback.settle hself
    · next v st' _ heq =>
      rw [heq] at hpart
      split
      · exact ⟨hpart.forest, hpart.errors⟩
      · exact hpart

/-- A scan appends if its target does. -/
theorem skip (hp : p.Appends) (s : Source α) (past : Bool) (n : Nat) :
    (skip s past p n).Appends := by
  induction n with
  | zero => exact State.Extends.refl
  | succ n ih =>
    intro st
    have hround := hp st
    unfold Parser.skip
    split
    · exact .refl st
    · split
      · next st' heq =>
        rw [heq] at hround
        have hback := hround.restore (State.Extends.refl st).keeps
        split
        · exact ⟨hback.forest, hback.errors⟩
        · exact hback
      · next st' heq =>
        rw [heq] at hround
        exact ih.after ⟨hround.forest, hround.errors⟩
      · exact hround

/-! ## Rules -/

variable (s) in

/-- The growth rounds of a rule append if its body does: each goes back to a checkpoint that keeps
the records. -/
theorem growRounds (hp : p.Appends) (rule : Nat) (name : String) (n k : Nat) (h : st₀.Extends st)
    (hc : c.Keeps st₀) : st₀.Extends (growRounds s rule name p c n k st).2 := by
  induction n generalizing k st with
  | zero => exact h
  | succ n ih =>
    unfold Parser.growRounds
    split
    · exact h
    · next forest errors _ =>
      have hback := h.restore hc
      simp only
      split
      · exact hback.replay _ _ _
      · have hround : st₀.Extends (p (((st.note (.growing name c.position (k + 1)
            st.position)).restore c).setMode rule (.growing st.position forest errors))).2 :=
          hp.after ⟨hback.forest, hback.errors⟩
        split
        · next st' heq =>
          rw [heq] at hround
          split
          · exact ih _ hround
          · exact (hround.restore hc).replay _ _ _
        · next st' heq =>
          rw [heq] at hround
          exact (hround.restore hc).replay _ _ _
        · exact hround.settle hc

/-- Growing a rule appends if its body does. -/
theorem grow (hp : p.Appends) (s : Source α) (bound rule : Nat) (name : String) (position : Nat) :
    (grow s bound rule name position p).Appends := by
  intro st
  unfold Parser.grow
  split
  · exact .refl st
  · have hseed : st.Extends (p (st.setMode rule .seeding)).2 :=
      hp.after ⟨List.prefix_rfl, List.prefix_rfl⟩
    split
    · next st' heq =>
      rw [heq] at hseed
      have hgrown := hp.growRounds s rule name bound 0 hseed (State.Extends.refl st).keeps
      split
      · next st'' heq' =>
        rw [heq'] at hgrown
        exact ⟨hgrown.forest, hgrown.errors⟩
      · exact hgrown
    · exact hseed

/-- Entering a rule appends if its body does. -/
theorem enter (hp : p.Appends) (s : Source α) (bound rule : Nat) (name : String) :
    (enter s bound rule name p).Appends := by
  intro st
  have hbody : st.Extends (p ((st.pushFrame rule).note (.enter name st.position))).2 :=
    hp.after ⟨List.prefix_rfl, List.prefix_rfl⟩
  have hleave : ∀ r : Verdict × State Id, st.Extends r.2 → st.Extends
      (if r.1.isAnswer then (r.2.popFrame rule).note (.leave name st.position r.1) else r.2) := by
    intro r hr
    split
    · exact ⟨hr.forest, hr.errors⟩
    · exact hr
  refine hleave _ ?_
  split
  · next cycle st' heq =>
    rw [heq] at hbody
    split
    · exact (hp.grow s bound rule name _).after hbody
    · exact hbody
  · exact hbody

/-- Invoking a rule appends if its body does. -/
theorem invoke (hp : p.Appends) (s : Source α) (bound rule : Nat) (name : String) :
    (invoke s bound rule name p).Appends := by
  intro st
  unfold Parser.invoke
  split
  · exact hp.enter s bound rule name st
  · split
    · exact ⟨List.prefix_rfl, List.prefix_rfl⟩
    · exact .refl st
    · exact (State.Extends.refl st).replay _ _ _

end Parser.Appends

/-! ## Expressions and grammars -/

/-- A setting in which the parsers of all plain expressions only append. -/
def Setting.Appends (env : Setting α Id) : Prop :=
  ∀ e : Expr α Id, e.isPlain = true → (e.parser env).Appends

/-- The parsers of plain expressions only append, if those of the rules do. -/
theorem Setting.appends {env : Setting α Id} (hcall : ∀ i, (env.call i).Appends) :
    env.Appends := by
  intro e he
  have hparsers : ∀ items : List (Expr α Id), (∀ x ∈ items, (x.parser env).Appends) →
      ∀ p ∈ Expr.parsers env items, p.Appends := by
    intro items hall
    rw [Expr.parsers_eq_map]
    exact List.forall_mem_map.2 hall
  induction e, he using Expr.plain_induction with
  | satisfy test => exact .satisfy env.source test
  | literal tests => exact .literal env.source tests
  | endOfInput => exact .endOfInput env.source
  | rule i => exact hcall i
  | sequence es hes ih =>
    exact (Parser.Appends.inOrder (hparsers es fun x hx => ih x hx
      ((Expr.allPlain_iff es).1 hes x hx))).attempt
  | choice es hes ih =>
    exact fun st => Parser.Appends.firstOf (hparsers es fun x hx => ih x hx
      ((Expr.allPlain_iff es).1 hes x hx)) (.refl st) (State.Extends.refl st).keeps
  | group e _ ih => exact ih
  | star e _ ih => exact ih.star env.bound
  | plus e _ ih => exact ih.plus env.bound
  | optional e _ ih => exact ih.optional
  | ahead e _ ih => exact ih.lookahead
  | notAhead e _ ih => exact ih.notAhead
  | times e n _ ih => exact (ih.iterate n).attempt
  | tag e id _ ih => exact ih.tag id
  | recover e id f _ _ _ ihe ihf => exact ihe.recover ihf env.source id
  | skipBefore e _ ih => exact ih.skip env.source false env.bound
  | skipPast e _ ih => exact ih.skip env.source true env.bound

namespace Grammar

variable {g : Grammar α Id}

/-- The rules of a plain grammar only append, under every bound. -/
theorem call_appends (hg : g.isPlain = true) (s : Source α) (b i : Nat) :
    (g.call s b i).Appends := by
  induction b generalizing i with
  | zero => exact State.Extends.refl
  | succ b ih =>
    unfold call
    split
    · exact State.Extends.refl
    · next body hbody =>
      exact (Setting.appends ih body (isPlain_body hg hbody)).invoke s b i (g.name i)

/-- Plain expressions only append, in every state and under every bound. -/
theorem setting_appends (hg : g.isPlain = true) (s : Source α) (b : Nat) :
    (g.setting s b).Appends :=
  Setting.appends (call_appends hg s b)

end Grammar

end Peg
