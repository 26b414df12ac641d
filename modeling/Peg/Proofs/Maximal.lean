import Mathlib.Logic.Relation
import Peg.Proofs.Operators
import Peg.Proofs.Termination

/-!
# Loops are maximal

`Expr.star` parses an expression as often as possible. The expression may be any plain one: it may
match without using anything up, record matches, recover from errors, and refer to rules that are
being parsed. `Grammar.loops_are_maximal` says what comes out in every state that arises in a parse.
A loop does not come back with a mismatch. If it matches, it ran through a chain of rounds
(`Expr.Round`), each of which used up an element, and through one last run of the expression that
did not move the cursor; the state after that last run is the state after the loop. If it fails, it
does so with a signal and leaves everything as it was.

A loop cannot go on after a loop. The last run depends on nothing but the position and the frames,
and the second loop begins at the same position and with the same frames, so its first round comes
out as the last run of the first loop did.
-/

namespace Peg

variable {α Id : Type}

/-! ## Rounds -/

/-- A round of a loop that is followed by another one: the expression matches and gets further, over
at least one element. -/
structure Expr.Round (g : Grammar α Id) (s : Source α) (b : Nat) (e : Expr α Id)
    (st st' : State Id) : Prop where
  ok : e.parser (g.setting s b) st = (.ok, st')
  further : st.position < st'.position
  fewer : s.after st'.position < s.after st.position

section rounds

variable {g : Grammar α Id} {s : Source α} {b d : Nat} {e : Expr α Id} {st last : State Id}
  {v w : Verdict} {a c : Effect Id}

/-- A loop that matches is a chain of rounds and one last run that does not move the cursor. -/
theorem State.Proper.exists_last_round (h : st.Proper g s b) (hg : g.isPlain = true)
    (he : e.isPlain = true)
    (hrun : Runs s (g.Derives Invokes s d st.frames) (.loop e) st.position .ok a) :
    ∃ last w c, Relation.ReflTransGen (e.Round g s b) st last ∧ last.Proper g s b ∧
      last.frames = st.frames ∧ a.on st = c.on last ∧ c.stop = last.position ∧
      Runs s (g.Derives Invokes s d st.frames) (.expr e) last.position w c ∧
      (w = .ok ∨ w = .mismatch) := by
  generalize ht : Task.loop e = t at hrun
  generalize hv : Verdict.ok = v at hrun
  generalize hpos : st.position = pos at hrun
  generalize hfs : st.frames = fs at hrun
  induction hrun generalizing st with
  | @loopEnd pos e' a hfirst =>
    cases ht
    subst hpos hfs
    have hsilent := (hfirst.conforms (Grammar.regular (invokes_lawful s) d h.stack) (Nat.le_refl _)
      h.boundary).silent rfl rfl
    rw [hsilent.undo_eq]
    exact ⟨st, _, a, .refl, h, rfl, rfl, hsilent.stop_eq, hfirst, Or.inr rfl⟩
  | @loopStay pos e' a hfirst hstay =>
    cases ht
    subst hpos hfs
    exact ⟨st, _, a, .refl, h, rfl, rfl, hstay, hfirst, Or.inl rfl⟩
  | @loopMore pos e' v a₁ a₂ hfirst hmoved hrest _ ih =>
    cases ht
    subst hpos hfs hv
    have heq := h.parser_eq hg he hfirst
    have hproper := h.after hg he heq
    have hle := (hfirst.conforms (Grammar.regular (invokes_lawful s) d h.stack) (Nat.le_refl _)
      h.boundary).le_stop
    have hround : e.Round g s b st (a₁.on st) :=
      ⟨heq, Nat.lt_of_le_of_ne hle (Ne.symm hmoved), h.after_lt hg he heq hmoved⟩
    obtain ⟨last, w, c, hchain, hlast, hframes, hon, hstop, hagain, hw⟩ :=
      ih hproper rfl rfl rfl rfl
    refine ⟨last, w, c, .head hround hchain, hlast, hframes, ?_, hstop, hagain, hw⟩
    rw [Effect.andThen_on, hon]
  | loopSignal => cases hv
  | _ => cases ht

/-- A loop over an expression that does not get further here stays here. -/
theorem State.Proper.star_stays (h : st.Proper g s b) (hg : g.isPlain = true)
    (he : e.isPlain = true)
    (hrun : Runs s (g.Derives Invokes s d st.frames) (.expr e) st.position w c)
    (hstop : c.stop = st.position) (hw : w = .ok ∨ w = .mismatch) :
    ∃ st', (Expr.star e).parser (g.setting s b) st = (.ok, st') ∧
      st'.position = st.position := by
  rcases hw with rfl | rfl
  · have hloop := Runs.star (.loopStay hrun hstop)
    exact ⟨_, h.parser_eq hg (e := .star e) he hloop, hstop⟩
  · have hloop := Runs.star (.loopEnd hrun)
    exact ⟨_, h.parser_eq hg (e := .star e) he hloop, rfl⟩

end rounds

/-! ## Loops in a parse -/

/-- What a loop over an expression does in a state, told by what the expression does. -/
structure Expr.LoopsMaximally (g : Grammar α Id) (s : Source α) (b : Nat) (e : Expr α Id)
    (st : State Id) : Prop where
  /-- A loop matches or signals left recursion. -/
  answer : ∃ v st', (Expr.star e).parser (g.setting s b) st = (v, st') ∧
    (v = .ok ∨ ∃ q, v = .leftRecursion q)
  /-- If it matches, it is a chain of rounds that each use up an element, and one last run, with
  which it ends. The last run does not get further: it matches without using anything up, and what
  it records is kept, or it does not match, and there is nothing that it records. -/
  chain : ∀ {st' : State Id}, (Expr.star e).parser (g.setting s b) st = (.ok, st') →
    ∃ last w, Relation.ReflTransGen (e.Round g s b) st last ∧
      e.parser (g.setting s b) last = (w, st') ∧
      st'.position = last.position ∧ st'.frames = st.frames ∧
      (w = .ok ∨ w = .mismatch ∧ st'.forest = last.forest ∧ st'.errors = last.errors)
  /-- After a loop that matched, another one matches where it begins. -/
  again : ∀ {st' : State Id}, (Expr.star e).parser (g.setting s b) st = (.ok, st') →
    ∃ st'', (Expr.star e).parser (g.setting s b) st' = (.ok, st'') ∧
      st''.position = st'.position
  /-- If it fails, it does so with a signal, and everything is as before the loop, but for what is
  never taken back: the log, and the furthest position, which may have grown. -/
  failure : ∀ {v : Verdict} {st' : State Id},
    (Expr.star e).parser (g.setting s b) st = (v, st') → v ≠ .ok →
    (∃ q, v = .leftRecursion q) ∧ st.furthest ≤ st'.furthest ∧
      st' = { st with furthest := st'.furthest, log := st'.log }

namespace Grammar

/-- A loop in a state that arises in a parse, over any expression. -/
theorem loops_are_maximal (g : Grammar α Id) (s : Source α) (start e : Expr α Id)
    (hg : g.isPlain = true) (hstart : start.isPlain = true) (he : e.isPlain = true) {b : Nat}
    {st : State Id} (hst : g.Context s start b st) : Expr.LoopsMaximally g s b e st := by
  have hproper := hst.proper hg hstart
  have hstar : (Expr.star e).isPlain = true := he
  obtain ⟨v, a, hrun, hconf, -⟩ := exists_done (t := .expr (.star e)) (invokes_lawful s)
    (invokes_realizedBy s) hg hstar hproper.stack hproper.boundary
  have heq := hproper.parser_eq hg hstar hrun
  obtain ⟨a', hloop, rfl⟩ : ∃ a', Runs s (g.Derives Invokes s (g.depth s st.frames) st.frames)
      (.loop e) st.position v a' ∧ a = a'.settle v st.position := by
    cases hrun with
    | reads hr => cases hr
    | misses hr => cases hr
    | star h => exact ⟨_, h, rfl⟩
  have hanswer : v = .ok ∨ ∃ q, v = .leftRecursion q := by
    cases v with
    | ok => exact Or.inl rfl
    | mismatch => exact absurd rfl (hloop.ne_mismatch rfl)
    | leftRecursion q => exact Or.inr ⟨q, rfl⟩
    | fault | exhausted => cases hconf.answer
  constructor
  case answer => exact ⟨v, _, heq, hanswer⟩
  case chain =>
    intro st' hok
    cases heq.symm.trans hok
    obtain ⟨last, w, c, hchain, hlast, hframes, hon, hstop, hagain, hw⟩ :=
      hproper.exists_last_round hg he hloop
    rw [← hframes] at hagain
    have hend := hlast.parser_eq hg he hagain
    refine ⟨last, w, hchain, ?_, ?_, rfl, ?_⟩
    · rw [Effect.settle_ok, hon, hend]
    · rw [Effect.settle_ok, hon]
      exact hstop
    · rcases hw with rfl | rfl
      · exact Or.inl rfl
      · have hsilent := (hagain.conforms (regular (invokes_lawful s) _ hlast.stack) (Nat.le_refl _)
          hlast.boundary).silent rfl rfl
        rw [Effect.settle_ok, hon, hsilent.on_eq]
        exact Or.inr ⟨rfl, rfl, rfl⟩
  case again =>
    intro st' hok
    cases heq.symm.trans hok
    obtain ⟨last, w, c, -, hlast, hframes, hon, hstop, hagain, hw⟩ :=
      hproper.exists_last_round hg he hloop
    have hafter := hproper.after hg hstar hok
    rw [Effect.settle_ok, hon] at hafter ⊢
    -- the second loop begins where the last run of the first one began
    rw [← hstop, ← hframes] at hagain
    exact hafter.star_stays hg he hagain rfl hw
  case failure =>
    intro w st' hfail hne
    cases heq.symm.trans hfail
    refine ⟨hanswer.resolve_left hne, ?_⟩
    have hfailure : v.isFailure = true := by
      obtain ⟨q, rfl⟩ := hanswer.resolve_left hne
      rfl
    rw [(hconf.silent rfl hfailure).on_eq]
    exact ⟨Nat.le_max_left _ _, rfl⟩

/-- A loop over a left-recursive rule or an empty match under a tag: the first round grows the rule
over the whole text, and the second one uses nothing up and is the last. -/
theorem loops_are_maximal_entangled :
    let e : Expr Char Nat := .choice [.rule 0, .tag (.sequence []) 6]
    let start : Expr Char Nat := .star e
    entangled.isPlain = true ∧ start.isPlain = true ∧ e.isPlain = true ∧
      ∃ (b : Nat) (st st₁ st₂ : State Nat), entangled.Context .entangled start b st ∧
        Expr.LoopsMaximally entangled .entangled b e st ∧ st.position = 0 ∧ st.forest = [] ∧
        (Expr.star e).parser (entangled.setting .entangled b) st = (.ok, st₁) ∧
        st₁.position = 4 ∧ st₁.forest = [⟨0, ⟨0, 4⟩, [⟨1, ⟨0, 3⟩, [⟨0, ⟨0, 2⟩, []⟩]⟩]⟩,
          ⟨6, ⟨4, 4⟩, []⟩] ∧
        (Expr.star e).parser (entangled.setting .entangled b) st₁ = (.ok, st₂) ∧
        st₂.position = 4 := by
  intro e start
  have he : e.isPlain = true := by decide
  let st : State Nat := State.initial.note (.started 2 4)
  let result (b : Nat) : Verdict × State Nat :=
    (Expr.star e).parser (entangled.setting .entangled b) st
  have hrun : (result (entangled.enough .entangled)).1 = .ok ∧
      (result (entangled.enough .entangled)).2.position = 4 ∧
      (result (entangled.enough .entangled)).2.forest =
        [⟨0, ⟨0, 4⟩, [⟨1, ⟨0, 3⟩, [⟨0, ⟨0, 2⟩, []⟩]⟩]⟩, ⟨6, ⟨4, 4⟩, []⟩] := by decide +kernel
  have hst : entangled.Context .entangled start (entangled.enough .entangled) st := .made .refl
  -- from here on the bound is some number, so that nothing is evaluated again
  generalize entangled.enough .entangled = b at hrun hst
  have hloops := loops_are_maximal entangled .entangled start e (by decide) he he hst
  obtain ⟨hok, hstop, hforest⟩ := hrun
  have heq : result b = (.ok, (result b).2) := by rw [← hok]
  obtain ⟨st₂, hagain, hstays⟩ := hloops.again heq
  exact ⟨by decide, he, he, b, st, (result b).2, st₂, hst, hloops, rfl, rfl, heq, hstop, hforest,
    hagain, hstays.trans hstop⟩

-- a loop over numbers ends at the first that is odd
example : ((Expr.star Expr.even).parser (empty.setting (.ofList [2, 4, 5, 6]) 5)
    (State.initial : State Nat)).2.position = 2 := by decide

end Grammar

end Peg
