import Peg.Proofs.Failure

/-!
# The mark of a call

Going back in a run takes back the cursor and the records, but not the furthest position. The *mark*
of a call is the furthest position when the call comes back (`Call.mark`). It does not depend on how
many rounds the loops of the call may take, as long as they are enough, and it is never below the
furthest position from which the call was made (`Call.Sound.le_mark`).

A call comes to its mark through the calls it makes. Most of the time it goes on until the last of
them and has the mark of that one; the equations `mark_…` say so for each kind of call. From these
it follows in `Calls.mark_le` that no call ends below the mark of a call that it made. This is not
obvious for `recover`, which starts the furthest position anew for the part that is tried and brings
the old one back afterwards, on two ways out.
-/

namespace Peg

variable {α Id : Type}

/-! ## Going back -/

namespace Parser

/-- Taking a failure back leaves the mark. -/
@[simp] theorem furthest_settle (c : Checkpoint) (r : Verdict × State Id) :
    (settle c r).2.furthest = r.2.furthest := by
  obtain ⟨v, st⟩ := r
  cases v <;> rfl

/-- Taking an answer back leaves the mark. -/
@[simp] theorem furthest_rewind (c : Checkpoint) (r : Verdict × State Id) :
    (rewind c r).2.furthest = r.2.furthest := by
  obtain ⟨v, st⟩ := r
  cases v <;> rfl

/-- An attempt raises the mark as far as its parser. -/
@[simp] theorem furthest_attempt (p : Parser Id) (st : State Id) :
    (attempt p st).2.furthest = (p st).2.furthest := furthest_settle _ _

/-- A lookahead raises the mark as far as its parser. -/
@[simp] theorem furthest_lookahead (p : Parser Id) (st : State Id) :
    (lookahead p st).2.furthest = (p st).2.furthest := furthest_rewind _ _

/-- Where a loop goes back to does not matter for how far it gets. -/
theorem furthest_rounds (p : Parser Id) (c c' : Checkpoint) (n : Nat) (st : State Id) :
    (rounds p c n st).2.furthest = (rounds p c' n st).2.furthest := by
  induction n generalizing st with
  | zero => rfl
  | succ n ih =>
    simp only [rounds]
    generalize p st = r
    obtain ⟨v, st'⟩ := r
    cases v with
    | ok =>
      by_cases hstay : st'.position = st.position
      · simp only [if_pos hstay]
      · simp only [if_neg hstay]
        exact ih st'
    | mismatch => rfl
    | leftRecursion | fault | exhausted => simp only [furthest_settle]

/-- Leaving a rule does not change the mark: it is that of the body, or that of the growth if the
body signalled the rule itself. -/
theorem furthest_enter (s : Source α) (b i : Nat) (name : String) (p : Parser Id) (st : State Id) :
    (enter s b i name p st).2.furthest =
      (match p (st.entered i name) with
      | (.leftRecursion cycle, st') =>
        if cycle = i then grow s b i name st.position p st' else (.leftRecursion cycle, st')
      | result => result).2.furthest := by
  -- what is done on leaving the rule does not touch the furthest position
  have hleave : ∀ r : Verdict × State Id, (if r.1.isAnswer then
      (r.2.popFrame i).note (.leave name st.position r.1) else r.2).furthest = r.2.furthest := by
    rintro ⟨v, st'⟩
    cases v <;> rfl
  exact hleave _

end Parser

/-! ## Marks -/

/-- The furthest position when a call comes back. Its loop may take one round for each element that
is left, and one more. -/
def Call.mark (g : Grammar α Id) (s : Source α) (c : Call α Id) : Nat :=
  (c.run g s (s.after c.state.position + 1)).2.furthest

section marks

variable {g : Grammar α Id} {s : Source α} {b i k : Nat} {e f : Expr α Id} {id : Id} {past : Bool}
  {start : Checkpoint} {st st' st'' : State Id} {v : Verdict} {c c' : Call α Id}
  {forest : List (Match Id)} {errors : List (SyntaxError Id)}

/-- A plain expression never lowers the mark. -/
theorem State.Proper.furthest_mono (h : st.Proper g s b) (hg : g.isPlain = true)
    (he : e.isPlain = true) (heq : e.parser (g.setting s b) st = (v, st')) :
    st.furthest ≤ st'.furthest := by
  obtain ⟨a, -, rfl⟩ := h.exists_effect hg he heq
  exact Nat.le_max_left _ _

/-- The cursor of a growing rule is not beyond the mark. -/
theorem State.Growing.le_furthest (h : st.Growing g s b i start k) :
    st.position ≤ st.furthest := by
  obtain ⟨st₀, m, fs, acc, -, -, hacc, -, rfl, -⟩ := h
  exact Nat.le_trans hacc.stop_le_reach (Nat.le_max_right _ _)

/-- What a growing rule accepted last is reached when the next round ends. -/
theorem State.Growing.le_furthest_round (h : st.Growing g s b i start k) (hg : g.isPlain = true)
    (he : e.isPlain = true) (hsince : st.since? start = some (forest, errors))
    (heq : e.parser (g.setting s b) (st.regrown i (g.name i) start k forest errors) = (v, st')) :
    st.furthest ≤ st'.furthest :=
  (h.regrown (g.name i) hsince).furthest_mono hg he heq

/-! ### The rounds of growth -/

/-- A rule that consumed the whole source raises the mark no further. -/
theorem State.Growing.furthest_full (h : st.Growing g s b i start k)
    (hfull : s.size ≤ st.position) (n : Nat) :
    ((Call.growth b i e start k st).run g s (n + 1)).2.furthest = st.furthest := by
  obtain ⟨forest, errors, hsince⟩ := h.exists_since
  simp only [Call.run, Parser.growRounds, hsince, if_pos hfull]
  exact Nat.max_eq_left h.le_furthest

/-- After a round that got further, growth goes on with the mark that it left. -/
theorem furthest_further (hsince : st.since? start = some (forest, errors))
    (hlt : st.position < s.size)
    (heq : e.parser (g.setting s b) (st.regrown i (g.name i) start k forest errors) = (.ok, st'))
    (hfurther : st.position < st'.position) (n : Nat) :
    ((Call.growth b i e start k st).run g s (n + 1)).2.furthest =
      ((Call.growth b i e start (k + 1) st').run g s n).2.furthest := by
  simp only [Call.run, Parser.growRounds_succ hsince hlt, heq, if_pos hfurther]

/-- The last round of growth leaves its own mark: what was accepted before is within it. -/
theorem State.Growing.furthest_last (h : st.Growing g s b i start k) (hg : g.isPlain = true)
    (he : e.isPlain = true) (hsince : st.since? start = some (forest, errors))
    (hlt : st.position < s.size)
    (heq : e.parser (g.setting s b) (st.regrown i (g.name i) start k forest errors) = (v, st'))
    (hlast : v = .ok → st'.position ≤ st.position) (n : Nat) :
    ((Call.growth b i e start k st).run g s (n + 1)).2.furthest = st'.furthest := by
  have hle : st.position ≤ st'.furthest :=
    Nat.le_trans h.le_furthest (h.le_furthest_round hg he hsince heq)
  simp only [Call.run, Parser.growRounds_succ hsince hlt, heq]
  cases v with
  | ok =>
    simp only [if_neg (Nat.not_lt.2 (hlast rfl))]
    exact Nat.max_eq_left hle
  | mismatch => exact Nat.max_eq_left hle
  | leftRecursion | fault | exhausted => rfl

/-- Growth ends with the same mark under every sufficient number of rounds. -/
theorem State.Growing.exists_mark (h : st.Growing g s b i start k) (hg : g.isPlain = true)
    (he : e.isPlain = true) :
    ∃ m, st.furthest ≤ m ∧ ∀ n, s.after st.position < n →
      ((Call.growth b i e start k st).run g s n).2.furthest = m := by
  induction hn : s.after st.position using Nat.strongRecOn generalizing st k with
  | ind n ih =>
    by_cases hfull : s.size ≤ st.position
    · refine ⟨st.furthest, Nat.le_refl _, ?_⟩
      rintro (_ | r) hr
      · omega
      · exact h.furthest_full hfull r
    · have hlt := Nat.lt_of_not_le hfull
      obtain ⟨forest, errors, hsince⟩ := h.exists_since
      obtain ⟨v, st', heq⟩ : ∃ v st', e.parser (g.setting s b)
          (st.regrown i (g.name i) start k forest errors) = (v, st') := ⟨_, _, rfl⟩
      have hle := h.le_furthest_round hg he hsince heq
      by_cases hmore : v = .ok ∧ st.position < st'.position
      · obtain ⟨rfl, hfurther⟩ := hmore
        have hnext := h.next hg he (g.name i) hsince heq hfurther
        have hfewer := h.boundary.after_lt hnext.boundary hfurther
        obtain ⟨m, hm, hrun⟩ := ih _ (hn ▸ hfewer) hnext rfl
        refine ⟨m, Nat.le_trans hle hm, ?_⟩
        rintro (_ | r) hr
        · omega
        · rw [furthest_further hsince hlt heq hfurther]
          exact hrun r (by omega)
      · have hlast : v = .ok → st'.position ≤ st.position := fun hv =>
          Nat.le_of_not_lt fun hfurther => hmore ⟨hv, hfurther⟩
        refine ⟨st'.furthest, hle, ?_⟩
        rintro (_ | r) hr
        · omega
        · exact h.furthest_last hg he hsince hlt heq hlast r

/-! ### Every call has a mark -/

/-- A sound call ends with the same mark under every sufficient number of rounds. -/
theorem Call.Sound.exists_mark (hc : c.Sound g s) (hg : g.isPlain = true) :
    ∃ m, c.state.furthest ≤ m ∧ ∀ n, s.after c.state.position < n →
      (c.run g s n).2.furthest = m := by
  cases c with
  | task b t st =>
    obtain ⟨ht, hproper⟩ := hc
    obtain ⟨v, a, -, hdone⟩ := hproper.run hg ht
    refine ⟨max st.furthest a.reach, Nat.le_max_left _ _, fun n hn => ?_⟩
    cases t with
    | expr e => exact congrArg (·.2.furthest) (hdone st hproper.at_self)
    | items es => exact congrArg (·.2.furthest) (hdone st hproper.at_self)
    | loop e =>
      have hrun := congrArg (·.2.furthest) (hdone n st.checkpoint st hn hproper.at_self)
      rwa [Parser.furthest_settle] at hrun
    | skip past e => exact congrArg (·.2.furthest) (hdone n hn st hproper.at_self)
  | growth b i e start k st => exact hc.2.exists_mark hg hc.1

/-- The mark does not depend on the number of rounds, as long as they are enough. -/
theorem Call.Sound.mark_eq (hc : c.Sound g s) (hg : g.isPlain = true) {n : Nat}
    (hn : s.after c.state.position < n) : (c.run g s n).2.furthest = c.mark g s := by
  obtain ⟨m, -, hrun⟩ := hc.exists_mark hg
  rw [Call.mark, hrun n hn, hrun _ (Nat.lt_succ_self _)]

/-- The furthest position never decreases. -/
theorem Call.Sound.le_mark (hc : c.Sound g s) (hg : g.isPlain = true) :
    c.state.furthest ≤ c.mark g s := by
  obtain ⟨m, hle, hrun⟩ := hc.exists_mark hg
  rwa [Call.mark, hrun _ (Nat.lt_succ_self _)]

/-- A call that goes on as another one, with fewer elements left, has its mark. -/
theorem Call.mark_of_run (hc' : c'.Sound g s) (hg : g.isPlain = true)
    (hfewer : s.after c'.state.position < s.after c.state.position)
    (h : ∀ n, (c.run g s (n + 1)).2.furthest = (c'.run g s n).2.furthest) :
    c.mark g s = c'.mark g s := by
  rw [Call.mark, h]
  exact hc'.mark_eq hg hfewer

/-- The mark of an expression is the furthest position of the state in which it answers. -/
theorem Call.mark_expr (heq : e.parser (g.setting s b) st = (v, st')) :
    (Call.task b (.expr e) st).mark g s = st'.furthest := congrArg (·.2.furthest) heq

/-! ### What a call goes on as -/

/-- An expression that begins with another one, and does not go on after it, has its mark. -/
theorem Expr.Begins.furthest_eq {env : Setting α Id} {e' : Expr α Id} (h : e.Begins e')
    (hplus : e ≠ .plus e') : (e.parser env st).2.furthest = (e'.parser env st).2.furthest := by
  cases h with
  | group => rfl
  | plus => exact absurd rfl hplus
  | optional =>
    rw [Expr.parser, Parser.optional, ← Parser.furthest_attempt]
    split
    · rename_i heq
      rw [heq]
    · rfl
  | ahead => exact Parser.furthest_lookahead _ _
  | notAhead =>
    rw [Expr.parser, Parser.notAhead, ← Parser.furthest_lookahead]
    split
    · rename_i heq
      rw [heq]
    · rename_i heq
      rw [heq]
    · rfl
  | tag =>
    rw [Expr.parser, Parser.tag, ← Parser.furthest_attempt]
    split
    · rename_i heq
      rw [heq]
      split <;> rfl
    · rfl

/-- After an item that matches, the mark is that of the rest. -/
theorem Call.mark_items_next {es : List (Expr α Id)}
    (heq : e.parser (g.setting s b) st = (.ok, st')) :
    (Call.task b (.items (e :: es)) st).mark g s = (Call.task b (.items es) st').mark g s := by
  simp only [Call.mark, Call.run, Expr.parsers, Parser.inOrder, heq]

/-- An item that does not match leaves the mark of the row. -/
theorem Call.mark_items_last {es : List (Expr α Id)}
    (heq : e.parser (g.setting s b) st = (v, st')) (hlast : v ≠ .ok) :
    (Call.task b (.items (e :: es)) st).mark g s = st'.furthest := by
  simp only [Call.mark, Call.run, Expr.parsers, Parser.inOrder, heq]
  cases v with
  | ok => exact absurd rfl hlast
  | mismatch | leftRecursion | fault | exhausted => rfl

/-- The mark of a sequence is that of its items. -/
theorem Call.mark_sequence (es : List (Expr α Id)) :
    (Call.task b (.expr (.sequence es)) st).mark g s = (Call.task b (.items es) st).mark g s :=
  Parser.furthest_attempt _ _

/-- Counted repetition is a sequence of copies. -/
theorem Expr.parser_times (env : Setting α Id) (e : Expr α Id) (n : Nat) :
    (Expr.times e n).parser env = (Expr.sequence (List.replicate n e)).parser env := by
  simp only [Expr.parser, Parser.times, Parser.sequence, Parser.iterate_eq_inOrder,
    Expr.parsers_eq_map, List.map_replicate]

/-- The mark of a number of copies is that of the copies in a row. -/
theorem Call.mark_times (n : Nat) :
    (Call.task b (.expr (.times e n)) st).mark g s =
      (Call.task b (.items (List.replicate n e)) st).mark g s := by
  rw [← Call.mark_sequence]
  simp only [Call.mark, Call.run, Expr.parser_times]

/-- The items behind those that matched go on from where these ended. -/
theorem Call.mark_items_append {before behind : List (Expr α Id)}
    (heq : (Expr.sequence before).parser (g.setting s b) st = (.ok, st')) :
    (Call.task b (.items (before ++ behind)) st).mark g s =
      (Call.task b (.items behind) st').mark g s := by
  have hbefore : Parser.inOrder (before.map (Expr.parser (g.setting s b))) st = (.ok, st') := by
    rw [← Expr.parsers_eq_map]
    exact Parser.of_attempt_ok heq
  simp only [Call.mark, Call.run, Expr.parsers_eq_map, List.map_append, Parser.inOrder_append,
    hbefore]

/-- A mismatch leaves the state as it was, as far as going back is concerned. -/
theorem State.Proper.checkpoint_mismatch (h : st.Proper g s b) (hg : g.isPlain = true)
    (he : e.isPlain = true) (heq : e.parser (g.setting s b) st = (.mismatch, st')) :
    st'.checkpoint = st.checkpoint := by
  obtain ⟨a, hconf, rfl⟩ := h.exists_effect hg he heq
  rw [(hconf.silent rfl rfl).on_eq]
  rfl

/-- After an alternative that does not match, the mark is that of the rest. -/
theorem Call.mark_choice_next {es : List (Expr α Id)} (hproper : st.Proper g s b)
    (hg : g.isPlain = true) (he : e.isPlain = true)
    (heq : e.parser (g.setting s b) st = (.mismatch, st')) :
    (Call.task b (.expr (.choice (e :: es))) st).mark g s =
      (Call.task b (.expr (.choice es)) st').mark g s := by
  have hcheckpoint := hproper.checkpoint_mismatch hg he heq
  simp only [Call.mark, Call.run, Expr.parser, Expr.parsers, Parser.choice, Parser.firstOf, heq]
  rw [← hcheckpoint, State.restore_checkpoint]

/-- An alternative that matches or signals leaves the mark of the choice. -/
theorem Call.mark_choice_last {es : List (Expr α Id)}
    (heq : e.parser (g.setting s b) st = (v, st')) (hlast : v ≠ .mismatch) :
    (Call.task b (.expr (.choice (e :: es))) st).mark g s = st'.furthest := by
  simp only [Call.mark, Call.run, Expr.parser, Expr.parsers, Parser.choice, Parser.firstOf, heq]
  cases v with
  | mismatch => exact absurd rfl hlast
  | ok | leftRecursion | fault | exhausted => exact Parser.furthest_settle _ _

/-- The alternatives behind those that did not match go on from there. -/
theorem Call.mark_choice_append {before behind : List (Expr α Id)} (hproper : st.Proper g s b)
    (hg : g.isPlain = true) (hbefore : Expr.allPlain before = true)
    (heq : (Expr.choice before).parser (g.setting s b) st = (.mismatch, st')) :
    (Call.task b (.expr (.choice (before ++ behind))) st).mark g s =
      (Call.task b (.expr (.choice behind)) st').mark g s := by
  have hcheckpoint := hproper.checkpoint_mismatch hg (e := .choice before) hbefore heq
  simp only [Expr.parser, Parser.choice, Expr.parsers_eq_map] at heq
  simp only [Call.mark, Call.run, Expr.parser, Parser.choice, Expr.parsers_eq_map, List.map_append,
    Parser.firstOf_append, heq]
  rw [hcheckpoint]

/-- The mark of a loop is that of its rounds. -/
theorem Call.mark_star (hc : (Call.task b (.expr (.star e)) st).Sound g s)
    (hg : g.isPlain = true) :
    (Call.task b (.expr (.star e)) st).mark g s = (Call.task b (.loop e) st).mark g s := by
  have hloop : (Call.task b (.loop e) st).Sound g s := hc
  exact hloop.mark_eq hg hc.2.after_lt_bound

/-- The mark of a scan that stops before its target is that of its steps. -/
theorem Call.mark_skipBefore (hc : (Call.task b (.expr (.skipBefore e)) st).Sound g s)
    (hg : g.isPlain = true) :
    (Call.task b (.expr (.skipBefore e)) st).mark g s =
      (Call.task b (.skip false e) st).mark g s := by
  have hskip : (Call.task b (.skip false e) st).Sound g s := hc
  exact hskip.mark_eq hg hc.2.after_lt_bound

/-- The mark of a scan that stops past its target is that of its steps. -/
theorem Call.mark_skipPast (hc : (Call.task b (.expr (.skipPast e)) st).Sound g s)
    (hg : g.isPlain = true) :
    (Call.task b (.expr (.skipPast e)) st).mark g s =
      (Call.task b (.skip true e) st).mark g s := by
  have hskip : (Call.task b (.skip true e) st).Sound g s := hc
  exact hskip.mark_eq hg hc.2.after_lt_bound

/-- After a first run that moved, the mark is that of the loop. -/
theorem Call.mark_plus_more (hc : (Call.task b (.expr (.plus e)) st).Sound g s)
    (hg : g.isPlain = true) (heq : e.parser (g.setting s b) st = (.ok, st'))
    (hmoved : st'.position ≠ st.position) :
    (Call.task b (.expr (.plus e)) st).mark g s = (Call.task b (.loop e) st').mark g s := by
  have hloop : (Call.task b (.loop e) st').Sound g s := (Calls.plus heq hmoved).sound hg hc
  rw [← hloop.mark_eq hg hloop.2.after_lt_bound]
  have hfirst : Parser.attempt (e.parser (g.setting s b)) st = (.ok, st') := by
    rw [Parser.attempt, heq]
    rfl
  simp only [Call.mark, Call.run, Expr.parser, Parser.plus, hfirst, if_neg hmoved,
    Parser.furthest_settle, Parser.furthest_attempt]
  rfl

/-- A first run that fails or does not move leaves the mark. -/
theorem Call.mark_plus_last (heq : e.parser (g.setting s b) st = (v, st'))
    (hlast : v = .ok → st'.position = st.position) :
    (Call.task b (.expr (.plus e)) st).mark g s = st'.furthest := by
  simp only [Call.mark, Call.run, Expr.parser, Parser.plus, Parser.attempt, heq]
  cases v with
  | ok => simp [Parser.settle, Verdict.isFailure, hlast rfl]
  | mismatch | leftRecursion | fault | exhausted => rfl

/-- After a round that moved, the mark is that of the next ones. -/
theorem Call.mark_loop_more (hc : (Call.task b (.loop e) st).Sound g s) (hg : g.isPlain = true)
    (heq : e.parser (g.setting s b) st = (.ok, st')) (hmoved : st'.position ≠ st.position) :
    (Call.task b (.loop e) st).mark g s = (Call.task b (.loop e) st').mark g s := by
  apply Call.mark_of_run ((Calls.nextRound heq hmoved).sound hg hc) hg
  · exact hc.2.after_lt hg hc.1 heq hmoved
  · intro n
    simp only [Call.run, Parser.rounds, heq, if_neg hmoved]
    exact Parser.furthest_rounds _ _ _ n st'

/-- A round that fails or does not move leaves the mark. -/
theorem Call.mark_loop_last (heq : e.parser (g.setting s b) st = (v, st'))
    (hlast : v = .ok → st'.position = st.position) :
    (Call.task b (.loop e) st).mark g s = st'.furthest := by
  simp only [Call.mark, Call.run, Parser.rounds, heq]
  cases v with
  | ok => simp only [if_pos (hlast rfl)]
  | mismatch | leftRecursion | fault | exhausted => rfl

/-- At the end of the source a scan raises nothing. -/
theorem Call.mark_skip_end (hend : st.atEnd s = true) :
    (Call.task b (.skip past e) st).mark g s = st.furthest := by
  simp only [Call.mark, Call.run, Parser.skip, hend, if_true]

/-- Where its target does not match, a scan has the mark of the scan from the next element. -/
theorem Call.mark_skip_next (hc : (Call.task b (.skip past e) st).Sound g s)
    (hg : g.isPlain = true) (hend : st.atEnd s = false)
    (heq : e.parser (g.setting s b) st = (.mismatch, st')) :
    (Call.task b (.skip past e) st).mark g s =
      (Call.task b (.skip past e) (st'.advance s 1)).mark g s := by
  apply Call.mark_of_run ((Calls.nextSkip hend heq).sound hg hc) hg
  · exact hc.2.after_advance_lt hg hc.1 heq hend
  · intro n
    simp only [Call.run, Parser.skip, hend, Bool.false_eq_true, if_false, heq]

/-- Where its target matches or signals, a scan has the mark of the target. -/
theorem Call.mark_skip_last (hend : st.atEnd s = false)
    (heq : e.parser (g.setting s b) st = (v, st')) (hlast : v ≠ .mismatch) :
    (Call.task b (.skip past e) st).mark g s = st'.furthest := by
  simp only [Call.mark, Call.run, Parser.skip, hend, Bool.false_eq_true, if_false, heq]
  cases v with
  | ok =>
    simp only
    split <;> rfl
  | mismatch => exact absurd rfl hlast
  | leftRecursion | fault | exhausted => rfl

/-- At the end of the source a recovery has the mark of its primary. -/
theorem Call.mark_recover_end (hend : st.atEnd s = true) :
    (Call.task b (.expr (.recover e id f)) st).mark g s =
      (Call.task b (.expr e) st).mark g s := by
  simp only [Call.mark, Call.run, Expr.parser, Parser.recover, Grammar.setting_source, hend,
    if_true]

/-- What was reached before is brought back if the part that is tried matches or signals. -/
theorem Call.mark_recover_pass (hend : st.atEnd s = false)
    (heq : e.parser (g.setting s b) st.resetFurthest = (v, st')) (hv : v.isAnswer = true)
    (hpass : v ≠ .mismatch) :
    (Call.task b (.expr (.recover e id f)) st).mark g s = max st'.furthest st.furthest := by
  simp only [Call.mark, Call.run, Expr.parser, Parser.recover, Grammar.setting_source, hend,
    Bool.false_eq_true, if_false, heq]
  cases v with
  | mismatch => exact absurd rfl hpass
  | ok | leftRecursion => rfl
  | fault | exhausted => cases hv

/-- It is brought back as well before the fallback begins, if the part does not match. -/
theorem Call.mark_recover_fallback (hend : st.atEnd s = false)
    (heq : e.parser (g.setting s b) st.resetFurthest = (.mismatch, st')) :
    (Call.task b (.expr (.recover e id f)) st).mark g s =
      (Call.task b (.expr f) ((st'.mergeFurthest st.furthest).restore st.checkpoint)).mark g s := by
  simp only [Call.mark, Call.run, Expr.parser, Parser.recover, Grammar.setting_source, hend,
    Bool.false_eq_true, if_false, heq]
  split
  · rename_i hok
    rw [hok]
    rfl
  · exact Parser.furthest_settle _ _

/-- A rule that consumed the whole source has the mark it came with. -/
theorem Call.mark_growth_full (hc : (Call.growth b i e start k st).Sound g s)
    (hfull : s.size ≤ st.position) : (Call.growth b i e start k st).mark g s = st.furthest :=
  hc.2.furthest_full hfull _

/-- After a round that got further, the mark is that of the next rounds. -/
theorem Call.mark_growth_further (hc : (Call.growth b i e start k st).Sound g s)
    (hg : g.isPlain = true) (hsince : st.since? start = some (forest, errors))
    (hlt : st.position < s.size)
    (heq : e.parser (g.setting s b) (st.regrown i (g.name i) start k forest errors) = (.ok, st'))
    (hfurther : st.position < st'.position) :
    (Call.growth b i e start k st).mark g s =
      (Call.growth b i e start (k + 1) st').mark g s := by
  have hc' := (Calls.nextGrowth hsince hlt heq hfurther).sound hg hc
  apply Call.mark_of_run hc' hg
  · exact hc.2.boundary.after_lt hc'.2.boundary hfurther
  · exact furthest_further hsince hlt heq hfurther

/-- A round that does not get further leaves the mark. -/
theorem Call.mark_growth_last (hc : (Call.growth b i e start k st).Sound g s)
    (hg : g.isPlain = true) (hsince : st.since? start = some (forest, errors))
    (hlt : st.position < s.size)
    (heq : e.parser (g.setting s b) (st.regrown i (g.name i) start k forest errors) = (v, st'))
    (hlast : v = .ok → st'.position ≤ st.position) :
    (Call.growth b i e start k st).mark g s = st'.furthest :=
  hc.2.furthest_last hg hc.1 hsince hlt heq hlast _

/-- A rule whose body does not signal it has the mark of the body. -/
theorem Call.mark_rule_once (hc : (Call.task (b + 1) (.expr (.rule i)) st).Sound g s)
    (hbody : g.body? i = some e) (hnone : Frame.answer? st.frames i st.position = none)
    (heq : e.parser (g.setting s b) (st.entered i (g.name i)) = (v, st'))
    (hother : v ≠ .leftRecursion i) :
    (Call.task (b + 1) (.expr (.rule i)) st).mark g s = st'.furthest := by
  simp only [Call.mark, Call.run, hc.2.parser_rule hbody hnone, Parser.furthest_enter, heq]
  cases v with
  | leftRecursion q =>
    have hq : q ≠ i := fun h => hother (h ▸ rfl)
    simp only [if_neg hq]
  | ok | mismatch | fault | exhausted => rfl

/-- A rule that finds no seed has the mark of seeding. -/
theorem Call.mark_rule_barren (hc : (Call.task (b + 1) (.expr (.rule i)) st).Sound g s)
    (hbody : g.body? i = some e) (hnone : Frame.answer? st.frames i st.position = none)
    (hfirst : e.parser (g.setting s b) (st.entered i (g.name i)) = (.leftRecursion i, st'))
    (hpos : st'.position = st.position)
    (hseed : e.parser (g.setting s b) (st'.setMode i .seeding) = (v, st'')) (hv : v ≠ .ok) :
    (Call.task (b + 1) (.expr (.rule i)) st).mark g s = st''.furthest := by
  simp only [Call.mark, Call.run, hc.2.parser_rule hbody hnone, Parser.furthest_enter, hfirst,
    if_true, Parser.grow, hpos, ne_eq, not_true_eq_false, if_false, hseed]
  cases v with
  | ok => exact absurd rfl hv
  | mismatch | leftRecursion | fault | exhausted => rfl

/-- A rule that finds a seed has the mark of its growth. -/
theorem Call.mark_rule_grown (hc : (Call.task (b + 1) (.expr (.rule i)) st).Sound g s)
    (hg : g.isPlain = true) (hbody : g.body? i = some e)
    (hnone : Frame.answer? st.frames i st.position = none)
    (hfirst : e.parser (g.setting s b) (st.entered i (g.name i)) = (.leftRecursion i, st'))
    (hpos : st'.position = st.position)
    (hseed : e.parser (g.setting s b) (st'.setMode i .seeding) = (.ok, st'')) :
    (Call.task (b + 1) (.expr (.rule i)) st).mark g s =
      (Call.growth b i e st'.checkpoint 0 st'').mark g s := by
  have hgrowth := (Calls.grow hbody hnone hfirst hpos hseed).sound hg hc
  have hseeding := (hc.2.seeding hg hbody hnone hfirst).1
  have hbound := (hseeding.after hg (Grammar.isPlain_body hg hbody) hseed).after_lt_bound
  rw [← hgrowth.mark_eq hg hbound]
  simp only [Call.mark, Call.run, hc.2.parser_rule hbody hnone, Parser.furthest_enter, hfirst,
    if_true, Parser.grow, hpos, ne_eq, not_true_eq_false, if_false, hseed]
  split
  · rename_i hok
    rw [hok]
    rfl
  · rfl

/-! ## No call ends below a call that it made -/

/-- A row raises the mark at least as far as its first item. -/
theorem Call.mark_item_le {es : List (Expr α Id)}
    (hc : (Call.task b (.items (e :: es)) st).Sound g s) (hg : g.isPlain = true) :
    (Call.task b (.expr e) st).mark g s ≤ (Call.task b (.items (e :: es)) st).mark g s := by
  obtain ⟨hplain, hproper⟩ := hc
  obtain ⟨he, hes⟩ := Bool.and_eq_true_iff.1 hplain
  cases heq : e.parser (g.setting s b) st with
  | mk v st' =>
  rw [Call.mark_expr heq]
  by_cases hv : v = .ok
  · subst hv
    have hrest : (Call.task b (.items es) st').Sound g s := ⟨hes, hproper.after hg he heq⟩
    rw [Call.mark_items_next heq]
    exact hrest.le_mark hg
  · rw [Call.mark_items_last heq hv]

/-- A choice raises the mark at least as far as its first alternative. -/
theorem Call.mark_alternative_le {es : List (Expr α Id)}
    (hc : (Call.task b (.expr (.choice (e :: es))) st).Sound g s) (hg : g.isPlain = true) :
    (Call.task b (.expr e) st).mark g s ≤
      (Call.task b (.expr (.choice (e :: es))) st).mark g s := by
  obtain ⟨hplain, hproper⟩ := hc
  obtain ⟨he, hes⟩ := Bool.and_eq_true_iff.1 hplain
  cases heq : e.parser (g.setting s b) st with
  | mk v st' =>
  rw [Call.mark_expr heq]
  by_cases hv : v = .mismatch
  · subst hv
    have hrest : (Call.task b (.expr (.choice es)) st').Sound g s :=
      ⟨hes, hproper.after hg he heq⟩
    rw [Call.mark_choice_next hproper hg he heq]
    exact hrest.le_mark hg
  · rw [Call.mark_choice_last heq hv]

/-- A rule raises the mark at least as far as seeding does. -/
theorem Call.mark_seed_le (hc : (Call.task (b + 1) (.expr (.rule i)) st).Sound g s)
    (hg : g.isPlain = true) (hbody : g.body? i = some e)
    (hnone : Frame.answer? st.frames i st.position = none)
    (heq : e.parser (g.setting s b) (st.entered i (g.name i)) = (.leftRecursion i, st'))
    (hpos : st'.position = st.position) :
    (Call.task b (.expr e) (st'.setMode i .seeding)).mark g s ≤
      (Call.task (b + 1) (.expr (.rule i)) st).mark g s := by
  cases hseed : e.parser (g.setting s b) (st'.setMode i .seeding) with
  | mk v st'' =>
  rw [Call.mark_expr hseed]
  by_cases hv : v = .ok
  · subst hv
    rw [Call.mark_rule_grown hc hg hbody hnone heq hpos hseed]
    exact ((Calls.grow hbody hnone heq hpos hseed).sound hg hc).le_mark hg
  · rw [Call.mark_rule_barren hc hbody hnone heq hpos hseed hv]

/-- The end of a plain list is plain. -/
theorem Expr.allPlain_behind {before behind : List (Expr α Id)}
    (h : Expr.allPlain (before ++ behind) = true) : Expr.allPlain behind = true :=
  (Expr.allPlain_iff behind).2 fun x hx =>
    (Expr.allPlain_iff _).1 h x (List.mem_append_right before hx)

/-- A call ends no lower than any call that it made. -/
theorem Calls.mark_le (hg : g.isPlain = true) (h : Calls g s c c') (hc : c.Sound g s) :
    c'.mark g s ≤ c.mark g s := by
  have hc' := h.sound hg hc
  cases h with
  | @begins b e e' st hbegins =>
    by_cases hplus : e = .plus e'
    · subst hplus
      cases heq : e'.parser (g.setting s b) st with
      | mk v st' =>
      rw [Call.mark_expr heq]
      by_cases hmore : v = .ok ∧ st'.position ≠ st.position
      · obtain ⟨rfl, hmoved⟩ := hmore
        rw [Call.mark_plus_more hc hg heq hmoved]
        exact ((Calls.plus heq hmoved).sound hg hc).le_mark hg
      · rw [Call.mark_plus_last heq fun hv => by_contra fun hmoved => hmore ⟨hv, hmoved⟩]
    · exact Nat.le_of_eq (hbegins.furthest_eq hplus).symm
  | @item b before behind e st st' heq =>
    have hrest : Expr.allPlain (e :: behind) = true := Expr.allPlain_behind hc.1
    rw [Call.mark_sequence, Call.mark_items_append heq]
    exact Call.mark_item_le ⟨hrest, hc'.2⟩ hg
  | @alternative b before behind e st st' heq =>
    have hrest : Expr.allPlain (e :: behind) = true := Expr.allPlain_behind hc.1
    rw [Call.mark_choice_append hc.2 hg (Expr.allPlain_split hc.1).1 heq]
    exact Call.mark_alternative_le ⟨hrest, hc'.2⟩ hg
  | @copy b k n e st st' hk heq =>
    obtain ⟨m, rfl⟩ : ∃ m, n = k + (m + 1) := ⟨n - k - 1, by omega⟩
    rw [Expr.parser_times] at heq
    rw [Call.mark_times, ← List.replicate_append_replicate, Call.mark_items_append heq,
      List.replicate_succ]
    refine Call.mark_item_le ⟨?_, hc'.2⟩ hg
    exact (Expr.allPlain_iff _).2 fun x hx => by
      rw [← List.replicate_succ] at hx
      rw [List.eq_of_mem_replicate hx]
      exact hc'.1
  | star => exact Nat.le_of_eq (Call.mark_star hc hg).symm
  | plus heq hmoved => exact Nat.le_of_eq (Call.mark_plus_more hc hg heq hmoved).symm
  | @round b e st =>
    cases heq : e.parser (g.setting s b) st with
    | mk v st' =>
    rw [Call.mark_expr heq]
    by_cases hmore : v = .ok ∧ st'.position ≠ st.position
    · obtain ⟨rfl, hmoved⟩ := hmore
      rw [Call.mark_loop_more hc hg heq hmoved]
      exact ((Calls.nextRound heq hmoved).sound hg hc).le_mark hg
    · rw [Call.mark_loop_last heq fun hv => by_contra fun hmoved => hmore ⟨hv, hmoved⟩]
  | nextRound heq hmoved => exact Nat.le_of_eq (Call.mark_loop_more hc hg heq hmoved).symm
  | recoverAtEnd hend => exact Nat.le_of_eq (Call.mark_recover_end hend).symm
  | @recover b e f id st hend =>
    cases heq : e.parser (g.setting s b) st.resetFurthest with
    | mk v st' =>
    rw [Call.mark_expr heq]
    by_cases hv : v = .mismatch
    · subst hv
      have hfallback := ((Calls.fallback (f := f) hend heq).sound hg hc).le_mark hg
      rw [Call.mark_recover_fallback hend heq]
      exact Nat.le_trans (Nat.le_max_left _ _) hfallback
    · obtain ⟨a, hconf, -⟩ := hc'.2.exists_effect hg hc'.1 heq
      rw [Call.mark_recover_pass hend heq hconf.answer hv]
      exact Nat.le_max_left _ _
  | fallback hend heq => exact Nat.le_of_eq (Call.mark_recover_fallback hend heq).symm
  | skipBefore => exact Nat.le_of_eq (Call.mark_skipBefore hc hg).symm
  | skipPast => exact Nat.le_of_eq (Call.mark_skipPast hc hg).symm
  | @token b past e st hend =>
    cases heq : e.parser (g.setting s b) st with
    | mk v st' =>
    rw [Call.mark_expr heq]
    by_cases hv : v = .mismatch
    · subst hv
      have hnext : Calls g s (.task b (.skip past e) st) (.task b (.skip past e) _) :=
        .nextSkip hend heq
      rw [Call.mark_skip_next hc hg hend heq]
      exact Nat.le_trans (Nat.le_max_left _ _) ((hnext.sound hg hc).le_mark hg)
    · rw [Call.mark_skip_last hend heq hv]
  | nextSkip hend heq => exact Nat.le_of_eq (Call.mark_skip_next hc hg hend heq).symm
  | @body b i e st hbody hnone =>
    cases heq : e.parser (g.setting s b) (st.entered i (g.name i)) with
    | mk v st' =>
    rw [Call.mark_expr heq]
    by_cases hv : v = .leftRecursion i
    · subst hv
      have hpos := (hc.2.seeding hg hbody hnone heq).2.position_eq
      have hseed := ((Calls.seed hbody hnone heq hpos).sound hg hc).le_mark hg
      exact Nat.le_trans hseed (Call.mark_seed_le hc hg hbody hnone heq hpos)
    · rw [Call.mark_rule_once hc hbody hnone heq hv]
  | seed hbody hnone heq hpos => exact Call.mark_seed_le hc hg hbody hnone heq hpos
  | grow hbody hnone heq hpos hseed =>
    exact Nat.le_of_eq (Call.mark_rule_grown hc hg hbody hnone heq hpos hseed).symm
  | @regrow b i k e start st forest errors hsince hlt =>
    cases heq : e.parser (g.setting s b) (st.regrown i (g.name i) start k forest errors) with
    | mk v st' =>
    rw [Call.mark_expr heq]
    by_cases hmore : v = .ok ∧ st.position < st'.position
    · obtain ⟨rfl, hfurther⟩ := hmore
      rw [Call.mark_growth_further hc hg hsince hlt heq hfurther]
      exact ((Calls.nextGrowth hsince hlt heq hfurther).sound hg hc).le_mark hg
    · have hlast : v = .ok → st'.position ≤ st.position := fun hv =>
        Nat.le_of_not_lt fun hfurther => hmore ⟨hv, hfurther⟩
      rw [Call.mark_growth_last hc hg hsince hlt heq hlast]
  | nextGrowth hsince hlt heq hfurther =>
    exact Nat.le_of_eq (Call.mark_growth_further hc hg hsince hlt heq hfurther).symm

end marks

end Peg
