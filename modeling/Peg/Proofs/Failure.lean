import Peg.Proofs.Termination

/-!
# What a failure leaves behind, and where a signal goes

A parser fails by not matching or by signalling left recursion. In both cases the state is the one
in which it was called, except for the furthest position and the log: `Grammar.failure_atomic`. This
holds although going back cuts lists to remembered lengths, and although skipping and growth have
ways out that do not go back at all.

A signal names a rule. Where a call comes back with the signal of a rule, the innermost frame of
that rule is fresh and was made at the very position of the call. The call that made this call comes
back with the same signal, unless it is the invocation that pushed the frame
(`Calls.signal_passed`); that invocation never does. So a signal is neither lost nor delivered to
another invocation of the same rule, and none leaves a parse: `Grammar.signals_contained`.
-/

namespace Peg

variable {α Id : Type}

/-! ## Failures -/

namespace Grammar

/-- A parser that fails, in any state that arises in a parse, leaves the cursor, the records and the
frames with their modes as they were; only the furthest position may be greater. -/
theorem failure_atomic (g : Grammar α Id) (s : Source α) (start e : Expr α Id)
    (hg : g.isPlain = true) (hstart : start.isPlain = true) (he : e.isPlain = true) {b : Nat}
    {st st' : State Id} {v : Verdict} (hst : g.Context s start b st)
    (heq : e.parser (g.setting s b) st = (v, st')) (hv : v.isFailure = true) :
    st'.position = st.position ∧ st'.forest = st.forest ∧ st'.errors = st.errors ∧
      st'.frames = st.frames ∧ st.furthest ≤ st'.furthest := by
  obtain ⟨a, hconf, rfl⟩ := (hst.proper hg hstart).exists_effect hg he heq
  rw [(hconf.silent rfl hv).on_eq]
  exact ⟨rfl, rfl, rfl, rfl, Nat.le_max_left _ _⟩

/-- Behind a character with a match around it, a sequence matches two more characters, around which
it records a match and an error, and fails at the third one. All that is left of it is the furthest
position. -/
theorem failure_atomic_entangled :
    let parts : List (Expr Char Nat) :=
      [.tag (.element 'x') 5, .recover (.element 'q') 6 (.element 'z')]
    let failing : Expr Char Nat := .sequence (parts ++ [.capital])
    let start : Expr Char Nat := .sequence [.tag (.element 'y') 4, failing]
    ∃ (b : Nat) (st mid st' : State Nat), entangled.Context .entangled start b st ∧
      st.position = 1 ∧ st.forest = [⟨4, ⟨0, 1⟩, []⟩] ∧ st.errors = [] ∧
      (Expr.sequence parts).parser (entangled.setting .entangled b) st = (.ok, mid) ∧
      mid.position = 3 ∧ mid.forest = [⟨4, ⟨0, 1⟩, []⟩, ⟨5, ⟨1, 2⟩, []⟩] ∧
      mid.errors = [.record 6 2 ⟨2, 3⟩] ∧
      failing.parser (entangled.setting .entangled b) st = (.mismatch, st') ∧
      st'.furthest = 3 ∧ st'.position = st.position ∧ st'.forest = st.forest ∧
      st'.errors = st.errors ∧ st'.frames = st.frames ∧ st.furthest ≤ st'.furthest := by
  intro parts failing start
  let env (b : Nat) := entangled.setting .entangled b
  let before (b : Nat) := (Expr.sequence [.tag (.element 'y') 4]).parser (env b)
    (State.initial.note (.started 2 4))
  let matched (b : Nat) := (Expr.sequence parts).parser (env b) (before b).2
  let result (b : Nat) := failing.parser (env b) (before b).2
  let b := entangled.enough .entangled
  have hbefore : (before b).1 = .ok ∧ (before b).2.position = 1 ∧
      (before b).2.forest = [⟨4, ⟨0, 1⟩, []⟩] ∧ (before b).2.errors = [] := by decide +kernel
  have hmatched : (matched b).1 = .ok ∧ (matched b).2.position = 3 ∧
      (matched b).2.forest = [⟨4, ⟨0, 1⟩, []⟩, ⟨5, ⟨1, 2⟩, []⟩] ∧
      (matched b).2.errors = [.record 6 2 ⟨2, 3⟩] := by decide +kernel
  have hresult : (result b).1 = .mismatch ∧ (result b).2.furthest = 3 := by decide +kernel
  have hfirst : before b = (.ok, (before b).2) := by rw [← hbefore.1]
  have hst : entangled.Context .entangled start b (before b).2 :=
    .made (.single (@Calls.item Char Nat _ _ b [.tag (.element 'y') 4] [] failing _ _ hfirst))
  have hok : matched b = (.ok, (matched b).2) := by rw [← hmatched.1]
  have heq : result b = (.mismatch, (result b).2) := by rw [← hresult.1]
  exact ⟨b, _, _, _, hst, hbefore.2.1, hbefore.2.2.1, hbefore.2.2.2, hok, hmatched.2.1,
    hmatched.2.2.1, hmatched.2.2.2, heq, hresult.2, failure_atomic entangled .entangled start failing
      (by decide) (by decide) (by decide) hst heq rfl⟩

end Grammar

/-! ## Signals through combinators -/

namespace Parser

variable {p : Parser Id} {st st' : State Id} {q : Nat}

/-- A row of two parts runs the second where the first ended. -/
theorem inOrder_append (ps qs : List (Parser Id)) (st : State Id) :
    inOrder (ps ++ qs) st =
      match inOrder ps st with
      | (.ok, st') => inOrder qs st'
      | result => result := by
  induction ps generalizing st with
  | nil => rfl
  | cons p ps ih =>
    simp only [List.cons_append, inOrder]
    generalize p st = r
    obtain ⟨v, st'⟩ := r
    cases v with
    | ok => exact ih st'
    | mismatch | leftRecursion | fault | exhausted => rfl

/-- An attempt that matches is its parser matching. -/
theorem of_attempt_ok (h : attempt p st = (.ok, st')) : p st = (.ok, st') := by
  unfold attempt at h
  generalize p st = r at h
  obtain ⟨v, st''⟩ := r
  cases v with
  | ok => exact h
  | mismatch | leftRecursion | fault | exhausted => cases h

/-- A signal from one of several parsers in order is the signal of all. -/
theorem inOrder_signal {ps qs : List (Parser Id)} {st'' : State Id}
    (hps : inOrder ps st = (.ok, st')) (hp : p st' = (.leftRecursion q, st'')) :
    (attempt (inOrder (ps ++ p :: qs)) st).1 = .leftRecursion q := by
  simp only [attempt, inOrder_append, hps, inOrder, hp, settle]

/-- A choice of two parts tries the second after the first. -/
theorem firstOf_append (c : Checkpoint) (ps qs : List (Parser Id)) (st : State Id) :
    firstOf c (ps ++ qs) st =
      match firstOf c ps st with
      | (.mismatch, st') => firstOf c qs st'
      | result => result := by
  induction ps generalizing st with
  | nil => rfl
  | cons p ps ih =>
    simp only [List.cons_append, firstOf]
    generalize p st = r
    obtain ⟨v, st'⟩ := r
    cases v with
    | mismatch => exact ih (st'.restore c)
    | ok | leftRecursion | fault | exhausted => rfl

/-- Where a loop goes back to does not matter for how it comes out. -/
theorem rounds_fst (p : Parser Id) (c c' : Checkpoint) (n : Nat) (st : State Id) :
    (rounds p c n st).1 = (rounds p c' n st).1 := by
  induction n generalizing st with
  | zero => rfl
  | succ n ih =>
    simp only [rounds]
    generalize p st = r
    obtain ⟨v, st'⟩ := r
    cases v with
    | ok =>
      by_cases hstay : st'.position = st.position
      · simp only [if_pos hstay]
      · simp only [if_neg hstay]
        exact ih st'
    | mismatch | leftRecursion | fault | exhausted => rfl

/-- A rule that is entered comes out as its body does, or as its growth if the body signals it. -/
theorem enter_fst (s : Source α) (b i : Nat) (name : String) (p : Parser Id) (st : State Id) :
    (enter s b i name p st).1 =
      (match p (st.entered i name) with
      | (.leftRecursion cycle, st') =>
        if cycle = i then grow s b i name st.position p st' else (.leftRecursion cycle, st')
      | result => result).1 := by
  unfold enter State.entered
  generalize p ((st.pushFrame i).note (.enter name st.position)) = r
  obtain ⟨v, st'⟩ := r
  cases v <;> rfl

end Parser

/-- A signal from what an expression begins with is a signal from the expression. -/
theorem Expr.Begins.signal {env : Setting α Id} {e e' : Expr α Id} {st st' : State Id} {q : Nat}
    (h : e.Begins e') (heq : e'.parser env st = (.leftRecursion q, st')) :
    (e.parser env st).1 = .leftRecursion q := by
  cases h with
  | group => rw [Expr.parser, heq]
  | plus => simp only [Expr.parser, Parser.plus, Parser.attempt, heq, Parser.settle]
  | optional => simp only [Expr.parser, Parser.optional, Parser.attempt, heq, Parser.settle]
  | ahead => simp only [Expr.parser, Parser.lookahead, heq, Parser.rewind]
  | notAhead => simp only [Expr.parser, Parser.notAhead, Parser.lookahead, heq, Parser.rewind]
  | tag => simp only [Expr.parser, Parser.tag, Parser.attempt, heq, Parser.settle]

/-! ## Signals through calls -/

/-- The invocation of a rule, and the run of its body for which it pushed a fresh frame. -/
inductive Call.Owns (g : Grammar α Id) (q : Nat) : Call α Id → Call α Id → Prop
  | body {b : Nat} {e : Expr α Id} {st : State Id} : g.body? q = some e →
      Owns g q (.task (b + 1) (.expr (.rule q)) st) (.task b (.expr e) (st.entered q (g.name q)))

section signals

variable {g : Grammar α Id} {s : Source α} {b i q : Nat} {e : Expr α Id} {st : State Id}

/-- A verdict that a call of an expression returns is that of its parser. -/
theorem Call.Returns.parser {v : Verdict} (h : (Call.task b (.expr e) st).Returns g s v) :
    ∃ st', e.parser (g.setting s b) st = (v, st') :=
  ⟨_, Prod.ext (h _ (Nat.lt_succ_self _)) rfl⟩

/-- The bound of a proper state is above the number of elements that are left. -/
theorem State.Proper.after_lt_bound (h : st.Proper g s b) : s.after st.position < b := by
  have hroom := Grammar.depth_add_size_lt h.stack h.boundary.le_size h.room
  have hafter := h.boundary.after_add_le_size
  omega

/-- A rule that is not being parsed at the cursor is entered. -/
theorem State.Proper.parser_rule (h : st.Proper g s (b + 1)) (hbody : g.body? i = some e)
    (hnone : Frame.answer? st.frames i st.position = none) :
    (Expr.rule i).parser (g.setting s (b + 1)) st =
      Parser.enter s b i (g.name i) (e.parser (g.setting s b)) st := by
  have hcall : (Expr.rule i).parser (g.setting s (b + 1)) =
      Parser.invoke s b i (g.name i) (e.parser (g.setting s b)) := by
    show g.call s (b + 1) i = _
    simp only [Grammar.call, hbody]
    rfl
  rw [hcall, Parser.invoke_eq h.at_self, hnone]

/-- The setting of a parse reads the source of the parse. -/
theorem Grammar.setting_source (g : Grammar α Id) (s : Source α) (b : Nat) :
    (g.setting s b).source = s := rfl

/-- The call that makes a call passes its signal on, unless it owns the frame that is asked for. -/
theorem Calls.signal_passed {c c' : Call α Id} (hg : g.isPlain = true) (h : Calls g s c c')
    (hc : c.Sound g s) (hsignal : c'.Returns g s (.leftRecursion q)) :
    c.Returns g s (.leftRecursion q) ∨ c.Owns g q c' := by
  have hc' := h.sound hg hc
  cases h with
  | begins hbegins =>
    obtain ⟨st', heq⟩ := hsignal.parser
    exact Or.inl fun n _ => hbegins.signal heq
  | item hbefore =>
    obtain ⟨st', heq⟩ := hsignal.parser
    refine Or.inl fun n _ => ?_
    simp only [Expr.parser, Parser.sequence, Expr.parsers_eq_map] at hbefore
    simp only [Call.run, Expr.parser, Parser.sequence, Expr.parsers_eq_map, List.map_append,
      List.map_cons]
    exact Parser.inOrder_signal (Parser.of_attempt_ok hbefore) heq
  | alternative hbefore =>
    obtain ⟨st', heq⟩ := hsignal.parser
    refine Or.inl fun n _ => ?_
    simp only [Expr.parser, Parser.choice, Expr.parsers_eq_map] at hbefore
    simp only [Call.run, Expr.parser, Parser.choice, Expr.parsers_eq_map, List.map_append,
      List.map_cons, Parser.firstOf_append, hbefore, Parser.firstOf, heq, Parser.settle]
  | @copy b k n e st st₁ hk hbefore =>
    obtain ⟨st', heq⟩ := hsignal.parser
    refine Or.inl fun _ _ => ?_
    obtain ⟨m, rfl⟩ : ∃ m, n = k + (m + 1) := ⟨n - k - 1, by omega⟩
    simp only [Expr.parser, Parser.times, Parser.iterate_eq_inOrder] at hbefore
    simp only [Call.run, Expr.parser, Parser.times, Parser.iterate_eq_inOrder,
      ← List.replicate_append_replicate (n := k), List.replicate_succ]
    exact Parser.inOrder_signal (Parser.of_attempt_ok hbefore) heq
  | star =>
    left
    intro n _
    exact hsignal _ hc.2.after_lt_bound
  | @plus b e st st' heq hmoved =>
    refine Or.inl fun n _ => ?_
    have hstar := hsignal b hc'.2.after_lt_bound
    simp only [Call.run, Expr.parser, Parser.plus, Parser.attempt, heq, Parser.settle,
      Verdict.isFailure, Bool.false_eq_true, if_false, if_neg hmoved]
    exact hstar
  | round =>
    obtain ⟨st', heq⟩ := hsignal.parser
    left
    rintro (_ | n) hn
    · omega
    · simp only [Call.run, Parser.rounds, heq, Parser.settle]
  | @nextRound b e st st' heq hmoved =>
    left
    rintro (_ | n) hn
    · omega
    · have hfewer := hc.2.after_lt hg hc.1 heq hmoved
      have hnext := hsignal n (Nat.lt_of_lt_of_le hfewer (Nat.le_of_lt_succ hn))
      simp only [Call.run, Parser.rounds, heq, if_neg hmoved]
      rw [Parser.rounds_fst _ _ st'.checkpoint]
      exact hnext
  | recoverAtEnd hend =>
    obtain ⟨st', heq⟩ := hsignal.parser
    refine Or.inl fun n _ => ?_
    simp only [Call.run, Expr.parser, Parser.recover, Grammar.setting_source, hend, if_true, heq]
  | recover hend =>
    obtain ⟨st', heq⟩ := hsignal.parser
    refine Or.inl fun n _ => ?_
    simp only [Call.run, Expr.parser, Parser.recover, Grammar.setting_source, hend,
      Bool.false_eq_true, if_false, heq]
  | fallback hend hmismatch =>
    obtain ⟨st', heq⟩ := hsignal.parser
    refine Or.inl fun n _ => ?_
    simp only [Call.run, Expr.parser, Parser.recover, Grammar.setting_source, hend,
      Bool.false_eq_true, if_false, hmismatch, heq, Parser.settle]
  | skipBefore =>
    left
    intro n _
    exact hsignal _ hc.2.after_lt_bound
  | skipPast =>
    left
    intro n _
    exact hsignal _ hc.2.after_lt_bound
  | token hend =>
    obtain ⟨st', heq⟩ := hsignal.parser
    left
    rintro (_ | n) hn
    · omega
    · simp only [Call.run, Parser.skip, hend, Bool.false_eq_true, if_false, heq]
  | @nextSkip b past e st st' hend heq =>
    left
    rintro (_ | n) hn
    · omega
    · have hfewer := hc.2.after_advance_lt hg hc.1 heq hend
      have hnext := hsignal n (Nat.lt_of_lt_of_le hfewer (Nat.le_of_lt_succ hn))
      simp only [Call.run, Parser.skip, hend, Bool.false_eq_true, if_false, heq]
      exact hnext
  | @body b i e st hbody hnone =>
    obtain ⟨st', heq⟩ := hsignal.parser
    by_cases hq : q = i
    · subst hq
      exact Or.inr (.body hbody)
    · refine Or.inl fun n _ => ?_
      simp only [Call.run, hc.2.parser_rule hbody hnone, Parser.enter_fst, heq, if_neg hq]
  | @seed b i e st st' hbody hnone hfirst hpos =>
    obtain ⟨st'', heq⟩ := hsignal.parser
    refine Or.inl fun n _ => ?_
    simp only [Call.run, hc.2.parser_rule hbody hnone, Parser.enter_fst, hfirst, if_true,
      Parser.grow, hpos, ne_eq, not_true_eq_false, if_false, heq]
  | @grow b i e st st' st'' hbody hnone hfirst hpos hseed =>
    have hproper := (hc.2.seeding hg hbody hnone hfirst).1
    have hseeded := hproper.after hg (Grammar.isPlain_body hg hbody) hseed
    have hgrowth := hsignal b hseeded.after_lt_bound
    simp only [Call.run] at hgrowth
    obtain ⟨st₃, heq⟩ : ∃ st₃, Parser.growRounds s i (g.name i) (e.parser (g.setting s b))
        st'.checkpoint b 0 st'' = (.leftRecursion q, st₃) := ⟨_, Prod.ext hgrowth rfl⟩
    refine Or.inl fun n _ => ?_
    simp only [Call.run, hc.2.parser_rule hbody hnone, Parser.enter_fst, hfirst, if_true,
      Parser.grow, hpos, ne_eq, not_true_eq_false, if_false, hseed, heq]
  | @regrow b i k e start st forest errors hsince hlt =>
    obtain ⟨st', heq⟩ := hsignal.parser
    left
    rintro (_ | n) hn
    · omega
    · simp only [Call.run, Parser.growRounds_succ hsince hlt, heq, Parser.settle]
  | @nextGrowth b i k e start st st' forest errors hsince hlt heq hfurther =>
    left
    rintro (_ | n) hn
    · omega
    · have hfewer := hc.2.boundary.after_lt hc'.2.boundary hfurther
      have hnext := hsignal n (Nat.lt_of_lt_of_le hfewer (Nat.le_of_lt_succ hn))
      simp only [Call.run, Parser.growRounds_succ hsince hlt, heq, if_pos hfurther]
      exact hnext

/-- Only a rule that is not being parsed at the cursor makes calls. -/
theorem Calls.answer?_eq_none {c : Call α Id}
    (h : Calls g s (.task b (.expr (.rule q)) st) c) :
    Frame.answer? st.frames q st.position = none := by
  cases h with
  | begins hbegins => cases hbegins
  | body _ hnone => exact hnone
  | seed _ hnone _ _ => exact hnone
  | grow _ hnone _ _ _ => exact hnone

end signals

/-! ## Containment -/

namespace Grammar

variable {g : Grammar α Id} {s : Source α} {start e : Expr α Id} {b q : Nat} {st st' : State Id}

/-- A signal asks for a fresh frame at the cursor. -/
theorem Context.signal_frame (hst : g.Context s start b st) (hg : g.isPlain = true)
    (hstart : start.isPlain = true) (he : e.isPlain = true)
    (heq : e.parser (g.setting s b) st = (.leftRecursion q, st')) :
    ∃ f, st.frame? q = some f ∧ f.mode = .fresh ∧ f.position = st.position := by
  obtain ⟨a, hconf, -⟩ := (hst.proper hg hstart).exists_effect hg he heq
  obtain ⟨f, hfind, -, -, hpos, hmode⟩ := Frame.exists_of_answer? (hconf.signal q rfl)
  exact ⟨f, hfind, hmode, hpos⟩

/-- A rule that is entered does not come back with its own signal. -/
theorem Context.ne_own_signal (hst : g.Context s start b st) (hg : g.isPlain = true)
    (hstart : start.isPlain = true) (hnone : Frame.answer? st.frames q st.position = none) :
    ((Expr.rule q).parser (g.setting s b) st).1 ≠ .leftRecursion q := by
  intro hsignal
  obtain ⟨a, hconf, -⟩ := (hst.proper hg hstart).exists_effect hg (e := .rule q) rfl
    (Prod.ext hsignal rfl : _ = (_, _))
  have hfresh := hconf.signal q rfl
  unfold Frame.Signals at hfresh
  rw [hnone] at hfresh
  cases hfresh

/-- The invocation that owns a frame does not pass the signal of its rule on. -/
theorem Arises.owner_not_returns {c c' : Call α Id} (hc : g.Arises s start c)
    (hg : g.isPlain = true) (hstart : start.isPlain = true) (h : Calls g s c c')
    (howns : c.Owns g q c') : ¬ c.Returns g s (.leftRecursion q) := by
  intro hreturns
  cases howns with
  | body _ =>
    obtain ⟨st', heq⟩ := hreturns.parser
    exact (Context.made hc).ne_own_signal hg hstart h.answer?_eq_none (congrArg Prod.fst heq)

/-- The growth of a rule does not come back with the signal of that rule. -/
theorem Context.grow_ne_signal (hst : g.Context s start (b + 1) st) (hg : g.isPlain = true)
    (hstart : start.isPlain = true) (hbody : g.body? q = some e)
    (hnone : Frame.answer? st.frames q st.position = none)
    (heq : e.parser (g.setting s b) (st.entered q (g.name q)) = (.leftRecursion q, st')) :
    (Parser.grow s b q (g.name q) st.position (e.parser (g.setting s b)) st').1 ≠
      .leftRecursion q := by
  have hown := hst.ne_own_signal hg hstart hnone
  rw [(hst.proper hg hstart).parser_rule hbody hnone, Parser.enter_fst] at hown
  simpa only [heq, if_true] using hown

/-- In a parse from the given expression, the signal of a rule stays within the invocation of the
rule that owns the frame it asks for. -/
structure SignalsContained (g : Grammar α Id) (s : Source α) (start : Expr α Id) : Prop where
  /-- In every state that arises, a signal asks for the innermost frame of its rule, which is fresh
  and was made at the cursor. -/
  frame : ∀ {b : Nat} {st st' : State Id} {e : Expr α Id} {q : Nat}, g.Context s start b st →
    e.isPlain = true → e.parser (g.setting s b) st = (.leftRecursion q, st') →
    ∃ f, st.frame? q = some f ∧ f.mode = .fresh ∧ f.position = st.position
  /-- The call that made a call which comes back with a signal passes the signal on, unless it is
  the invocation that pushed the frame, and that one does not. -/
  passed : ∀ {c c' : Call α Id} {q : Nat}, g.Arises s start c → Calls g s c c' →
    c'.Returns g s (.leftRecursion q) →
    c.Returns g s (.leftRecursion q) ∨ c.Owns g q c' ∧ ¬ c.Returns g s (.leftRecursion q)
  /-- The growth of a rule does not come back with the signal of that rule. -/
  grow : ∀ {b q : Nat} {e : Expr α Id} {st st' : State Id},
    g.Arises s start (.task (b + 1) (.expr (.rule q)) st) → g.body? q = some e →
    Frame.answer? st.frames q st.position = none →
    e.parser (g.setting s b) (st.entered q (g.name q)) = (.leftRecursion q, st') →
    (Parser.grow s b q (g.name q) st.position (e.parser (g.setting s b)) st').1 ≠ .leftRecursion q
  /-- The start expression does not come back with a signal. -/
  first : ∀ q, (start.parser (g.setting s (g.enough s))
    (State.initial.note (.started g.size s.size))).1 ≠ .leftRecursion q
  /-- So a parse does not end in a fault. -/
  parse : ∀ toEnd, (g.parseLogged s start toEnd).1 ≠ .error .fault

/-- In every parse with a plain grammar, signals stay within the invocation that owns the frame
they ask for. -/
theorem signals_contained (g : Grammar α Id) (s : Source α) (start : Expr α Id)
    (hg : g.isPlain = true) (hstart : start.isPlain = true) : g.SignalsContained s start where
  frame := by
    intro b st st' e q hst he heq
    exact hst.signal_frame hg hstart he heq
  passed := by
    intro c c' q hc hcalls hsignal
    rcases hcalls.signal_passed hg (hc.sound hg hstart) hsignal with hpassed | howns
    · exact Or.inl hpassed
    · exact Or.inr ⟨howns, hc.owner_not_returns hg hstart hcalls howns⟩
  grow := by
    intro b q e st st' hc hbody hnone heq
    exact (Context.made hc).grow_ne_signal hg hstart hbody hnone heq
  first := by
    intro q
    obtain ⟨v, a, hv, hrun⟩ := exists_first_run hg hstart s
    rw [hrun (g.enough s) _ (need_le_enough g s) (State.initial_at.note _)]
    rcases hv with rfl | rfl
    · exact nofun
    · exact nofun
  parse := by
    intro toEnd hfault
    rcases parseLogged_ends hg hstart s toEnd with ⟨outcome, hok⟩ | ⟨e, -, herror⟩
    · rw [hok] at hfault
      cases hfault
    · rw [herror] at hfault
      cases hfault

/-- Two rules that are left recursive through each other signal each other, and the signals are
contained. -/
theorem signals_contained_entangled :
    entangled.isPlain = true ∧ (Expr.rule 0 : Expr Char Nat).isPlain = true ∧
      entangled.SignalsContained .entangled (.rule 0) :=
  ⟨by decide, rfl, signals_contained entangled .entangled (.rule 0) (by decide) rfl⟩

end Grammar

end Peg
