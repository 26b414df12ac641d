import Mathlib.Order.Bounds.Defs
import Peg.Proofs.ErrorOrder
import Peg.Proofs.Mark
import Peg.Proofs.Slicing

/-!
# The furthest position is a high-water mark

`Call.Visits` are the positions to which the cursor is moved in the course of a call, whatever is
taken back later: those at which the calls below it are made, those at which they come back, and
those between the elements of a literal. The furthest position at the end of a run is the greatest
of these and of the furthest position at its beginning (`Grammar.furthest_is_high_water`), in every
state that arises in a parse and whether the run matches or not.

One half is that no call ends below the mark of a call that it made, from `Peg.Proofs.Mark`. The
other half is that the mark is reached: the mark of a call comes from one of the calls that it makes
or from where it comes back itself, and these are finitely many steps down (`Call.Sound.mark_mem`,
by induction on the measure of `Peg.Proofs.Termination`).

The mark is not before the end of any match, and not before any error that is recorded in the run.
Errors that a rule gives again while it grows are another matter: they were recorded in an earlier
round, the mark may have been started anew since, and `Grammar.furthest_behind_replay` has one that
lies beyond it.
-/

namespace Peg

variable {α Id : Type}

/-! ## Where the cursor is moved to -/

/-- The positions to which the cursor is moved in the course of a call. A run moves it by reading
elements, by skipping over one, by taking over an earlier result and by going back, and each of
these ends where a call is made or comes back. Only a literal moves on in between. -/
inductive Call.Visits (g : Grammar α Id) (s : Source α) (c : Call α Id) : Nat → Prop
  /-- A call is made there. -/
  | made {c' : Call α Id} : Relation.ReflTransGen (Calls g s) c c' → Visits g s c c'.state.position
  /-- A literal that matches moves over its elements one by one. -/
  | across {b k : Nat} {tests : List (α → Bool)} {st : State Id} :
      Relation.ReflTransGen (Calls g s) c (.task b (.expr (.literal tests)) st) →
      s.passes st.position tests = true → k ≤ tests.length → Visits g s c (s.walk st.position k)
  /-- A call comes back there. -/
  | back {b : Nat} {e : Expr α Id} {st st' : State Id} {v : Verdict} :
      Relation.ReflTransGen (Calls g s) c (.task b (.expr e) st) →
      e.parser (g.setting s b) st = (v, st') → Visits g s c st'.position

/-- The furthest position from which a call is made, and the positions that it visits. -/
def Call.reached (g : Grammar α Id) (s : Source α) (c : Call α Id) : Set Nat :=
  insert c.state.furthest {p | c.Visits g s p}

section calls

variable {g : Grammar α Id} {s : Source α} {c c' : Call α Id} {p : Nat}

/-- What a call visits is visited by the call that made it. -/
theorem Call.Visits.of_calls (h : Calls g s c c') (hp : c'.Visits g s p) : c.Visits g s p := by
  cases hp with
  | made hmade => exact .made (.head h hmade)
  | across hmade hpasses hk => exact .across (.head h hmade) hpasses hk
  | back hmade heq => exact .back (.head h hmade) heq

/-! ## Nothing is visited beyond the mark -/

/-- The cursor of a sound call is not beyond its furthest position. -/
theorem Call.Sound.le_furthest (hc : c.Sound g s) : c.state.position ≤ c.state.furthest := by
  cases c with
  | task b t st => exact hc.2.le_furthest
  | growth b i e start k st => exact hc.2.le_furthest

/-- No call ends below the mark of a call that was made in its course. -/
theorem Call.Sound.mark_le (hc : c.Sound g s) (hg : g.isPlain = true)
    (h : Relation.ReflTransGen (Calls g s) c c') : c'.Sound g s ∧ c'.mark g s ≤ c.mark g s := by
  induction h with
  | refl => exact ⟨hc, Nat.le_refl _⟩
  | tail _ hstep ih => exact ⟨hstep.sound hg ih.1, Nat.le_trans (hstep.mark_le hg ih.1) ih.2⟩

/-- Walking over more elements gets at least as far. -/
theorem Source.walk_le_walk (s : Source α) (p : Nat) {k n : Nat} (h : k ≤ n) :
    s.walk p k ≤ s.walk p n := by
  induction n generalizing p k with
  | zero =>
    rw [Nat.le_zero.1 h]
  | succ n ih =>
    cases k with
    | zero => exact s.le_walk p (n + 1)
    | succ k =>
      unfold Source.walk
      split
      · exact Nat.le_refl p
      · exact ih _ (Nat.le_of_succ_le_succ h)

/-- No position that a call visits is beyond its mark. -/
theorem Call.Sound.visits_le (hc : c.Sound g s) (hg : g.isPlain = true) (hp : c.Visits g s p) :
    p ≤ c.mark g s := by
  -- where a call comes back is not beyond the furthest position there
  have hback : ∀ {b : Nat} {e : Expr α Id} {st st' : State Id} {v : Verdict},
      Relation.ReflTransGen (Calls g s) c (.task b (.expr e) st) →
      e.parser (g.setting s b) st = (v, st') → st'.position ≤ c.mark g s := by
    intro b e st st' v hmade heq
    obtain ⟨hc', hle⟩ := hc.mark_le hg hmade
    rw [Call.mark_expr heq] at hle
    exact Nat.le_trans (hc'.2.after hg hc'.1 heq).le_furthest hle
  cases hp with
  | made hmade =>
    obtain ⟨hc', hle⟩ := hc.mark_le hg hmade
    exact Nat.le_trans hc'.le_furthest (Nat.le_trans (hc'.le_mark hg) hle)
  | @across b k tests st hmade hpasses hk =>
    have heq : (Expr.literal tests).parser (g.setting s b) st =
        (.ok, st.advance s tests.length) := by
      rw [Expr.parser, Parser.literal]
      exact if_pos hpasses
    exact Nat.le_trans (s.walk_le_walk st.position hk) (hback hmade heq)
  | back hmade heq => exact hback hmade heq

end calls

/-! ## The mark is reached -/

/-- The marks of the calls that a call makes are reached by it, if their beginnings are. -/
def Call.Passes (g : Grammar α Id) (s : Source α) (c : Call α Id) : Prop :=
  ∀ c', Calls g s c c' → c'.state.furthest ∈ c.reached g s → c'.mark g s ∈ c.reached g s

section reached

variable {g : Grammar α Id} {s : Source α} {b i k n : Nat} {e f : Expr α Id} {id : Id} {past : Bool}
  {start : Checkpoint} {st st' : State Id} {v : Verdict} {c : Call α Id}

/-- The furthest position from which a call is made counts as reached. -/
theorem Call.furthest_mem (c : Call α Id) : c.state.furthest ∈ c.reached g s :=
  Set.mem_insert _ _

/-- A call reaches the position at which it is made. -/
theorem Call.position_mem (c : Call α Id) : c.state.position ∈ c.reached g s :=
  Or.inr (.made .refl)

/-- An expression whose own doing is to move the cursor. -/
theorem Call.mark_mem_of_moved (heq : e.parser (g.setting s b) st = (v, st'))
    (hmoved : st'.furthest = st.furthest ∨ st'.furthest = max st.furthest st'.position) :
    (Call.task b (.expr e) st).mark g s ∈ (Call.task b (.expr e) st).reached g s := by
  have hfurthest : st.furthest ∈ (Call.task b (.expr e) st).reached g s :=
    (Call.task b (.expr e) st).furthest_mem
  rw [Call.mark_expr heq]
  rcases hmoved with hsame | hmax
  · rwa [hsame]
  · rw [hmax]
    exact max_rec' (· ∈ Call.reached g s _) hfurthest (Or.inr (.back .refl heq))

/-- A terminal reaches its mark: it stays, or it visits what it read. -/
theorem Call.mark_mem_reads {r : Option Nat} (hread : Reads s st.position e r) :
    (Call.task b (.expr e) st).mark g s ∈ (Call.task b (.expr e) st).reached g s := by
  apply Call.mark_mem_of_moved rfl
  cases hread with
  | satisfy test =>
    simp only [Expr.parser, Parser.satisfy]
    split
    · split
      · exact Or.inr rfl
      · exact Or.inl rfl
    · exact Or.inl rfl
  | literal tests =>
    simp only [Expr.parser, Parser.literal]
    split
    · exact Or.inr rfl
    · exact Or.inl rfl
  | endOfInput =>
    simp only [Expr.parser, Parser.endOfInput]
    split
    · exact Or.inl rfl
    · exact Or.inl rfl

/-- What one item after the other keeps to, all items keep to. -/
theorem Call.mark_items_mem {S : Set Nat} {st₀ : State Id} {items : List (Expr α Id)}
    (hitem : ∀ before e behind st, items = before ++ e :: behind →
      (Expr.sequence before).parser (g.setting s b) st₀ = (.ok, st) → st.furthest ∈ S →
      (Call.task b (.expr e) st).mark g s ∈ S) (hfirst : st₀.furthest ∈ S) :
    (Call.task b (.items items) st₀).mark g s ∈ S := by
  have hrest : ∀ behind before st, items = before ++ behind →
      (Expr.sequence before).parser (g.setting s b) st₀ = (.ok, st) → st.furthest ∈ S →
      (Call.task b (.items behind) st).mark g s ∈ S := by
    intro behind
    induction behind with
    | nil =>
      intro before st _ _ hst
      exact hst
    | cons e behind ih =>
      intro before st hitems hbefore hst
      have hmark := hitem before e behind st hitems hbefore hst
      cases heq : e.parser (g.setting s b) st with
      | mk v st' =>
      rw [Call.mark_expr heq] at hmark
      by_cases hv : v = .ok
      · subst hv
        rw [Call.mark_items_next heq]
        refine ih (before ++ [e]) st' (by rw [hitems, List.append_assoc]; rfl) ?_ hmark
        simp only [Expr.parser, Parser.sequence, Expr.parsers_eq_map] at hbefore ⊢
        simp only [Parser.attempt, List.map_append, List.map_cons, List.map_nil,
          Parser.inOrder_append, Parser.of_attempt_ok hbefore, Parser.inOrder, heq]
        rfl
      · rwa [Call.mark_items_last heq hv]
  exact hrest items [] st₀ rfl rfl hfirst

/-- What one alternative after the other keeps to, the choice keeps to. -/
theorem Call.mark_choice_mem {S : Set Nat} {st₀ : State Id} {items : List (Expr α Id)}
    (hproper : st₀.Proper g s b) (hg : g.isPlain = true) (hplain : Expr.allPlain items = true)
    (hitem : ∀ before e behind st, items = before ++ e :: behind →
      (Expr.choice before).parser (g.setting s b) st₀ = (.mismatch, st) → st.furthest ∈ S →
      (Call.task b (.expr e) st).mark g s ∈ S) (hfirst : st₀.furthest ∈ S) :
    (Call.task b (.expr (.choice items)) st₀).mark g s ∈ S := by
  have hrest : ∀ behind before st, items = before ++ behind →
      (Expr.choice before).parser (g.setting s b) st₀ = (.mismatch, st) → st.furthest ∈ S →
      (Call.task b (.expr (.choice behind)) st).mark g s ∈ S := by
    intro behind
    induction behind with
    | nil =>
      intro before st _ _ hst
      exact hst
    | cons e behind ih =>
      intro before st hitems hbefore hst
      have hmark := hitem before e behind st hitems hbefore hst
      obtain ⟨hplain₀, he⟩ := Expr.allPlain_split (hitems ▸ hplain)
      have hst' := hproper.after hg (e := .choice before) hplain₀ hbefore
      have hcheckpoint := hproper.checkpoint_mismatch hg (e := .choice before) hplain₀ hbefore
      cases heq : e.parser (g.setting s b) st with
      | mk v st' =>
      rw [Call.mark_expr heq] at hmark
      by_cases hv : v = .mismatch
      · subst hv
        rw [Call.mark_choice_next hst' hg he heq]
        refine ih (before ++ [e]) st' (by rw [hitems, List.append_assoc]; rfl) ?_ hmark
        -- going back to where the choice began changes nothing after a mismatch
        have hback : st'.restore st₀.checkpoint = st' := by
          rw [← hcheckpoint, ← hst'.checkpoint_mismatch hg he heq, State.restore_checkpoint]
        simp only [Expr.parser, Parser.choice, Expr.parsers_eq_map] at hbefore ⊢
        simp only [List.map_append, List.map_cons, List.map_nil, Parser.firstOf_append, hbefore,
          Parser.firstOf, heq, hback]
        rfl
      · rwa [Call.mark_choice_last heq hv]
  exact hrest items [] st₀ rfl rfl hfirst

/-- A sequence reaches its mark if its items reach theirs. -/
theorem Call.mark_mem_sequence {es : List (Expr α Id)}
    (hstep : (Call.task b (.expr (.sequence es)) st).Passes g s) :
    (Call.task b (.expr (.sequence es)) st).mark g s ∈
      (Call.task b (.expr (.sequence es)) st).reached g s := by
  rw [Call.mark_sequence]
  refine Call.mark_items_mem (fun before e behind st' hes heq hst' => ?_) (Call.furthest_mem _)
  subst hes
  exact hstep _ (.item heq) hst'

/-- A number of copies reaches its mark if the copies reach theirs. -/
theorem Call.mark_mem_times (hstep : (Call.task b (.expr (.times e n)) st).Passes g s) :
    (Call.task b (.expr (.times e n)) st).mark g s ∈
      (Call.task b (.expr (.times e n)) st).reached g s := by
  rw [Call.mark_times]
  refine Call.mark_items_mem (fun before e' behind st' hes heq hst' => ?_) (Call.furthest_mem _)
  -- all items are copies of one
  obtain ⟨hlen, hbefore, hbehind⟩ := List.replicate_eq_append_iff.1 hes
  rw [List.length_cons] at hlen
  rw [List.length_cons, List.replicate_succ] at hbehind
  obtain ⟨rfl, -⟩ := List.cons.inj hbehind
  rw [hbefore, ← Expr.parser_times] at heq
  exact hstep _ (.copy (by omega) heq) hst'

/-- A choice reaches its mark if its alternatives reach theirs. -/
theorem Call.mark_mem_choice {es : List (Expr α Id)}
    (hc : (Call.task b (.expr (.choice es)) st).Sound g s) (hg : g.isPlain = true)
    (hstep : (Call.task b (.expr (.choice es)) st).Passes g s) :
    (Call.task b (.expr (.choice es)) st).mark g s ∈
      (Call.task b (.expr (.choice es)) st).reached g s := by
  refine Call.mark_choice_mem hc.2 hg hc.1 (fun before e behind st' hes heq hst' => ?_)
    (Call.furthest_mem _)
  subst hes
  exact hstep _ (.alternative heq) hst'

/-- An expression that only looks at the result of another one reaches its mark if that one does.
-/
theorem Call.mark_mem_begins {e' : Expr α Id} (hbegins : e.Begins e') (hplus : e ≠ .plus e')
    (hstep : (Call.task b (.expr e) st).Passes g s) :
    (Call.task b (.expr e) st).mark g s ∈ (Call.task b (.expr e) st).reached g s := by
  have hmark : (Call.task b (.expr e) st).mark g s = (Call.task b (.expr e') st).mark g s :=
    hbegins.furthest_eq hplus
  rw [hmark]
  exact hstep _ (.begins hbegins) (Call.furthest_mem _)

/-- A loop of at least one run reaches its mark if the first run and the rest reach theirs. -/
theorem Call.mark_mem_plus (hc : (Call.task b (.expr (.plus e)) st).Sound g s)
    (hg : g.isPlain = true) (hstep : (Call.task b (.expr (.plus e)) st).Passes g s) :
    (Call.task b (.expr (.plus e)) st).mark g s ∈
      (Call.task b (.expr (.plus e)) st).reached g s := by
  have hfirst := hstep _ (.begins (.plus e)) (Call.furthest_mem _)
  cases heq : e.parser (g.setting s b) st with
  | mk v st' =>
  rw [Call.mark_expr heq] at hfirst
  by_cases hmore : v = .ok ∧ st'.position ≠ st.position
  · obtain ⟨rfl, hmoved⟩ := hmore
    rw [Call.mark_plus_more hc hg heq hmoved]
    exact hstep _ (.plus heq hmoved) hfirst
  · rwa [Call.mark_plus_last heq fun hv => by_contra fun hmoved => hmore ⟨hv, hmoved⟩]

/-- A loop reaches its mark if its rounds reach theirs. -/
theorem Call.mark_mem_loop (hc : (Call.task b (.loop e) st).Sound g s) (hg : g.isPlain = true)
    (hstep : (Call.task b (.loop e) st).Passes g s) :
    (Call.task b (.loop e) st).mark g s ∈ (Call.task b (.loop e) st).reached g s := by
  have hround := hstep _ .round (Call.furthest_mem _)
  cases heq : e.parser (g.setting s b) st with
  | mk v st' =>
  rw [Call.mark_expr heq] at hround
  by_cases hmore : v = .ok ∧ st'.position ≠ st.position
  · obtain ⟨rfl, hmoved⟩ := hmore
    rw [Call.mark_loop_more hc hg heq hmoved]
    exact hstep _ (.nextRound heq hmoved) hround
  · rwa [Call.mark_loop_last heq fun hv => by_contra fun hmoved => hmore ⟨hv, hmoved⟩]

/-- A recovery reaches its mark: the mark that is started anew for the primary is merged with the
old one before the fallback starts. -/
theorem Call.mark_mem_recover (hc : (Call.task b (.expr (.recover e id f)) st).Sound g s)
    (hg : g.isPlain = true) (hstep : (Call.task b (.expr (.recover e id f)) st).Passes g s) :
    (Call.task b (.expr (.recover e id f)) st).mark g s ∈
      (Call.task b (.expr (.recover e id f)) st).reached g s := by
  cases hend : st.atEnd s with
  | true =>
    rw [Call.mark_recover_end hend]
    exact hstep _ (.recoverAtEnd hend) (Call.furthest_mem _)
  | false =>
    -- the part that is tried begins with the furthest position at the cursor
    have htried := hstep _ (.recover hend) (Call.position_mem (Call.task b _ st))
    have hsound := (Calls.recover (f := f) hend).sound hg hc
    cases heq : e.parser (g.setting s b) st.resetFurthest with
    | mk v st' =>
    rw [Call.mark_expr heq] at htried
    have hmerged : max st'.furthest st.furthest ∈
        (Call.task b (.expr (.recover e id f)) st).reached g s :=
      max_rec' (· ∈ Call.reached g s _) htried (Call.furthest_mem _)
    by_cases hv : v = .mismatch
    · subst hv
      rw [Call.mark_recover_fallback hend heq]
      exact hstep _ (.fallback hend heq) hmerged
    · obtain ⟨a, hconf, -⟩ := hsound.2.exists_effect hg hsound.1 heq
      rwa [Call.mark_recover_pass hend heq hconf.answer hv]

/-- A scan reaches its mark if its target does at each element. -/
theorem Call.mark_mem_skip (hc : (Call.task b (.skip past e) st).Sound g s)
    (hg : g.isPlain = true) (hstep : (Call.task b (.skip past e) st).Passes g s) :
    (Call.task b (.skip past e) st).mark g s ∈ (Call.task b (.skip past e) st).reached g s := by
  cases hend : st.atEnd s with
  | true =>
    rw [Call.mark_skip_end hend]
    exact Call.furthest_mem _
  | false =>
    have htoken := hstep _ (.token hend) (Call.furthest_mem _)
    cases heq : e.parser (g.setting s b) st with
    | mk v st' =>
    rw [Call.mark_expr heq] at htoken
    by_cases hv : v = .mismatch
    · subst hv
      have hnext : Calls g s (.task b (.skip past e) st) (.task b (.skip past e) _) :=
        .nextSkip hend heq
      rw [Call.mark_skip_next hc hg hend heq]
      have hskipped := Call.Visits.made (.single hnext)
      exact hstep _ hnext (max_rec' (· ∈ Call.reached g s _) htoken (Or.inr hskipped))
    · rwa [Call.mark_skip_last hend heq hv]

/-- A growing rule reaches its mark if its rounds reach theirs. -/
theorem Call.mark_mem_growth (hc : (Call.growth b i e start k st).Sound g s)
    (hg : g.isPlain = true) (hstep : (Call.growth b i e start k st).Passes g s) :
    (Call.growth b i e start k st).mark g s ∈ (Call.growth b i e start k st).reached g s := by
  by_cases hfull : s.size ≤ st.position
  · rw [Call.mark_growth_full hc hfull]
    exact Call.furthest_mem _
  · have hlt := Nat.lt_of_not_le hfull
    obtain ⟨forest, errors, hsince⟩ := hc.2.exists_since
    have hround := hstep _ (.regrow hsince hlt) (Call.furthest_mem (.growth b i e start k st))
    cases heq : e.parser (g.setting s b) (st.regrown i (g.name i) start k forest errors) with
    | mk v st' =>
    rw [Call.mark_expr heq] at hround
    by_cases hmore : v = .ok ∧ st.position < st'.position
    · obtain ⟨rfl, hfurther⟩ := hmore
      rw [Call.mark_growth_further hc hg hsince hlt heq hfurther]
      exact hstep _ (.nextGrowth hsince hlt heq hfurther) hround
    · have hlast : v = .ok → st'.position ≤ st.position := fun hv =>
        Nat.le_of_not_lt fun hfurther => hmore ⟨hv, hfurther⟩
      rwa [Call.mark_growth_last hc hg hsince hlt heq hlast]

/-- A rule that is entered: its body, and if that signals the rule, a seed and its growth. -/
theorem Call.mark_mem_entered (hc : (Call.task (b + 1) (.expr (.rule i)) st).Sound g s)
    (hg : g.isPlain = true) (hbody : g.body? i = some e)
    (hnone : Frame.answer? st.frames i st.position = none)
    (hstep : (Call.task (b + 1) (.expr (.rule i)) st).Passes g s) :
    (Call.task (b + 1) (.expr (.rule i)) st).mark g s ∈
      (Call.task (b + 1) (.expr (.rule i)) st).reached g s := by
  have hfirst := hstep _ (.body hbody hnone)
    (Call.furthest_mem (.task (b + 1) (.expr (.rule i)) st))
  cases heq : e.parser (g.setting s b) (st.entered i (g.name i)) with
  | mk v st' =>
  rw [Call.mark_expr heq] at hfirst
  by_cases hv : v = .leftRecursion i
  · subst hv
    have hpos := (hc.2.seeding hg hbody hnone heq).2.position_eq
    have hseeded := hstep _ (.seed hbody hnone heq hpos) hfirst
    cases hseed : e.parser (g.setting s b) (st'.setMode i .seeding) with
    | mk w st'' =>
    rw [Call.mark_expr hseed] at hseeded
    by_cases hw : w = .ok
    · subst hw
      rw [Call.mark_rule_grown hc hg hbody hnone heq hpos hseed]
      exact hstep _ (.grow hbody hnone heq hpos hseed) hseeded
    · rwa [Call.mark_rule_barren hc hbody hnone heq hpos hseed hw]
  · rwa [Call.mark_rule_once hc hbody hnone heq hv]

/-- A rule reaches its mark: by what its frame answers with, by its body, or by its seed and its
growth. -/
theorem Call.mark_mem_rule (hc : (Call.task b (.expr (.rule i)) st).Sound g s)
    (hg : g.isPlain = true) (hstep : (Call.task b (.expr (.rule i)) st).Passes g s) :
    (Call.task b (.expr (.rule i)) st).mark g s ∈
      (Call.task b (.expr (.rule i)) st).reached g s := by
  cases b with
  | zero => exact Call.furthest_mem _
  | succ b =>
    cases hbody : g.body? i with
    | none =>
      apply Call.mark_mem_of_moved rfl
      left
      simp only [Expr.parser, Grammar.setting, Grammar.call, hbody]
      rfl
    | some e =>
      cases hactive : Frame.answer? st.frames i st.position with
      | none => exact Call.mark_mem_entered hc hg hbody hactive hstep
      | some m =>
        apply Call.mark_mem_of_moved rfl
        simp only [Expr.parser, Grammar.setting, Grammar.call, hbody,
          Parser.invoke_eq hc.2.at_self, hactive]
        cases m with
        | fresh => exact Or.inl rfl
        | seeding => exact Or.inl rfl
        | growing stop forest errors => exact Or.inr rfl

/-- Items are called for one by one, never as a list. -/
theorem Calls.ne_items {c' : Call α Id} (h : Calls g s c c') (es : List (Expr α Id)) :
    c' ≠ .task b (.items es) st := by
  cases h <;> exact nofun

/-- The mark of a call is where it began or a position that it visits. -/
theorem Call.Sound.mark_mem (hc : c.Sound g s) (hg : g.isPlain = true)
    (hitems : ∀ b es st, c ≠ .task b (.items es) st) : c.mark g s ∈ c.reached g s := by
  induction c using (Call.smaller_wf g s).induction with
  | _ c ih =>
  have hstep : c.Passes g s := by
    intro c' hcalls hfurthest
    rcases ih c' (hcalls.smaller hg hc) (hcalls.sound hg hc) fun _ es _ => hcalls.ne_items es with
      hsame | hvisits
    · rwa [hsame]
    · exact Or.inr (hvisits.of_calls hcalls)
  cases c with
  | growth b i e start k st => exact Call.mark_mem_growth hc hg hstep
  | task b t st =>
    cases t with
    | items es => exact absurd rfl (hitems b es st)
    | loop e => exact Call.mark_mem_loop hc hg hstep
    | skip past e => exact Call.mark_mem_skip hc hg hstep
    | expr e =>
      cases e with
      | satisfy test => exact Call.mark_mem_reads (.satisfy test)
      | literal tests => exact Call.mark_mem_reads (.literal tests)
      | endOfInput => exact Call.mark_mem_reads .endOfInput
      | rule i => exact Call.mark_mem_rule hc hg hstep
      | sequence es => exact Call.mark_mem_sequence hstep
      | choice es => exact Call.mark_mem_choice hc hg hstep
      | group e => exact Call.mark_mem_begins (.group e) nofun hstep
      | star e =>
        rw [Call.mark_star hc hg]
        exact hstep _ .star (Call.furthest_mem _)
      | plus e => exact Call.mark_mem_plus hc hg hstep
      | optional e => exact Call.mark_mem_begins (.optional e) nofun hstep
      | ahead e => exact Call.mark_mem_begins (.ahead e) nofun hstep
      | notAhead e => exact Call.mark_mem_begins (.notAhead e) nofun hstep
      | times e n => exact Call.mark_mem_times hstep
      | tag e id => exact Call.mark_mem_begins (.tag e id) nofun hstep
      | recover e id f => exact Call.mark_mem_recover hc hg hstep
      | skipBefore e =>
        rw [Call.mark_skipBefore hc hg]
        exact hstep _ .skipBefore (Call.furthest_mem _)
      | skipPast e =>
        rw [Call.mark_skipPast hc hg]
        exact hstep _ .skipPast (Call.furthest_mem _)
      | script body => cases hc.1

end reached

/-! ## Results -/

/-- No match of a run ends beyond where the run ends. -/
theorem Match.ends_invariant (s : Source α) :
    Effect.Invariant s fun _ (a : Effect Id) => Everywhere (fun span => span.stop ≤ a.stop)
      a.forest where
  jump := by
    intro pos stop _ _ _
    exact .nil
  andThen := by
    intro pos a b _ hb h h'
    exact (h.mono fun span hle => Nat.le_trans hle hb.le_stop).append h'
  undo := by
    intro pos stop a _ _ _ _ _ _
    exact .nil
  wrap := by
    intro pos a id _ _ h
    exact h.wrap id (Nat.le_refl a.stop)
  recovered := by
    intro pos a b id _ _ _ _ h
    exact h
  note := by
    intro pos a e h
    exact h
  again := by
    intro pos a _ h
    exact h

/-- The furthest position of a state in which a call has come back is a high-water mark. -/
structure Call.HighWater (g : Grammar α Id) (s : Source α) (c : Call α Id) (st' : State Id) :
    Prop where
  /-- It is the greatest of its value before and of all positions to which the cursor was moved. -/
  greatest : IsGreatest (insert c.state.furthest {p | c.Visits g s p}) st'.furthest
  /-- It has not decreased. -/
  mono : c.state.furthest ≤ st'.furthest
  /-- It is not before the cursor. -/
  position_le : st'.position ≤ st'.furthest
  /-- It is not beyond the end of the source. -/
  le_size : st'.furthest ≤ s.size
  /-- It is not before the end of any match, at any depth, that was recorded and kept. -/
  forest : ∃ forest, st'.forest = c.state.forest ++ forest ∧
    Match.Everywhere (fun span => span.stop ≤ st'.furthest) forest
  /-- Nor is it before the end of a match that was recorded in its course, kept or not. -/
  tagged : ∀ {b : Nat} {e : Expr α Id} {id : Id} {st₁ st₂ : State Id},
    Relation.ReflTransGen (Calls g s) c (.task b (.expr (.tag e id)) st₁) →
    e.parser (g.setting s b) st₁ = (.ok, st₂) → st₂.position ≤ st'.furthest
  /-- It is not before the position of any error that was recorded in its course, kept or not: the
  furthest position that a part had reached when it did not match. -/
  recovered : ∀ {b : Nat} {e f : Expr α Id} {id : Id} {st₁ st₂ : State Id},
    Relation.ReflTransGen (Calls g s) c (.task b (.expr (.recover e id f)) st₁) →
    st₁.atEnd s = false → e.parser (g.setting s b) st₁.resetFurthest = (.mismatch, st₂) →
    st₂.furthest ≤ st'.furthest
  /-- So it is not before any error that was appended, unless a rule that grows at the cursor held
  that error before the call and gave it again. -/
  errors : ∃ errors, st'.errors = c.state.errors ++ errors ∧
    ∀ err ∈ errors, err.position ≤ st'.furthest ∨
      Frame.Holds c.state.frames c.state.position err

namespace Grammar

variable {g : Grammar α Id} {s : Source α} {start e : Expr α Id} {b : Nat} {st st' : State Id}
  {v : Verdict}

/-- Every match that is appended, at every depth, ends at or before the furthest position. -/
theorem Context.matches_end (hst : g.Context s start b st) (hg : g.isPlain = true)
    (hstart : start.isPlain = true) (he : e.isPlain = true)
    (heq : e.parser (g.setting s b) st = (v, st')) :
    ∃ forest, st'.forest = st.forest ++ forest ∧
      Match.Everywhere (fun span => span.stop ≤ st'.furthest) forest := by
  obtain ⟨a, hconf, hends, rfl⟩ := hst.exists_effect (Match.ends_invariant s) hg hstart he heq
  refine ⟨a.forest, rfl, hends.mono fun span hle => ?_⟩
  exact Nat.le_trans hle (Nat.le_trans hconf.stop_le_reach (Nat.le_max_right _ _))

/-- In every state that arises in a parse, the cursor is not beyond the furthest position and that
is not beyond the end; and after every run from there, the furthest position is a high-water
mark. -/
theorem furthest_is_high_water (g : Grammar α Id) (s : Source α) (start : Expr α Id)
    (hg : g.isPlain = true) (hstart : start.isPlain = true) {b : Nat} {st : State Id}
    (hst : g.Context s start b st) :
    (st.position ≤ st.furthest ∧ st.furthest ≤ s.size) ∧
      ∀ (e : Expr α Id) (v : Verdict) (st' : State Id), e.isPlain = true →
        e.parser (g.setting s b) st = (v, st') →
        (Call.task b (.expr e) st).HighWater g s st' := by
  have hproper := hst.proper hg hstart
  refine ⟨⟨hproper.le_furthest, hproper.furthest_le⟩, fun e v st' he heq => ?_⟩
  have hitems : ∀ b' es st₁, Call.task b (.expr e) st ≠ .task b' (.items es) st₁ := by
    intro b' es st₁ h
    cases h
  let c := Call.task b (.expr e) st
  have hc : c.Sound g s := ⟨he, hproper⟩
  have hmark : c.mark g s = st'.furthest := Call.mark_expr heq
  have hafter := hproper.after hg he heq
  have hmem : c.mark g s ∈ c.reached g s := hc.mark_mem hg hitems
  have hupper : ∀ p ∈ c.reached g s, p ≤ c.mark g s := by
    rintro p (rfl | hvisits)
    · exact hc.le_mark hg
    · exact hc.visits_le hg hvisits
  rw [hmark] at hmem hupper
  refine ⟨⟨hmem, hupper⟩, hupper _ c.furthest_mem, hafter.le_furthest, hafter.furthest_le,
    hst.matches_end hg hstart he heq, ?_, ?_, ?_⟩
  · intro b₁ e₁ id st₁ st₂ hmade hok
    exact hupper _ (Or.inr (.back (hmade.tail (.begins (.tag e₁ id))) hok))
  · intro b₁ e₁ f₁ id st₁ st₂ hmade hend hmismatch
    obtain ⟨-, hle⟩ := hc.mark_le hg (hmade.tail (.recover hend))
    rwa [Call.mark_expr hmismatch, hmark] at hle
  · obtain ⟨errors, happend, -, hpositions⟩ := hst.errors_after hg hstart he heq
    exact ⟨errors, happend, hpositions⟩

/-- A lookahead matches the whole text and is taken back; then one character is matched. The
furthest position is the end of the text. -/
theorem furthest_is_high_water_entangled :
    let start : Expr Char Nat := .sequence [.ahead (.rule 0), .element 'y']
    entangled.isPlain = true ∧ start.isPlain = true ∧
      ∃ (b : Nat) (st st' : State Nat), entangled.Context .entangled start b st ∧
        start.parser (entangled.setting .entangled b) st = (.ok, st') ∧ st.furthest = 0 ∧
        st'.position = 1 ∧ st'.furthest = 4 ∧
        (Call.task b (.expr start) st).HighWater entangled .entangled st' := by
  intro start
  have hstart : start.isPlain = true := by decide
  let st : State Nat := State.initial.note (.started 2 4)
  have hst : entangled.Context .entangled start (entangled.enough .entangled) st := .made .refl
  have hwater := (furthest_is_high_water entangled .entangled start (by decide) hstart hst).2 start
  let result (b : Nat) := start.parser (entangled.setting .entangled b) st
  have hrun : (result (entangled.enough .entangled)).1 = .ok ∧
      (result (entangled.enough .entangled)).2.position = 1 ∧
      (result (entangled.enough .entangled)).2.furthest = 4 := by decide +kernel
  -- from here on the bound is some number, so that nothing is evaluated again
  generalize entangled.enough .entangled = b at hrun hst hwater
  obtain ⟨hok, hposition, hfurthest⟩ := hrun
  have heq : result b = (.ok, (result b).2) := by rw [← hok]
  exact ⟨by decide, hstart, b, st, (result b).2, hst, heq, rfl, hposition, hfurthest,
    hwater .ok _ hstart heq⟩

/-- An error that a growing rule gives again may lie beyond the furthest position: the mark was
started anew since the error was recorded, and giving the last result again moves it no further than
this result goes. -/
theorem furthest_behind_replay :
    replaying.isPlain = true ∧
      ∃ (b : Nat) (st st' : State Nat), replaying.Context (.ofText "ab") (.rule 0) b st ∧
        (Expr.rule 0).parser (replaying.setting (.ofText "ab") b) st = (.ok, st') ∧
        st.furthest = 0 ∧ st'.position = 1 ∧ st'.furthest = 1 ∧
        st'.errors = st.errors ++ [.record 7 2 ⟨0, 1⟩] ∧
        ¬ ∀ err ∈ st'.errors.drop st.errors.length, err.position ≤ st'.furthest := by
  obtain ⟨b, st, st', hst, heq, -, hbefore, hnone, hposition, hfurthest, hsome⟩ := exists_replay
  refine ⟨by decide, b, st, st', hst, heq, hbefore, hposition, hfurthest, ?_, ?_⟩
  · rw [hnone, hsome]
    rfl
  · rw [hnone, hsome, hfurthest]
    decide

end Grammar

end Peg
