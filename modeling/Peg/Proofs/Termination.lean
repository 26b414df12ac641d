import Peg.Proofs.Calls

/-!
# Every parse comes to an end

Rules and loops are given a bound in this library to make their definitions total. Here it is shown
that the bound is only that: a parse of plain expressions never uses it up, and it comes out in the
same way under every bound that suffices (`Grammar.parseWithin_eq_parseLogged`).

Behind this is a measure that does not mention the bound. A nested call has a smaller `Call.measure`
than the call that makes it (`Calls.smaller`), in lexicographic order:

1. how many frames the stack still has room for: entering a rule pushes a frame, and no rule has two
   frames at one position;
2. how large the expression is;
3. how many elements are left: a round of a loop, of skipping or of growth that is followed by
   another one has moved the cursor.

A loop therefore takes at most one round for each element that is left, and one more
(`Call.Sound.returns`). All this together is `Grammar.parse_terminates`.
-/

namespace Peg

variable {α Id : Type}

/-! ## A measure of calls -/

mutual

/-- The number of operators in an expression. -/
def Expr.size : Expr α Id → Nat
  | .satisfy _ => 1
  | .literal _ => 1
  | .endOfInput => 1
  | .rule _ => 1
  | .sequence items => Expr.sizes items + 1
  | .choice items => Expr.sizes items + 1
  | .group e => e.size + 1
  | .star e => e.size + 1
  | .plus e => e.size + 1
  | .optional e => e.size + 1
  | .ahead e => e.size + 1
  | .notAhead e => e.size + 1
  | .times e _ => e.size + 1
  | .tag e _ => e.size + 1
  | .recover e _ fallback => e.size + fallback.size + 1
  | .skipBefore token => token.size + 1
  | .skipPast token => token.size + 1
  | .script _ => 1
termination_by structural e => e

/-- The number of operators in a list of expressions. -/
def Expr.sizes : List (Expr α Id) → Nat
  | [] => 0
  | e :: rest => e.size + Expr.sizes rest
termination_by structural items => items

end

/-- An expression is no larger than a list that it is in. -/
theorem Expr.size_le_sizes {e : Expr α Id} {es : List (Expr α Id)} (h : e ∈ es) :
    e.size ≤ Expr.sizes es := by
  induction es with
  | nil => cases h
  | cons e' es ih =>
    rw [Expr.sizes]
    rcases List.mem_cons.1 h with rfl | h
    · exact Nat.le_add_right _ _
    · exact Nat.le_trans (ih h) (Nat.le_add_left _ _)

namespace Call

/-- How large the expression of a call is; a loop stands between its expression and its body. -/
def weight : Call α Id → Nat
  | task _ (.expr e) _ => 2 * e.size
  | task _ (.items es) _ => 2 * Expr.sizes es
  | task _ (.loop e) _ => 2 * e.size + 1
  | task _ (.skip _ e) _ => 2 * e.size + 1
  | growth _ _ e _ _ _ => 2 * e.size + 1

/-- The measure of a call: the frames that can still be pushed, the size of the expression, and the
elements that are left. -/
def measure (g : Grammar α Id) (s : Source α) (c : Call α Id) : Nat × Nat × Nat :=
  (g.size * (s.size + 1) - c.state.frames.length, c.weight, s.after c.state.position)

/-- One call has a smaller measure than another, in lexicographic order. -/
def Smaller (g : Grammar α Id) (s : Source α) (c' c : Call α Id) : Prop :=
  Prod.Lex (· < ·) (Prod.Lex (· < ·) (· < ·)) (c'.measure g s) (c.measure g s)

/-- Calls do not get smaller for ever. -/
theorem smaller_wf (g : Grammar α Id) (s : Source α) : WellFounded (Smaller g s) :=
  InvImage.wf (measure g s)
    (WellFounded.prod_lex Nat.lt_wfRel.wf (WellFounded.prod_lex Nat.lt_wfRel.wf Nat.lt_wfRel.wf))

end Call

section measure

variable {g : Grammar α Id} {s : Source α} {b : Nat} {e e' : Expr α Id} {st st' : State Id}

/-- A call of a smaller task under as many frames is smaller. -/
theorem Call.Smaller.of_weight {c c' : Call α Id}
    (hframes : c'.state.frames.length = c.state.frames.length)
    (hweight : c'.weight < c.weight) : c'.Smaller g s c := by
  unfold Call.Smaller Call.measure
  rw [hframes]
  exact .right _ (.left _ _ hweight)

/-- A call of an equal task under as many frames, further on in the source, is smaller. -/
theorem Call.Smaller.of_after {c c' : Call α Id}
    (hframes : c'.state.frames.length = c.state.frames.length) (hweight : c'.weight = c.weight)
    (hafter : s.after c'.state.position < s.after c.state.position) : c'.Smaller g s c := by
  unfold Call.Smaller Call.measure
  rw [hframes, hweight]
  exact .right _ (.right _ hafter)

/-- A call under one frame more is smaller, as long as there is room for the frame. -/
theorem Call.Smaller.of_frames {c c' : Call α Id}
    (hframes : c'.state.frames.length = c.state.frames.length + 1)
    (hroom : c'.state.frames.length ≤ g.size * (s.size + 1)) : c'.Smaller g s c := by
  unfold Call.Smaller Call.measure
  refine .left _ _ ?_
  omega

/-- What an expression begins with is smaller. -/
theorem Expr.Begins.size_lt (h : e.Begins e') : e'.size < e.size := by
  cases h <;> exact Nat.lt_succ_self _

/-- The stack of a proper state has room for one frame for each rule and position. -/
theorem State.Proper.frames_le (h : st.Proper g s b) :
    st.frames.length ≤ g.size * (s.size + 1) := by
  have hlen := h.stack.length_le
  have hmul : g.size * (st.position + 1) ≤ g.size * (s.size + 1) :=
    Nat.mul_le_mul_left _ (Nat.succ_le_succ h.boundary.le_size)
  exact Nat.le_trans hlen hmul

/-- A plain expression leaves as many frames as it found. -/
theorem State.Proper.length_after (h : st.Proper g s b) (hg : g.isPlain = true)
    (he : e.isPlain = true) {v : Verdict} (heq : e.parser (g.setting s b) st = (v, st')) :
    st'.frames.length = st.frames.length := by
  obtain ⟨a, -, rfl⟩ := h.exists_effect hg he heq
  rfl

/-- A match that moves the cursor leaves fewer elements. -/
theorem State.Proper.after_lt (h : st.Proper g s b) (hg : g.isPlain = true)
    (he : e.isPlain = true) {v : Verdict} (heq : e.parser (g.setting s b) st = (v, st'))
    (hmoved : st'.position ≠ st.position) : s.after st'.position < s.after st.position := by
  obtain ⟨a, hconf, rfl⟩ := h.exists_effect hg he heq
  exact h.boundary.after_lt hconf.boundary (Nat.lt_of_le_of_ne hconf.le_stop hmoved.symm)

/-- A step over an element leaves fewer elements, and a mismatch before it changes nothing. -/
theorem State.Proper.after_advance_lt (h : st.Proper g s b) (hg : g.isPlain = true)
    (he : e.isPlain = true) (heq : e.parser (g.setting s b) st = (.mismatch, st'))
    (hend : st.atEnd s = false) : s.after (st'.advance s 1).position < s.after st.position := by
  obtain ⟨a, hconf, rfl⟩ := h.exists_effect hg he heq
  have hlt : st.position < s.size := by
    simpa [State.atEnd, State.hasInput] using hend
  show s.after (s.walk a.stop 1) < s.after st.position
  rw [(hconf.silent rfl rfl).stop_eq]
  exact h.boundary.after_lt (h.boundary.walk 1) (h.boundary.lt_walk_one hlt)

/-- A call that is made by another one has a smaller measure. -/
theorem Calls.smaller {c c' : Call α Id} (hg : g.isPlain = true) (h : Calls g s c c')
    (hc : c.Sound g s) : c'.Smaller g s c := by
  have hc' := h.sound hg hc
  cases h with
  | begins hbegins =>
    have := hbegins.size_lt
    exact .of_weight rfl (by simp only [Call.weight]; omega)
  | @item b before behind e st st' heq =>
    obtain ⟨hbefore, -⟩ := Expr.allPlain_split hc.1
    have hle : e.size ≤ Expr.sizes (before ++ e :: behind) := Expr.size_le_sizes (by simp)
    refine .of_weight (hc.2.length_after hg (e := .sequence before) hbefore heq) ?_
    simp only [Call.weight, Expr.size]
    omega
  | @alternative b before behind e st st' heq =>
    obtain ⟨hbefore, -⟩ := Expr.allPlain_split hc.1
    have hle : e.size ≤ Expr.sizes (before ++ e :: behind) := Expr.size_le_sizes (by simp)
    refine .of_weight (hc.2.length_after hg (e := .choice before) hbefore heq) ?_
    simp only [Call.weight, Expr.size]
    omega
  | @copy b k n e st st' _ heq =>
    have hcopies : (Expr.times e k).isPlain = true := hc.1
    refine .of_weight (hc.2.length_after hg hcopies heq) ?_
    simp only [Call.weight, Expr.size]
    omega
  | star => exact .of_weight rfl (by simp only [Call.weight, Expr.size]; omega)
  | @plus b e st st' heq _ =>
    have he : e.isPlain = true := hc.1
    refine .of_weight (hc.2.length_after hg he heq) ?_
    simp only [Call.weight, Expr.size]
    omega
  | round => exact .of_weight rfl (Nat.lt_succ_self _)
  | nextRound heq hmoved =>
    exact .of_after (hc.2.length_after hg hc.1 heq) rfl (hc.2.after_lt hg hc.1 heq hmoved)
  | recoverAtEnd _ => exact .of_weight rfl (by simp only [Call.weight, Expr.size]; omega)
  | recover _ => exact .of_weight rfl (by simp only [Call.weight, Expr.size]; omega)
  | @fallback b e f id st st' _ heq =>
    have he := (Bool.and_eq_true_iff.1 hc.1).1
    have hlen : st'.frames.length = st.frames.length := hc.2.resetFurthest.length_after hg he heq
    refine .of_weight hlen ?_
    simp only [Call.weight, Expr.size]
    omega
  | skipBefore => exact .of_weight rfl (by simp only [Call.weight, Expr.size]; omega)
  | skipPast => exact .of_weight rfl (by simp only [Call.weight, Expr.size]; omega)
  | token _ => exact .of_weight rfl (Nat.lt_succ_self _)
  | @nextSkip b past e st st' hend heq =>
    have hlen : st'.frames.length = st.frames.length := hc.2.length_after hg hc.1 heq
    exact .of_after hlen rfl (hc.2.after_advance_lt hg hc.1 heq hend)
  | body _ _ => exact .of_frames rfl hc'.2.frames_le
  | seed hbody hnone heq _ =>
    refine .of_frames ?_ hc'.2.frames_le
    exact congrArg List.length (hc.2.seeding hg hbody hnone heq).2.frames_eq
  | @grow b i e st st' st'' hbody hnone heq _ hseed =>
    have he := Grammar.isPlain_body hg hbody
    obtain ⟨hproper, hat⟩ := hc.2.seeding hg hbody hnone heq
    have hlen : (st'.setMode i .seeding).frames.length = st.frames.length + 1 :=
      congrArg List.length hat.frames_eq
    refine .of_frames ((hproper.length_after hg he hseed).trans hlen) ?_
    exact (hproper.after hg he hseed).frames_le
  | regrow _ _ => exact .of_weight (Frame.length_setMode _ _ _) (Nat.lt_succ_self _)
  | @nextGrowth b i k e start st st' forest errors hsince _ heq hfurther =>
    have hproper := hc.2.regrown (g.name i) hsince
    have hlen : st'.frames.length = st.frames.length :=
      (hproper.length_after hg hc.1 heq).trans (Frame.length_setMode _ _ _)
    refine .of_after hlen rfl ?_
    exact hc.2.boundary.after_lt (hproper.after hg hc.1 heq).boundary hfurther

end measure

/-! ## Every call comes back -/

/-- A call comes back with a verdict as soon as its loop may take one round for each element that is
left, and one more; with more rounds it comes back in the same way. -/
def Call.Returns (g : Grammar α Id) (s : Source α) (c : Call α Id) (v : Verdict) : Prop :=
  ∀ n, s.after c.state.position < n → (c.run g s n).1 = v

section returns

variable {g : Grammar α Id} {s : Source α}

/-- A growing rule finds the records that it accepted. -/
theorem State.Growing.exists_since {b i k : Nat} {start : Checkpoint} {st : State Id}
    (h : st.Growing g s b i start k) :
    ∃ forest errors, st.since? start = some (forest, errors) := by
  obtain ⟨st₀, m, fs, acc, -, -, -, rfl, rfl, -⟩ := h
  exact ⟨_, _, Effect.since?_on acc st₀⟩

/-- The rounds of growth come to an end, since each accepted round leaves fewer elements. -/
theorem State.Growing.returns {b i k : Nat} {e : Expr α Id} {start : Checkpoint} {st : State Id}
    (h : st.Growing g s b i start k) (hg : g.isPlain = true) (he : e.isPlain = true) :
    ∃ v, v.isAnswer = true ∧ (Call.growth b i e start k st).Returns g s v := by
  induction hn : s.after st.position using Nat.strongRecOn generalizing st k with
  | ind n ih =>
    obtain ⟨forest, errors, hsince⟩ := h.exists_since
    by_cases hfull : s.size ≤ st.position
    · refine ⟨.ok, rfl, ?_⟩
      rintro (_ | r) hr
      · omega
      · simp only [Call.run, Parser.growRounds, hsince, if_pos hfull]
    · have hlt := Nat.lt_of_not_le hfull
      have hproper := h.regrown (g.name i) hsince
      obtain ⟨v, st', heq⟩ : ∃ v st', e.parser (g.setting s b)
          (st.regrown i (g.name i) start k forest errors) = (v, st') := ⟨_, _, rfl⟩
      obtain ⟨a, hconf, -⟩ := hproper.exists_effect hg he heq
      -- one round is run in any case; only a match that gets further is followed by another one
      have hround : ∀ r, (Call.growth b i e start k st).run g s (r + 1) = _ := fun r =>
        Parser.growRounds_succ hsince hlt
      simp only [heq] at hround
      by_cases hmore : v = .ok ∧ st.position < st'.position
      · obtain ⟨rfl, hfurther⟩ := hmore
        have hnext := h.next hg he (g.name i) hsince heq hfurther
        have hfewer := h.boundary.after_lt hnext.boundary hfurther
        obtain ⟨w, hw, hreturns⟩ := ih _ (hn ▸ hfewer) hnext rfl
        refine ⟨w, hw, ?_⟩
        rintro (_ | r) hr
        · omega
        · simp only [hround, if_pos hfurther]
          apply hreturns
          have : s.after st.position < r + 1 := hr
          show s.after st'.position < r
          omega
      · refine ⟨v.tolerated, ?_, ?_⟩
        · cases v with
          | ok | mismatch | leftRecursion => rfl
          | fault | exhausted => cases hconf.answer
        · rintro (_ | r) hr
          · omega
          · rw [hround]
            cases v with
            | ok =>
              have hstay : ¬ st.position < st'.position := fun hfurther => hmore ⟨rfl, hfurther⟩
              simp only [if_neg hstay]
              rfl
            | mismatch | leftRecursion | fault | exhausted => rfl

/-- Every sound call comes back with an answer. -/
theorem Call.Sound.returns {c : Call α Id} (hc : c.Sound g s) (hg : g.isPlain = true) :
    ∃ v, v.isAnswer = true ∧ c.Returns g s v := by
  cases c with
  | task b t st =>
    obtain ⟨ht, hproper⟩ := hc
    obtain ⟨v, a, hconf, hdone⟩ := hproper.run hg ht
    refine ⟨v, hconf.answer, fun n hn => ?_⟩
    cases t with
    | expr e => exact congrArg Prod.fst (hdone st hproper.at_self)
    | items es => exact congrArg Prod.fst (hdone st hproper.at_self)
    | loop e => exact congrArg Prod.fst (hdone n st.checkpoint st hn hproper.at_self)
    | skip past e => exact congrArg Prod.fst (hdone n hn st hproper.at_self)
  | growth b i e start k st => exact hc.2.returns hg hc.1

end returns

/-! ## Whole parses -/

namespace Grammar

variable {g : Grammar α Id} {s : Source α} {start : Expr α Id}

/-- From the beginning, an expression matches or does not match, in the same way under every bound
that suffices. -/
theorem exists_first_run (hg : g.isPlain = true) (hstart : start.isPlain = true) (s : Source α) :
    ∃ (v : Verdict) (a : Effect Id), (v = .ok ∨ v = .mismatch) ∧
      ∀ bound st, g.need s ≤ bound → st.At [] 0 →
        start.parser (g.setting s bound) st = (v, a.on st) := by
  obtain ⟨v, a, -, hconf, hdone⟩ := exists_done (t := .expr start) (invokes_lawful s)
    (invokes_realizedBy s) hg hstart (.nil s g.size 0) s.boundary_zero
  refine ⟨v, a, hconf.ok_or_mismatch, fun bound st hbound hst => ?_⟩
  rw [setting_eq_settingBy]
  exact hdone bound hbound st hst

/-- The bound of a parse is enough for the frames that there can be. -/
theorem need_le_enough (g : Grammar α Id) (s : Source α) : g.need s ≤ g.enough s :=
  Nat.le_add_right _ _

/-- A parse comes out in the same way under every bound that suffices. -/
theorem parseWithin_eq_parseLogged (hg : g.isPlain = true) (hstart : start.isPlain = true)
    (toEnd : Bool) {bound : Nat} (hbound : g.need s ≤ bound) :
    g.parseWithin bound s start toEnd = g.parseLogged s start toEnd := by
  obtain ⟨v, a, -, hrun⟩ := exists_first_run hg hstart s
  have hat : ((State.initial : State Id).note (.started g.size s.size)).At [] 0 :=
    State.initial_at.note _
  unfold parseLogged parseWithin
  rw [hrun bound _ hbound hat, hrun (g.enough s) _ (need_le_enough g s) hat]

/-- A parse ends with an outcome, unless the grammar is refused before it begins. -/
theorem parseLogged_ends (hg : g.isPlain = true) (hstart : start.isPlain = true) (s : Source α)
    (toEnd : Bool) :
    (∃ outcome, (g.parseLogged s start toEnd).1 = .ok outcome) ∨
      ∃ e, g.validate = .error e ∧ (g.parseLogged s start toEnd).1 = .error (.error e) := by
  obtain ⟨v, a, hv, hrun⟩ := exists_first_run hg hstart s
  have hat : ((State.initial : State Id).note (.started g.size s.size)).At [] 0 :=
    State.initial_at.note _
  unfold parseLogged parseWithin
  rw [hrun (g.enough s) _ (need_le_enough g s) hat]
  cases hvalid : g.validate with
  | error e => exact Or.inr ⟨e, rfl, rfl⟩
  | ok _ =>
    left
    rcases hv with rfl | rfl
    · exact ⟨_, rfl⟩
    · exact ⟨_, rfl⟩

/-- A parse from the given expression comes to an end. -/
structure Terminates (g : Grammar α Id) (s : Source α) (start : Expr α Id) : Prop where
  /-- It ends with an outcome, unless the grammar is refused before it begins. -/
  ends : ∀ toEnd, (∃ outcome, (g.parseLogged s start toEnd).1 = .ok outcome) ∨
    ∃ e, g.validate = .error e ∧ (g.parseLogged s start toEnd).1 = .error (.error e)
  /-- It does so in the same way under every bound that suffices. -/
  bound_free : ∀ bound toEnd, g.need s ≤ bound →
    g.parseWithin bound s start toEnd = g.parseLogged s start toEnd
  /-- The measure, which does not mention the bound, goes down from a call to the calls it makes. -/
  smaller : ∀ {c c' : Call α Id}, g.Arises s start c → Calls g s c c' → c'.Smaller g s c
  /-- There is no infinite descent. -/
  smaller_wf : WellFounded (Call.Smaller g s)
  /-- Every call comes back with an answer, and a loop does so within one round for each element
  that is left, and one more. -/
  returns : ∀ {c : Call α Id}, g.Arises s start c → ∃ v, v.isAnswer = true ∧ c.Returns g s v
  /-- In the growth of a rule, each of the `k` rounds so far has used up an element after the
  position at which the rule was entered. So the number of the round that comes next is at most one
  more than the number of these elements. -/
  growth : ∀ {b i k : Nat} {e : Expr α Id} {place : Checkpoint} {st : State Id},
    g.Arises s start (.growth b i e place k st) →
    k + s.after st.position ≤ s.after place.position

/-- Every parse with a plain grammar terminates, with an outcome and under the bound that it is
given. -/
theorem parse_terminates (g : Grammar α Id) (s : Source α) (start : Expr α Id)
    (hg : g.isPlain = true) (hstart : start.isPlain = true) : g.Terminates s start where
  ends := parseLogged_ends hg hstart s
  bound_free := by
    intro bound toEnd hbound
    exact parseWithin_eq_parseLogged hg hstart toEnd hbound
  smaller := by
    intro c c' hc hcalls
    exact hcalls.smaller hg (hc.sound hg hstart)
  smaller_wf := Call.smaller_wf g s
  returns := by
    intro c hc
    exact (hc.sound hg hstart).returns hg
  growth := by
    intro b i k e place st hc
    obtain ⟨-, st₀, m, fs, acc, -, -, -, rfl, rfl, hleft⟩ := hc.sound hg hstart
    exact hleft

/-- Two rules that are left recursive through each other terminate. -/
theorem parse_terminates_entangled :
    entangled.isPlain = true ∧ (Expr.rule 0 : Expr Char Nat).isPlain = true ∧
      entangled.Terminates .entangled (.rule 0) :=
  ⟨by decide, rfl, parse_terminates entangled .entangled (.rule 0) (by decide) rfl⟩

end Grammar

end Peg
