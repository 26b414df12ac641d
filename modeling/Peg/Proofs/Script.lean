import Peg.Proofs.Appends

/-!
# What a script can do to earlier records

A script is run as an attempt: if it fails, the lists of records are cut to the lengths they had
when it began. That is meant to put everything back, and for the cursor and for syntax errors it
does. For matches it does not. Recording a match takes children from all matches there are, not only
from those of the script, and what was taken from earlier matches is not given back by a cut.

`Grammar.script_restores` says exactly when it goes wrong. A script *spares* the matches that were
recorded before it if no match it records takes one of these as a child (`Action.sparesAll`); what
a script does and in which order decides this, and it is computed along with the run. A script that
spares the earlier matches leaves them as they were, whether it fails or not, and after a failure
nothing is left of its own. Any other script changes the earlier matches for good.

The proof follows two invariants through a script. Each is about the state together with all
checkpoints to which the script may still go back (`Session.Law`), since these decide what survives.
`State.Intact` says that the earlier records are there and that no checkpoint cuts into them. Once
that is lost, `State.Grown` holds and stays: the first matches, up to some number that no checkpoint
cuts into, are more than they were, if matches inside matches are counted.
-/

namespace Peg

variable {α Id : Type}

/-! ## Scripts that spare matches -/

mutual

/-- Whether all expressions that an action parses are plain. -/
def Action.parsesPlain : Action α Id → Bool
  | .parse e => e.isPlain
  | .attempt body => Action.allParsePlain body
  | .lookahead body => Action.allParsePlain body
  | _ => true
termination_by structural action => action

/-- Whether all expressions that the actions of a list parse are plain. -/
def Action.allParsePlain : List (Action α Id) → Bool
  | [] => true
  | action :: rest => action.parsesPlain && Action.allParsePlain rest
termination_by structural body => body

end

mutual

/-- Whether no match that an action records takes one of the first `n` matches as a child. -/
def Action.spares (env : Setting α Id) (n : Nat) : Action α Id → Session Id → Bool
  | .addMatch _ _ childCount, ses => decide (n ≤ ses.state.forest.length - childCount)
  | .attempt body, ses => Action.sparesAll env n body ⟨ses.state, []⟩
  | .lookahead body, ses => Action.sparesAll env n body ⟨ses.state, []⟩
  | _, _ => true
termination_by structural action => action

/-- Whether no match that the actions of a list record takes one of the first `n` matches as a
child. Actions that are not reached do not matter. -/
def Action.sparesAll (env : Setting α Id) (n : Nat) : List (Action α Id) → Session Id → Bool
  | [], _ => true
  | action :: rest, ses =>
    action.spares env n ses &&
      match action.perform env ses with
      | (.ok, _, ses') => Action.sparesAll env n rest ses'
      | _ => true
termination_by structural body => body

end

/-! ## Invariants of scripts -/

/-- A property of states, with the checkpoints that may still be gone back to, that is kept by
everything a script does, as long as no match takes one of the first `n` matches as a child. -/
structure Session.Law (n : Nat) (I : List Checkpoint → State Id → Prop) : Prop where
  extend : ∀ {cs st st'}, I cs st → st.Extends st' → I cs st'
  forget : ∀ {cs cs' st}, I cs st → cs' ⊆ cs → I cs' st
  save : ∀ {cs st}, I cs st → I (st.checkpoint :: cs) st
  restore : ∀ {cs st c}, I cs st → c ∈ cs → I cs (st.restore c)
  addMatch : ∀ {cs st k}, I cs st → n ≤ st.forest.length - k → ∀ id span,
    I cs (st.addMatch id span k)

section law

variable {env : Setting α Id} {n : Nat} {I : List Checkpoint → State Id → Prop}
  {cs : List Checkpoint} {st : State Id} {ses : Session Id}

/-- A law is kept when a failure goes back to the last checkpoint, which is then forgotten. -/
theorem Session.Law.settle (hI : Session.Law n I) {r : Verdict × State Id} {c : Checkpoint}
    (h : I (c :: cs) r.2) : I cs (Parser.settle c r).2 := by
  refine hI.forget ?_ (List.subset_cons_self c cs)
  show I _ (if r.1.isFailure then r.2.restore c else r.2)
  split
  · exact hI.restore h List.mem_cons_self
  · exact h

/-- A law is kept when an answer goes back to the last checkpoint, which is then forgotten. -/
theorem Session.Law.rewind (hI : Session.Law n I) {r : Verdict × State Id} {c : Checkpoint}
    (h : I (c :: cs) r.2) : I cs (Parser.rewind c r).2 := by
  refine hI.forget ?_ (List.subset_cons_self c cs)
  show I _ (if r.1.isAnswer then r.2.restore c else r.2)
  split
  · exact hI.restore h List.mem_cons_self
  · exact h

mutual

/-- An action keeps what is an invariant of scripts. -/
theorem Action.perform_keeps (hI : Session.Law n I) (henv : env.Appends) :
    (action : Action α Id) → action.parsesPlain = true →
      ∀ (ses : Session Id) (cs : List Checkpoint),
      action.spares env n ses = true → I (ses.saved ++ cs) ses.state →
      I ((action.perform env ses).2.2.saved ++ cs) (action.perform env ses).2.2.state
  | .advance _, _, _, _, _, h => hI.extend h ⟨List.prefix_rfl, List.prefix_rfl⟩
  | .read, _, ses, _, _, h => by
    unfold Action.perform
    split
    · exact hI.extend h ⟨List.prefix_rfl, List.prefix_rfl⟩
    · exact h
  | .peek, _, _, _, _, h => h
  | .peekNth _, _, _, _, _, h => h
  | .setPosition _, _, _, _, _, h => hI.extend h ⟨List.prefix_rfl, List.prefix_rfl⟩
  | .save, _, ses, cs, _, h => by
    refine hI.forget (hI.save h) fun c hc => ?_
    have hmem : c ∈ (ses.saved ++ [ses.state.checkpoint]) ++ cs := hc
    rw [List.append_assoc, List.singleton_append] at hmem
    exact List.perm_middle.subset hmem
  | .restore k, _, ses, cs, _, h => by
    unfold Action.perform
    split
    · next c hc => exact hI.restore h (List.mem_append_left cs (List.mem_of_getElem? hc))
    · exact h
  | .addMatch id span childCount, _, _, _, hspares, h =>
    hI.addMatch h (of_decide_eq_true hspares) id span
  | .addError id position skipped, _, ses, _, _, h =>
    hI.extend h ((State.Extends.refl ses.state).addError id position skipped)
  | .atEnd, _, _, _, _, h => h
  | .hasInput, _, _, _, _, h => h
  | .size, _, _, _, _, h => h
  | .ruleCount, _, _, _, _, h => h
  | .remaining, _, ses, _, _, h => by
    unfold Action.perform
    split
    · exact h
    · exact h
  | .display, _, _, _, _, h => h
  | .forest, _, _, _, _, h => h
  | .errors, _, _, _, _, h => h
  | .parse e, he, ses, _, _, h => hI.extend h (henv e he ses.state)
  | .expect _, _, _, _, _, h => h
  | .fail, _, _, _, _, h => h
  | .signal _, _, _, _, _, h => h
  | .attempt body, hbody, ses, cs, hspares, h =>
    hI.settle (r := (_, _)) (hI.forget
      (Action.performAll_keeps hI henv body hbody ⟨ses.state, []⟩
        (ses.state.checkpoint :: (ses.saved ++ cs)) hspares (hI.save h))
      (List.subset_append_right _ _))
  | .lookahead body, hbody, ses, cs, hspares, h =>
    hI.rewind (r := (_, _)) (hI.forget
      (Action.performAll_keeps hI henv body hbody ⟨ses.state, []⟩
        (ses.state.checkpoint :: (ses.saved ++ cs)) hspares (hI.save h))
      (List.subset_append_right _ _))
termination_by structural action => action

/-- The actions of a script keep what is an invariant of scripts. -/
theorem Action.performAll_keeps (hI : Session.Law n I) (henv : env.Appends) :
    (body : List (Action α Id)) → Action.allParsePlain body = true →
      ∀ (ses : Session Id) (cs : List Checkpoint),
      Action.sparesAll env n body ses = true → I (ses.saved ++ cs) ses.state →
      I ((Action.performAll env body ses).2.2.saved ++ cs)
        (Action.performAll env body ses).2.2.state
  | [], _, _, _, _, h => h
  | action :: rest, hbody, ses, cs, hspares, h => by
    obtain ⟨haction, hrest⟩ := Bool.and_eq_true_iff.1 hbody
    obtain ⟨hfirst, hnext⟩ := Bool.and_eq_true_iff.1 hspares
    have hkept := Action.perform_keeps hI henv action haction ses cs hfirst h
    unfold Action.performAll
    split
    · next reply ses' heq =>
      rw [heq] at hkept hnext
      exact Action.performAll_keeps hI henv rest hrest ses' cs hnext hkept
    · next v reply ses' _ heq =>
      rw [heq] at hkept
      exact hkept
termination_by structural body => body

end

/-- A script keeps what is an invariant of scripts. -/
theorem Expr.script_keeps (hI : Session.Law n I) (henv : env.Appends)
    {body : List (Action α Id)} (hbody : Action.allParsePlain body = true)
    (hspares : Action.sparesAll env n body ⟨st, []⟩ = true) (h : I [] st) :
    I [] ((Expr.script body).parser env st).2 :=
  hI.settle (r := (_, _)) (hI.forget
    (Action.performAll_keeps hI henv body hbody ⟨st, []⟩ [st.checkpoint] hspares (hI.save h))
    (List.subset_append_right _ _))

/-- A script that fails goes back to where it began. -/
theorem Expr.script_failure {body : List (Action α Id)} {st' : State Id} {v : Verdict}
    (heq : (Expr.script body).parser env st = (v, st')) (hv : v.isFailure = true) :
    st' = (Action.performAll env body ⟨st, []⟩).2.2.state.restore st.checkpoint := by
  have hsettle : Parser.settle st.checkpoint ((Action.performAll env body ⟨st, []⟩).1,
      (Action.performAll env body ⟨st, []⟩).2.2.state) = (v, st') := heq
  obtain ⟨rfl, rfl⟩ := Prod.mk.inj hsettle
  exact if_pos hv

end law

/-! ## Earlier records that stay -/

/-- The records of an earlier state are still there, and no checkpoint cuts into them. -/
structure State.Intact (st₀ : State Id) (cs : List Checkpoint) (st : State Id) : Prop where
  kept : st₀.Extends st
  keeps : ∀ c ∈ cs, c.Keeps st₀

/-- Earlier records stay intact as long as no match takes one of the earlier matches. -/
theorem State.intact_law (st₀ : State Id) : Session.Law st₀.forest.length (State.Intact st₀) where
  extend h hmore := ⟨h.kept.trans hmore, h.keeps⟩
  forget h hsub := ⟨h.kept, fun c hc => h.keeps c (hsub hc)⟩
  save h := ⟨h.kept, List.forall_mem_cons.2 ⟨h.kept.keeps, h.keeps⟩⟩
  restore h hc := ⟨h.kept.restore (h.keeps _ hc), h.keeps⟩
  addMatch h hk id span := ⟨h.kept.addMatch hk id span, h.keeps⟩

/-- The records of a state are intact in it. -/
theorem State.intact_self (st : State Id) : State.Intact st [] st := ⟨.refl st, nofun⟩

/-! ## Earlier matches that have grown -/

namespace Match

/-- The matches of two forests add up. -/
theorem countAll_append (a b : List (Match Id)) : countAll (a ++ b) = countAll a + countAll b := by
  induction a with
  | nil => simp [countAll]
  | cons m rest ih => simp [countAll, ih, Nat.add_assoc]

/-- There are no more matches in the first trees than in all. -/
theorem countAll_take_le (forest : List (Match Id)) (m : Nat) :
    countAll (forest.take m) ≤ countAll forest := by
  have hsplit := countAll_append (forest.take m) (forest.drop m)
  rw [List.take_append_drop] at hsplit
  omega

/-- More trees have at least as many matches. -/
theorem countAll_take_mono (forest : List (Match Id)) {m m' : Nat} (h : m ≤ m') :
    countAll (forest.take m) ≤ countAll (forest.take m') := by
  have htake := countAll_take_le (forest.take m') m
  rwa [List.take_take, Nat.min_eq_left h] at htake

/-- There are no more matches in a beginning of a forest than in the forest. -/
theorem countAll_le_of_prefix {a b : List (Match Id)} (h : a <+: b) : countAll a ≤ countAll b := by
  obtain ⟨c, rfl⟩ := h
  rw [countAll_append]
  exact Nat.le_add_right _ _

end Match

/-- Recording a match adds one match, wherever its children come from. -/
theorem State.countAll_addMatch (id : Id) (span : Span) (k : Nat) (st : State Id) :
    Match.countAll (st.addMatch id span k).forest = Match.countAll st.forest + 1 := by
  have hsplit := Match.countAll_append (st.forest.take (st.forest.length - k))
    (st.forest.drop (st.forest.length - k))
  rw [List.take_append_drop] at hsplit
  simp only [State.addMatch, Match.countAll_append, Match.countAll, Match.count]
  omega

/-- A match that takes children replaces them in the forest. -/
theorem State.length_addMatch (id : Id) (span : Span) (k : Nat) (st : State Id) :
    (st.addMatch id span k).forest.length = st.forest.length - k + 1 := by
  simp [State.addMatch]

/-- The first `m` matches are more than they were, with those inside them, and no checkpoint cuts
into them. -/
structure State.Grown (st₀ : State Id) (m : Nat) (cs : List Checkpoint) (st : State Id) : Prop where
  le_before : m ≤ st₀.forest.length
  le_length : m ≤ st.forest.length
  le_matchCount : ∀ c ∈ cs, m ≤ c.matchCount
  more : Match.countAll (st₀.forest.take m) < Match.countAll (st.forest.take m)

section grown

variable {st₀ st : State Id} {m k : Nat} {cs : List Checkpoint}

/-- A match that takes one of the first `m` matches as a child makes the matches up to itself more
than they were. -/
theorem State.Grown.of_addMatch (hm : m ≤ st₀.forest.length) (hcs : ∀ c ∈ cs, m ≤ c.matchCount)
    (hcount : Match.countAll (st₀.forest.take m) ≤ Match.countAll st.forest)
    (hk : st.forest.length - k < m) (id : Id) (span : Span) :
    st₀.Grown (st.forest.length - k + 1) cs (st.addMatch id span k) where
  le_before := Nat.le_trans hk hm
  le_length := Nat.le_of_eq (State.length_addMatch id span k st).symm
  le_matchCount c hc := Nat.le_trans hk (hcs c hc)
  more := by
    rw [List.take_of_length_le (Nat.le_of_eq (State.length_addMatch id span k st)),
      State.countAll_addMatch]
    have hfewer : Match.countAll (st₀.forest.take (st.forest.length - k + 1)) ≤ _ :=
      Match.countAll_take_mono st₀.forest hk
    omega

/-- Earlier matches that have grown stay so: a further match comes behind them, or grows them
again. -/
theorem State.Grown.addMatch (h : st₀.Grown m cs st) (k : Nat) (id : Id) (span : Span) :
    ∃ m', st₀.Grown m' cs (st.addMatch id span k) := by
  by_cases hk : m ≤ st.forest.length - k
  · -- the new match comes behind
    have hlength : m ≤ (st.forest.take (st.forest.length - k)).length := by
      rw [List.length_take]
      omega
    have htake : (st.addMatch id span k).forest.take m = st.forest.take m := by
      rw [State.addMatch, List.take_append_of_le_length hlength, List.take_take, Nat.min_eq_left hk]
    refine ⟨m, h.le_before, ?_, h.le_matchCount, htake ▸ h.more⟩
    rw [State.length_addMatch]
    omega
  · have hcount := Nat.le_trans (Nat.le_of_lt h.more) (Match.countAll_take_le st.forest m)
    exact ⟨_, .of_addMatch h.le_before h.le_matchCount hcount (Nat.lt_of_not_le hk) id span⟩

/-- Earlier matches that have grown stay so whatever a script does. -/
theorem State.grown_law (st₀ : State Id) :
    Session.Law 0 fun cs st => ∃ m, State.Grown st₀ m cs st where
  extend := by
    rintro cs st st' ⟨m, h⟩ hmore
    have htake : st'.forest.take m = st.forest.take m := by
      obtain ⟨rest, hrest⟩ := hmore.forest
      rw [← hrest, List.take_append_of_le_length h.le_length]
    exact ⟨m, h.le_before, Nat.le_trans h.le_length hmore.forest.length_le, h.le_matchCount,
      htake ▸ h.more⟩
  forget := by
    rintro cs cs' st ⟨m, h⟩ hsub
    exact ⟨m, h.le_before, h.le_length, fun c hc => h.le_matchCount c (hsub hc), h.more⟩
  save := by
    rintro cs st ⟨m, h⟩
    exact ⟨m, h.le_before, h.le_length, List.forall_mem_cons.2 ⟨h.le_length, h.le_matchCount⟩,
      h.more⟩
  restore := by
    rintro cs st c ⟨m, h⟩ hc
    have hle := h.le_matchCount c hc
    have htake : (st.restore c).forest.take m = st.forest.take m := by
      rw [State.restore, List.take_take, Nat.min_eq_left hle]
    refine ⟨m, h.le_before, ?_, h.le_matchCount, htake ▸ h.more⟩
    have hlength := h.le_length
    simp only [State.restore, List.length_take]
    omega
  addMatch := by
    rintro cs st k ⟨m, h⟩ _ id span
    exact h.addMatch k id span

/-- Matches that have grown are not what they were. -/
theorem State.Grown.not_prefix (h : st₀.Grown m cs st) : ¬ st₀.forest <+: st.forest := by
  rintro ⟨rest, hrest⟩
  have hmore := h.more
  rw [← hrest, List.take_append_of_le_length h.le_before] at hmore
  exact Nat.lt_irrefl _ hmore

end grown

/-! ## Scripts that do not spare matches -/

section grows

variable {env : Setting α Id} {st₀ : State Id}

mutual

/-- Nothing takes one of the first matches as a child if there is none. -/
theorem Action.spares_zero (action : Action α Id) (ses : Session Id) :
    action.spares env 0 ses = true := by
  cases action with
  | addMatch id span k => exact decide_eq_true (Nat.zero_le (ses.state.forest.length - k))
  | attempt body => exact Action.sparesAll_zero body _
  | lookahead body => exact Action.sparesAll_zero body _
  | _ => rfl
termination_by structural action

/-- If no matches are to be spared, every script spares them. -/
theorem Action.sparesAll_zero (body : List (Action α Id)) (ses : Session Id) :
    Action.sparesAll env 0 body ses = true := by
  cases body with
  | nil => rfl
  | cons action rest =>
    refine Bool.and_eq_true_iff.2 ⟨Action.spares_zero action ses, ?_⟩
    split
    · exact Action.sparesAll_zero rest _
    · rfl
termination_by structural body

end

mutual

/-- An action that does not spare the matches there were makes them more than they were. -/
theorem Action.perform_grows (henv : env.Appends) (action : Action α Id)
    (haction : action.parsesPlain = true) (ses : Session Id) (cs : List Checkpoint)
    (hspares : action.spares env st₀.forest.length ses = false)
    (h : st₀.Intact (ses.saved ++ cs) ses.state) :
    ∃ m, st₀.Grown m ((action.perform env ses).2.2.saved ++ cs)
      (action.perform env ses).2.2.state := by
  cases action with
  | addMatch id span k =>
    have hk := Nat.lt_of_not_le (of_decide_eq_false hspares)
    have hcount : Match.countAll (st₀.forest.take st₀.forest.length) ≤
        Match.countAll ses.state.forest := by
      rw [List.take_length]
      exact Match.countAll_le_of_prefix h.kept.forest
    exact ⟨_, .of_addMatch (Nat.le_refl _) (fun c hc => (h.keeps c hc).le_matchCount) hcount hk id
      span⟩
  | attempt body =>
    have hinner := Action.performAll_grows henv body haction ⟨ses.state, []⟩
      (ses.state.checkpoint :: (ses.saved ++ cs)) hspares (st₀.intact_law.save h)
    exact st₀.grown_law.settle (r := (_, _))
      (st₀.grown_law.forget hinner (List.subset_append_right _ _))
  | lookahead body =>
    have hinner := Action.performAll_grows henv body haction ⟨ses.state, []⟩
      (ses.state.checkpoint :: (ses.saved ++ cs)) hspares (st₀.intact_law.save h)
    exact st₀.grown_law.rewind (r := (_, _))
      (st₀.grown_law.forget hinner (List.subset_append_right _ _))
  | _ => exact Bool.noConfusion hspares
termination_by structural action

/-- Actions of which one does not spare the matches there were make them more than they were. -/
theorem Action.performAll_grows (henv : env.Appends) (body : List (Action α Id))
    (hbody : Action.allParsePlain body = true) (ses : Session Id) (cs : List Checkpoint)
    (hspares : Action.sparesAll env st₀.forest.length body ses = false)
    (h : st₀.Intact (ses.saved ++ cs) ses.state) :
    ∃ m, st₀.Grown m ((Action.performAll env body ses).2.2.saved ++ cs)
      (Action.performAll env body ses).2.2.state := by
  cases body with
  | nil => exact Bool.noConfusion hspares
  | cons action rest =>
    obtain ⟨haction, hrest⟩ := Bool.and_eq_true_iff.1 hbody
    unfold Action.sparesAll at hspares
    unfold Action.performAll
    cases hfirst : action.spares env st₀.forest.length ses with
    | false =>
      -- what comes after the first action cannot make good for it
      have hgrown := Action.perform_grows henv action haction ses cs hfirst h
      split
      · next reply ses' heq =>
        rw [heq] at hgrown
        exact Action.performAll_keeps st₀.grown_law henv rest hrest ses' cs
          (Action.sparesAll_zero rest ses') hgrown
      · next v reply ses' _ heq =>
        rw [heq] at hgrown
        exact hgrown
    | true =>
      have hkept := Action.perform_keeps st₀.intact_law henv action haction ses cs hfirst h
      rw [hfirst, Bool.true_and] at hspares
      split at hspares
      · next reply ses' heq =>
        rw [heq] at hkept
        simp only [heq]
        exact Action.performAll_grows henv rest hrest ses' cs hspares hkept
      · exact Bool.noConfusion hspares
termination_by structural body

end

/-- A script that does not spare the matches there were makes them more than they were. -/
theorem Expr.script_grows (henv : env.Appends) {body : List (Action α Id)}
    (hbody : Action.allParsePlain body = true)
    (hspares : Action.sparesAll env st₀.forest.length body ⟨st₀, []⟩ = false) :
    ∃ m, st₀.Grown m [] ((Expr.script body).parser env st₀).2 := by
  have hinner := Action.performAll_grows henv body hbody ⟨st₀, []⟩ [st₀.checkpoint] hspares
    (st₀.intact_law.save st₀.intact_self)
  exact st₀.grown_law.settle (r := (_, _))
    (st₀.grown_law.forget hinner (List.subset_append_right _ _))

end grows

/-! ## What a script puts back -/

namespace Grammar

/-- A script leaves the syntax errors before it alone, and it leaves the matches before it alone if
and only if it spares them. After a failure the cursor and the syntax errors are as they were, and
the matches are as they were if and only if the script spared them. -/
theorem script_restores (g : Grammar α Id) (s : Source α) (b : Nat) (body : List (Action α Id))
    (hg : g.isPlain = true) (hbody : Action.allParsePlain body = true) {st st' : State Id}
    {v : Verdict} (heq : (Expr.script body).parser (g.setting s b) st = (v, st')) :
    st.errors <+: st'.errors ∧
      (st.forest <+: st'.forest ↔
        Action.sparesAll (g.setting s b) st.forest.length body ⟨st, []⟩ = true) ∧
      (v.isFailure = true → st'.position = st.position ∧ st'.errors = st.errors ∧
        (st'.forest = st.forest ↔
          Action.sparesAll (g.setting s b) st.forest.length body ⟨st, []⟩ = true)) := by
  have henv := setting_appends hg s b
  -- apart from its matches, a state is left alone by all scripts
  have herrors : st.errors <+: st'.errors := by
    have hlaw := State.intact_law { st with forest := [] }
    have hnil : [] <+: st.forest := List.nil_prefix
    have hself : State.Intact { st with forest := [] } [] st := ⟨⟨hnil, List.prefix_rfl⟩, nofun⟩
    have hkept := Expr.script_keeps hlaw henv hbody (Action.sparesAll_zero body _) hself
    rw [heq] at hkept
    exact hkept.kept.errors
  have hforest : st.forest <+: st'.forest ↔
      Action.sparesAll (g.setting s b) st.forest.length body ⟨st, []⟩ = true := by
    cases hspares : Action.sparesAll (g.setting s b) st.forest.length body ⟨st, []⟩ with
    | true =>
      have hkept := Expr.script_keeps st.intact_law henv hbody hspares st.intact_self
      rw [heq] at hkept
      exact iff_of_true hkept.kept.forest rfl
    | false =>
      obtain ⟨m, hgrown⟩ := Expr.script_grows henv hbody hspares
      rw [heq] at hgrown
      exact iff_of_false hgrown.not_prefix Bool.false_ne_true
  refine ⟨herrors, hforest, fun hv => ?_⟩
  have hback := Expr.script_failure heq hv
  have hfewer : st'.forest.length ≤ st.forest.length := by
    rw [hback]
    exact List.length_take_le _ _
  have hfewer' : st'.errors.length ≤ st.errors.length := by
    rw [hback]
    exact List.length_take_le _ _
  have hposition : st'.position = st.position := by
    rw [hback]
    rfl
  refine ⟨hposition, (herrors.eq_of_length_le hfewer').symm, ?_⟩
  rw [← hforest]
  constructor
  · intro hsame
    exact hsame ▸ List.prefix_rfl
  · intro hstays
    exact (hstays.eq_of_length_le hfewer).symm

/-- A script that parses a left-recursive rule, puts a match around what it recorded and fails:
nothing of it is left. -/
theorem script_restores_entangled :
    let st : State Nat := { forest := [⟨7, ⟨0, 0⟩, []⟩] }
    let body : List (Action Char Nat) := [.parse (.rule 0), .addMatch 8 ⟨0, 4⟩ 1, .fail]
    let env := entangled.setting .entangled (entangled.need .entangled)
    entangled.isPlain = true ∧ Action.allParsePlain body = true ∧
      Action.sparesAll env st.forest.length body ⟨st, []⟩ = true ∧
      ∃ st', (Expr.script body).parser env st = (.mismatch, st') ∧ st'.position = st.position ∧
        st'.errors = st.errors ∧ st'.forest = st.forest ∧ st'.furthest = 4 := by
  intro st body env
  have hspares : Action.sparesAll env st.forest.length body ⟨st, []⟩ = true := by decide +kernel
  have hrun : ((Expr.script body).parser env st).1 = .mismatch ∧
      ((Expr.script body).parser env st).2.furthest = 4 := by decide +kernel
  rcases heq : (Expr.script body).parser env st with ⟨v, st'⟩
  rw [heq] at hrun
  obtain ⟨rfl, hfurthest⟩ := hrun
  obtain ⟨-, -, hfailure⟩ := script_restores entangled .entangled (entangled.need .entangled) body
    (by decide) (by decide) heq
  obtain ⟨hposition, herrors, hforest⟩ := hfailure rfl
  exact ⟨by decide, by decide, hspares, st', rfl, hposition, herrors, hforest.2 hspares, hfurthest⟩

/-- A script that puts a match around the one recorded before it and fails: the earlier match is
inside the new one, and the new one stays. -/
theorem script_takes_earlier_match :
    let st : State Nat := { position := 1, furthest := 1, forest := [⟨0, ⟨0, 1⟩, []⟩] }
    let body : List (Action Char Nat) := [.addMatch 1 ⟨0, 1⟩ 1, .fail]
    Action.allParsePlain body = true ∧
      ∃ st', (Expr.script body).parser (empty.setting (.ofText "a") 1) st = (.mismatch, st') ∧
        st'.forest = [⟨1, ⟨0, 1⟩, st.forest⟩] ∧ ¬ st.forest <+: st'.forest := by
  intro st body
  exact ⟨rfl, _, Prod.ext (by decide +kernel) rfl, by decide +kernel, by decide +kernel⟩

end Grammar

end Peg
