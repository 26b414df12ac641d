import Peg.Grammar.Parse
import Peg.Proofs.Plain

/-!
# Nothing depends on the furthest position

The furthest position is kept for messages. No parser of a plain expression reads it, in any state
and under any bound: with another furthest position it comes back with the same verdict and with the
same state, again up to the furthest position (`Parser.Oblivious`, `Grammar.setting_oblivious`).

One parser does look at the mark, and that is recovery, which puts it into the error. But it starts
the mark anew from the cursor before it does, so what it reads is what the run in between has
written.
-/

namespace Peg

variable {α Id : Type}

/-- The same state with another furthest position. -/
def State.marked (m : Nat) (st : State Id) : State Id := { st with furthest := m }

/-- Results that differ in the furthest position at most. -/
def Parser.Alike (r r' : Verdict × State Id) : Prop := ∃ m, r' = (r.1, r.2.marked m)

/-- A parser that does the same whatever the furthest position is. -/
def Parser.Oblivious (p : Parser Id) : Prop :=
  ∀ (st : State Id) (m : Nat), Parser.Alike (p st) (p (st.marked m))

namespace Parser

variable {p q : Parser Id} {s : Source α} {st : State Id} {c : Checkpoint} {m : Nat}
  {r r' : Verdict × State Id}

/-- Results stay alike when failures are taken back. -/
theorem Alike.settle (h : Alike r r') (c : Checkpoint) : Alike (settle c r) (settle c r') := by
  obtain ⟨m, rfl⟩ := h
  obtain ⟨v, st⟩ := r
  cases v <;> exact ⟨m, rfl⟩

/-- Results stay alike when answers are taken back. -/
theorem Alike.rewind (h : Alike r r') (c : Checkpoint) : Alike (rewind c r) (rewind c r') := by
  obtain ⟨m, rfl⟩ := h
  obtain ⟨v, st⟩ := r
  cases v <;> exact ⟨m, rfl⟩

/-- Results of the same case of a distinction are alike if they are in each case. -/
theorem Alike.ite {P P' : Prop} [Decidable P] [Decidable P'] {a b a' b' : Verdict × State Id}
    (h : P ↔ P') (ha : P → Alike a a') (hb : ¬P → Alike b b') :
    Alike (if P then a else b) (if P' then a' else b') := by
  by_cases hP : P
  · rw [if_pos hP, if_pos (h.1 hP)]
    exact ha hP
  · rw [if_neg hP, if_neg (mt h.2 hP)]
    exact hb hP

namespace Oblivious

/-- What a parser comes back with, before and after the furthest position is changed. -/
theorem run (hp : p.Oblivious) (st : State Id) (m : Nat) :
    ∃ v st' m', p st = (v, st') ∧ p (st.marked m) = (v, st'.marked m') := by
  obtain ⟨m', hmarked⟩ := hp st m
  exact ⟨_, _, m', rfl, hmarked⟩

/-! ## Combinators -/

/-- Succeeding does not look at the furthest position. -/
theorem succeed : (succeed : Parser Id).Oblivious := fun _ m => ⟨m, rfl⟩

/-- Failing does not look at the furthest position. -/
theorem mismatch : (mismatch : Parser Id).Oblivious := fun _ m => ⟨m, rfl⟩

/-- Giving up does not look at the furthest position. -/
theorem exhausted : (exhausted : Parser Id).Oblivious := fun _ m => ⟨m, rfl⟩

/-- An attempt is oblivious if its parser is. -/
theorem attempt (hp : p.Oblivious) : (attempt p).Oblivious := fun st m =>
  (hp st m).settle st.checkpoint

/-- A lookahead is oblivious if its parser is. -/
theorem lookahead (hp : p.Oblivious) : (lookahead p).Oblivious := fun st m =>
  (hp st m).rewind st.checkpoint

/-- A test looks at the element at the cursor only. -/
theorem satisfy (s : Source α) (test : α → Bool) : (satisfy s test : Parser Id).Oblivious := by
  intro st m
  have hpeek : (st.marked m).peek s = st.peek s := rfl
  unfold Parser.satisfy
  rw [hpeek]
  cases st.peek s with
  | none => exact ⟨m, rfl⟩
  | some a => exact .ite Iff.rfl (fun _ => ⟨_, rfl⟩) fun _ => ⟨m, rfl⟩

/-- A literal looks at the elements from the cursor on only. -/
theorem literal (s : Source α) (tests : List (α → Bool)) :
    (literal s tests : Parser Id).Oblivious := by
  intro st m
  exact .ite Iff.rfl (fun _ => ⟨_, rfl⟩) fun _ => ⟨m, rfl⟩

/-- The test for the end looks at the cursor only. -/
theorem endOfInput (s : Source α) : (endOfInput s : Parser Id).Oblivious := by
  intro st m
  exact .ite Iff.rfl (fun _ => ⟨m, rfl⟩) fun _ => ⟨m, rfl⟩

/-- A row is oblivious if its parsers are. -/
theorem inOrder {ps : List (Parser Id)} (hps : ∀ p ∈ ps, p.Oblivious) :
    (inOrder ps).Oblivious := by
  induction ps with
  | nil => exact succeed
  | cons p rest ih =>
    obtain ⟨hp, hrest⟩ := List.forall_mem_cons.1 hps
    intro st m
    obtain ⟨v, st', m', heq, hmarked⟩ := hp.run st m
    unfold Parser.inOrder
    rw [heq, hmarked]
    cases v with
    | ok => exact ih hrest st' m'
    | mismatch | leftRecursion | fault | exhausted => exact ⟨m', rfl⟩

/-- A choice is oblivious if its alternatives are. -/
theorem firstOf {ps : List (Parser Id)} (hps : ∀ p ∈ ps, p.Oblivious) (c : Checkpoint) :
    (firstOf c ps).Oblivious := by
  induction ps with
  | nil => exact mismatch
  | cons p rest ih =>
    obtain ⟨hp, hrest⟩ := List.forall_mem_cons.1 hps
    intro st m
    obtain ⟨v, st', m', heq, hmarked⟩ := hp.run st m
    unfold Parser.firstOf
    rw [heq, hmarked]
    cases v with
    | mismatch => exact ih hrest (st'.restore c) m'
    | ok | leftRecursion | fault | exhausted => exact ⟨m', rfl⟩

/-- An option is oblivious if its parser is. -/
theorem optional (hp : p.Oblivious) : (optional p).Oblivious := by
  intro st m
  obtain ⟨v, st', m', heq, hmarked⟩ := hp.attempt.run st m
  unfold Parser.optional
  rw [heq, hmarked]
  cases v <;> exact ⟨m', rfl⟩

/-- A negative lookahead is oblivious if its parser is. -/
theorem notAhead (hp : p.Oblivious) : (notAhead p).Oblivious := by
  intro st m
  obtain ⟨v, st', m', heq, hmarked⟩ := hp.lookahead.run st m
  unfold Parser.notAhead
  rw [heq, hmarked]
  cases v <;> exact ⟨m', rfl⟩

/-- A tag is oblivious if its parser is. -/
theorem tag (hp : p.Oblivious) (id : Id) : (tag id p).Oblivious := by
  intro st m
  obtain ⟨v, st', m', heq, hmarked⟩ := hp.attempt.run st m
  unfold Parser.tag
  rw [heq, hmarked]
  cases v with
  | ok => exact .ite Iff.rfl (fun _ => ⟨m', rfl⟩) fun _ => ⟨m', rfl⟩
  | mismatch | leftRecursion | fault | exhausted => exact ⟨m', rfl⟩

/-- Copies are oblivious if their parser is. -/
theorem iterate (hp : p.Oblivious) (n : Nat) : (iterate p n).Oblivious := by
  induction n with
  | zero => exact succeed
  | succ n ih =>
    intro st m
    obtain ⟨v, st', m', heq, hmarked⟩ := hp.run st m
    unfold Parser.iterate
    rw [heq, hmarked]
    cases v with
    | ok => exact ih st' m'
    | mismatch | leftRecursion | fault | exhausted => exact ⟨m', rfl⟩

/-! ## Loops and recovery -/

/-- The rounds of a loop are oblivious if their parser is. -/
theorem rounds (hp : p.Oblivious) (c : Checkpoint) (n : Nat) : (rounds p c n).Oblivious := by
  induction n with
  | zero => exact exhausted
  | succ n ih =>
    intro st m
    obtain ⟨v, st', m', heq, hmarked⟩ := hp.run st m
    unfold Parser.rounds
    rw [heq, hmarked]
    cases v with
    | ok => exact .ite Iff.rfl (fun _ => ⟨m', rfl⟩) fun _ => ih st' m'
    | mismatch | leftRecursion | fault | exhausted => exact ⟨m', rfl⟩

/-- A loop is oblivious if its parser is. -/
theorem star (hp : p.Oblivious) (bound : Nat) : (star bound p).Oblivious := fun st m =>
  hp.rounds st.checkpoint bound st m

/-- A loop of at least one run is oblivious if its parser is. -/
theorem plus (hp : p.Oblivious) (bound : Nat) : (plus bound p).Oblivious := by
  intro st m
  obtain ⟨v, st', m', heq, hmarked⟩ := hp.attempt.run st m
  unfold Parser.plus
  rw [heq, hmarked]
  cases v with
  | ok =>
    refine .ite Iff.rfl (fun _ => ⟨m', rfl⟩) fun _ => ?_
    exact ((hp.star bound).attempt st' m').settle st.checkpoint
  | mismatch | leftRecursion | fault | exhausted => exact ⟨m', rfl⟩

/-- A recovery is oblivious if its primary and its fallback are: the furthest position that
it reads was started anew for the primary. -/
theorem recover (hp : p.Oblivious) (hq : q.Oblivious) (s : Source α) (id : Id) :
    (recover s id q p).Oblivious := by
  intro st m
  -- what is measured begins at the cursor, whatever the mark was
  have hreset : (st.marked m).resetFurthest = st.resetFurthest := rfl
  refine .ite Iff.rfl (fun _ => hp st m) fun _ => ?_
  rw [hreset]
  generalize p st.resetFurthest = r
  obtain ⟨v, st'⟩ := r
  cases v with
  | mismatch =>
    have hback : (st'.mergeFurthest (st.marked m).furthest).restore (st.marked m).checkpoint =
        ((st'.mergeFurthest st.furthest).restore st.checkpoint).marked (max st'.furthest m) := rfl
    simp only [hback]
    generalize (st'.mergeFurthest st.furthest).restore st.checkpoint = back
    obtain ⟨v, st'', m', heq, hmarked⟩ := hq.run back (max st'.furthest m)
    rw [heq, hmarked]
    cases v <;> exact ⟨m', rfl⟩
  | ok | leftRecursion | fault | exhausted => exact ⟨_, rfl⟩

/-- A scan is oblivious if its target is. -/
theorem skip (hp : p.Oblivious) (s : Source α) (past : Bool) (n : Nat) :
    (skip s past p n).Oblivious := by
  induction n with
  | zero => exact exhausted
  | succ n ih =>
    intro st m
    obtain ⟨v, st', m', heq, hmarked⟩ := hp.run st m
    refine .ite Iff.rfl (fun _ => ⟨m, rfl⟩) fun _ => ?_
    rw [heq, hmarked]
    cases v with
    | ok => cases past <;> exact ⟨m', rfl⟩
    | mismatch => exact ih (st'.advance s 1) _
    | leftRecursion | fault | exhausted => exact ⟨m', rfl⟩

/-! ## Rules -/

/-- The growth rounds of a rule are oblivious if its body is. -/
theorem growRounds (hp : p.Oblivious) (s : Source α) (rule : Nat) (name : String) (c : Checkpoint)
    (n k : Nat) : (growRounds s rule name p c n k).Oblivious := by
  induction n generalizing k with
  | zero => exact exhausted
  | succ n ih =>
    intro st m
    have hsince : (st.marked m).since? c = st.since? c := rfl
    unfold Parser.growRounds
    rw [hsince]
    cases st.since? c with
    | none => exact ⟨m, rfl⟩
    | some records =>
      obtain ⟨forest, errors⟩ := records
      refine .ite Iff.rfl (fun _ => ⟨_, rfl⟩) fun _ => ?_
      have hagain : (((st.marked m).note (.growing name c.position (k + 1)
          (st.marked m).position)).restore c).setMode rule
            (.growing (st.marked m).position forest errors) =
          (((st.note (.growing name c.position (k + 1) st.position)).restore c).setMode rule
            (.growing st.position forest errors)).marked m := rfl
      simp only [hagain]
      generalize ((st.note (.growing name c.position (k + 1) st.position)).restore c).setMode rule
        (.growing st.position forest errors) = again
      obtain ⟨v, st', m', heq, hmarked⟩ := hp.run again m
      rw [heq, hmarked]
      cases v with
      | ok => exact .ite Iff.rfl (fun _ => ih (k + 1) st' m') fun _ => ⟨_, rfl⟩
      | mismatch => exact ⟨_, rfl⟩
      | leftRecursion | fault | exhausted => exact ⟨m', rfl⟩

/-- Growing a rule is oblivious if its body is. -/
theorem grow (hp : p.Oblivious) (s : Source α) (bound rule : Nat) (name : String)
    (position : Nat) : (grow s bound rule name position p).Oblivious := by
  intro st m
  have hseeding : (st.marked m).setMode rule .seeding = (st.setMode rule .seeding).marked m := rfl
  obtain ⟨v, st', m', heq, hmarked⟩ := hp.run (st.setMode rule .seeding) m
  refine .ite Iff.rfl (fun _ => ⟨m, rfl⟩) fun _ => ?_
  rw [hseeding, heq, hmarked]
  cases v with
  | ok =>
    obtain ⟨v, st'', m'', heq', hmarked'⟩ :=
      (hp.growRounds s rule name st.checkpoint bound 0).run st' m'
    have hplace : (st.marked m).checkpoint = st.checkpoint := rfl
    simp only [hplace, heq', hmarked']
    cases v <;> exact ⟨m'', rfl⟩
  | mismatch | leftRecursion | fault | exhausted => exact ⟨m', rfl⟩

/-- Entering a rule is oblivious if its body is. -/
theorem enter (hp : p.Oblivious) (s : Source α) (bound rule : Nat) (name : String) :
    (enter s bound rule name p).Oblivious := by
  intro st m
  have hleave : ∀ {r r' : Verdict × State Id}, Alike r r' →
      Alike (r.1, if r.1.isAnswer then (r.2.popFrame rule).note (.leave name st.position r.1)
          else r.2)
        (r'.1, if r'.1.isAnswer then (r'.2.popFrame rule).note (.leave name st.position r'.1)
          else r'.2) := by
    rintro ⟨v, st'⟩ r' ⟨m', rfl⟩
    cases v <;> exact ⟨m', rfl⟩
  have hentered : ((st.marked m).pushFrame rule).note (.enter name (st.marked m).position) =
      ((st.pushFrame rule).note (.enter name st.position)).marked m := rfl
  obtain ⟨v, st', m', heq, hmarked⟩ := hp.run ((st.pushFrame rule).note (.enter name st.position)) m
  unfold Parser.enter
  apply hleave
  rw [hentered, heq, hmarked]
  cases v with
  | leftRecursion cycle =>
    exact .ite Iff.rfl (fun _ => hp.grow s bound rule name st.position st' m') fun _ => ⟨m', rfl⟩
  | ok | mismatch | fault | exhausted => exact ⟨m', rfl⟩

/-- Invoking a rule is oblivious if its body is. -/
theorem invoke (hp : p.Oblivious) (s : Source α) (bound rule : Nat) (name : String) :
    (invoke s bound rule name p).Oblivious := by
  intro st m
  have hframe : (st.marked m).frame? rule = st.frame? rule := rfl
  have hposition : (st.marked m).position = st.position := rfl
  unfold Parser.invoke
  rw [hframe, hposition]
  cases (st.frame? rule).filter fun f => f.position == st.position with
  | none => exact hp.enter s bound rule name st m
  | some frame =>
    obtain ⟨i, position, mode⟩ := frame
    cases mode with
    | fresh => exact ⟨m, rfl⟩
    | seeding => exact ⟨m, rfl⟩
    | growing stop forest errors => exact ⟨_, rfl⟩

end Oblivious

end Parser

/-! ## Expressions and grammars -/

/-- The parsers of plain expressions are oblivious, if those of the rules are. -/
theorem Setting.oblivious {env : Setting α Id} (hcall : ∀ i, (env.call i).Oblivious)
    (e : Expr α Id) (he : e.isPlain = true) : (e.parser env).Oblivious := by
  have hparsers : ∀ items : List (Expr α Id), Expr.allPlain items = true →
      (∀ x ∈ items, x.isPlain = true → (x.parser env).Oblivious) →
      ∀ p ∈ Expr.parsers env items, p.Oblivious := by
    intro items hplain hall
    rw [Expr.parsers_eq_map]
    refine List.forall_mem_map.2 fun x hx => ?_
    exact hall x hx ((Expr.allPlain_iff items).1 hplain x hx)
  induction e, he using Expr.plain_induction with
  | satisfy test => exact .satisfy env.source test
  | literal tests => exact .literal env.source tests
  | endOfInput => exact .endOfInput env.source
  | rule i => exact hcall i
  | sequence es hes ih =>
    exact (Parser.Oblivious.inOrder (hparsers es hes ih)).attempt
  | choice es hes ih =>
    exact fun st => Parser.Oblivious.firstOf (hparsers es hes ih) st.checkpoint st
  | group e _ ih => exact ih
  | star e _ ih => exact ih.star env.bound
  | plus e _ ih => exact ih.plus env.bound
  | optional e _ ih => exact ih.optional
  | ahead e _ ih => exact ih.lookahead
  | notAhead e _ ih => exact ih.notAhead
  | times e n _ ih => exact (ih.iterate n).attempt
  | tag e id _ ih => exact ih.tag id
  | recover e id f _ _ _ ihe ihf => exact ihe.recover ihf env.source id
  | skipBefore e _ ih => exact ih.skip env.source false env.bound
  | skipPast e _ ih => exact ih.skip env.source true env.bound

namespace Grammar

variable {g : Grammar α Id}

/-- The rules of a plain grammar are oblivious, under every bound. -/
theorem call_oblivious (hg : g.isPlain = true) (s : Source α) (b i : Nat) :
    (g.call s b i).Oblivious := by
  induction b generalizing i with
  | zero => exact .exhausted
  | succ b ih =>
    unfold call
    split
    · exact .mismatch
    · next body hbody =>
      exact (Setting.oblivious ih body (isPlain_body hg hbody)).invoke s b i (g.name i)

/-- With another furthest position, a plain expression comes back with the same verdict and the same
state, up to the furthest position. -/
theorem setting_oblivious (hg : g.isPlain = true) (s : Source α) (b : Nat) {e : Expr α Id}
    (he : e.isPlain = true) : (e.parser (g.setting s b)).Oblivious :=
  Setting.oblivious (call_oblivious hg s b) e he

end Grammar

end Peg
