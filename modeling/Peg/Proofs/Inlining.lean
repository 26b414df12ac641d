import Peg.Proofs.Derives

/-!
# Rules as abbreviations

The plainest meaning of a rule is its definition: a reference to the rule is parsed by parsing the
definition, with no frame, no answer of a frame and no signal (`Grammar.inlineSetting`). On a
left-recursive rule this does not come to an end, so it is cut off under every bound. A parse that
does come to an end is not cut off under a bound that is large enough.

`Grammar.Unfolds` is the relation that goes with it: what a rule does if references are replaced by
definitions at most so often.

* `Grammar.unfolds_does`: what is derivable is what the parser does, so there is at most one result
  (`Grammar.unfolds_unique`);
* `Grammar.exists_runs_of_inline`: a run that was not cut off is derivable.

For the second, every combinator is shown to have a derivable outcome or to be cut off, if that
holds of its parts (`Parser.Decided`).
-/

namespace Peg

variable {α Id : Type}

/-- Parses a rule by parsing its body. -/
def Parser.inline (_ : Source α) (_ _ : Nat) (_ : String) (body : Parser Id) : Parser Id := body

namespace Grammar

/-- The setting in which every rule stands for its definition. -/
def inlineSetting (g : Grammar α Id) (s : Source α) (bound : Nat) : Setting α Id :=
  g.settingBy Parser.inline s bound

/-- What a rule does if references are replaced by definitions, in a nesting of at most the given
depth. -/
def Unfolds (g : Grammar α Id) (s : Source α) : Nat → Nat → Nat → Verdict → Effect Id → Prop
  | 0 => fun _ _ _ _ => False
  | depth + 1 => fun i pos v a =>
    match g.body? i with
    | none => v = .mismatch ∧ a = .jump pos
    | some e => Runs s (Unfolds g s depth) (.expr e) pos v a

section unfolds

variable {g : Grammar α Id} {s : Source α} {n i p : Nat} {v w : Verdict} {a b : Effect Id}

/-- Rules that are replaced by their definitions keep to the laws of runs and do not signal. -/
theorem unfolds_regular (g : Grammar α Id) (s : Source α) (n : Nat) :
    Regular s (fun _ _ => False) 0 (g.Unfolds s n) := by
  induction n with
  | zero => exact ⟨nofun, nofun⟩
  | succ n ih =>
    refine ⟨fun i p v a _ hp h => ?_, nofun⟩
    cases hbody : g.body? i with
    | none =>
      simp only [Unfolds, hbody] at h
      obtain ⟨rfl, rfl⟩ := h
      exact ⟨.jump hp, rfl, fun _ _ => Effect.silent_jump p, nofun⟩
    | some e =>
      simp only [Unfolds, hbody] at h
      exact { h.conforms ih (Nat.zero_le p) hp with }

/-- One more level of nesting changes no result. -/
theorem unfolds_succ (h : g.Unfolds s n i p v a) : g.Unfolds s (n + 1) i p v a := by
  induction n generalizing i p v a with
  | zero => exact h.elim
  | succ n ih =>
    unfold Unfolds at h ⊢
    split at h
    · exact h
    · exact h.mono fun _ _ _ _ hj => ih hj

/-- A result in a nesting of some depth is one in every greater depth. -/
theorem unfolds_mono {m : Nat} (hnm : n ≤ m) (h : g.Unfolds s n i p v a) :
    g.Unfolds s m i p v a := by
  induction hnm with
  | refl => exact h
  | step _ ih => exact unfolds_succ ih

/-- The parser of a rule does what is derivable for it, whatever the frames are. -/
theorem unfolds_does {bound : Nat} (hbound : n + s.size < bound) (hp : s.Boundary p)
    (h : g.Unfolds s n i p v a) (fs : List (Frame Id)) :
    (g.callBy Parser.inline s bound i).Does fs p v a := by
  induction n generalizing bound i p v a with
  | zero => exact h.elim
  | succ n ih =>
    obtain ⟨bound, rfl⟩ : ∃ k, bound = k + 1 := ⟨bound - 1, by omega⟩
    cases hbody : g.body? i with
    | none =>
      simp only [Unfolds, hbody] at h
      obtain ⟨rfl, rfl⟩ := h
      simp only [callBy, hbody]
      exact Parser.does_mismatch
    | some e =>
      simp only [Unfolds, hbody] at h
      simp only [callBy, hbody, Parser.inline]
      have hloops : (g.inlineSetting s bound).source.size < bound := show s.size < bound by omega
      have hdone : Task.Done (g.inlineSetting s bound) fs p v a (.expr e) := by
        refine h.does (unfolds_regular g s n) (fun j q w b _ hbq hj => ?_) hloops (Nat.zero_le p) hp
        exact ih (by omega) hbq hj
      exact hdone

/-- A rule that is replaced by its definition comes out in one way only. -/
theorem unfolds_unique (hp : s.Boundary p) (h : g.Unfolds s n i p v a)
    (h' : g.Unfolds s n i p w b) : v = w ∧ a = b := by
  have hreach := ((unfolds_regular g s n).conforms i p v a (Nat.zero_le p) hp h).le_reach
  have hreach' := ((unfolds_regular g s n).conforms i p w b (Nat.zero_le p) hp h').le_reach
  exact (unfolds_does (Nat.lt_succ_self _) hp h []).unique
    (unfolds_does (Nat.lt_succ_self _) hp h' []) hreach hreach'

end unfolds

end Grammar

/-! ## Parsers that come out or are cut off -/

namespace Parser

/-- A parser uses up its bound wherever it is started at a place. -/
def GivesUp (p : Parser Id) (fs : List (Frame Id)) (pos : Nat) : Prop :=
  ∀ st : State Id, st.At fs pos → ∃ st', p st = (.exhausted, st')

/-- A parser does one of the things that are derivable, or it uses up its bound. -/
def Decided (p : Parser Id) (fs : List (Frame Id)) (pos : Nat) (R : Verdict → Effect Id → Prop) :
    Prop :=
  (∃ v a, R v a ∧ p.Does fs pos v a) ∨ p.GivesUp fs pos

variable {p q : Parser Id} {ps : List (Parser Id)} {fs : List (Frame Id)} {pos : Nat}
  {R R' : Verdict → Effect Id → Prop} {v : Verdict} {a : Effect Id}

/-- A parser that does something derivable is decided. -/
theorem Decided.of_does (hR : R v a) (hp : p.Does fs pos v a) : p.Decided fs pos R :=
  Or.inl ⟨v, a, hR, hp⟩

/-- A parser that is cut off with another one is decided if it is whenever the other one comes
out. -/
theorem Decided.imp (h : p.Decided fs pos R)
    (hdoes : ∀ v a, R v a → p.Does fs pos v a → q.Decided fs pos R')
    (hgives : p.GivesUp fs pos → q.GivesUp fs pos) : q.Decided fs pos R' := by
  rcases h with ⟨v, a, hR, hp⟩ | hp
  · exact hdoes v a hR hp
  · exact Or.inr (hgives hp)

namespace GivesUp

/-- An attempt gives up if its parser does. -/
theorem attempt (h : p.GivesUp fs pos) : (attempt p).GivesUp fs pos := by
  intro st hst
  obtain ⟨st', heq⟩ := h st hst
  exact ⟨st', by rw [Parser.attempt, heq]; rfl⟩

/-- A lookahead gives up if its parser does. -/
theorem lookahead (h : p.GivesUp fs pos) : (lookahead p).GivesUp fs pos := by
  intro st hst
  obtain ⟨st', heq⟩ := h st hst
  exact ⟨st', by rw [Parser.lookahead, heq]; rfl⟩

/-- A row gives up if its first parser does. -/
theorem inOrder (h : p.GivesUp fs pos) : (inOrder (p :: ps)).GivesUp fs pos := by
  intro st hst
  obtain ⟨st', heq⟩ := h st hst
  exact ⟨st', by simp only [Parser.inOrder, heq]⟩

/-- A row gives up if the rest does, after a first parser that matches. -/
theorem inOrder_rest (hp : p.Does fs pos .ok a) (ha : a.stop ≤ a.reach)
    (h : (Parser.inOrder ps).GivesUp fs a.stop) : (Parser.inOrder (p :: ps)).GivesUp fs pos := by
  intro st hst
  obtain ⟨st', heq⟩ := h _ (Effect.on_at hst ha)
  exact ⟨st', by simp only [Parser.inOrder, hp st hst, heq]⟩

/-- A choice gives up if its first alternative does. -/
theorem choice (h : p.GivesUp fs pos) : (choice (p :: ps)).GivesUp fs pos := by
  intro st hst
  obtain ⟨st', heq⟩ := h st hst
  exact ⟨st', by simp only [Parser.choice, firstOf, heq]; rfl⟩

/-- A choice gives up if the rest does, after a first alternative that does not match. -/
theorem choice_rest (hp : p.Does fs pos .mismatch a) (ha : pos ≤ a.reach)
    (h : (Parser.choice ps).GivesUp fs pos) : (Parser.choice (p :: ps)).GivesUp fs pos := by
  intro st hst
  obtain ⟨st', heq⟩ := h ((a.undo pos).on st) (Effect.on_at hst ha)
  have hback : ((a.undo pos).on st).checkpoint = st.checkpoint := by
    simp [State.checkpoint, Effect.undo, Effect.on, hst.position_eq]
  rw [Parser.choice, hback] at heq
  exact ⟨st', by
    simp only [Parser.choice, firstOf, hp st hst, Effect.on_restore, hst.position_eq, heq]⟩

/-- An option gives up if its parser does. -/
theorem optional (h : p.GivesUp fs pos) : (optional p).GivesUp fs pos := by
  intro st hst
  obtain ⟨st', heq⟩ := h.attempt st hst
  exact ⟨st', by simp only [Parser.optional, heq]⟩

/-- A negative lookahead gives up if its parser does. -/
theorem notAhead (h : p.GivesUp fs pos) : (notAhead p).GivesUp fs pos := by
  intro st hst
  obtain ⟨st', heq⟩ := h.lookahead st hst
  exact ⟨st', by simp only [Parser.notAhead, heq]⟩

/-- A tag gives up if its parser does. -/
theorem tag (id : Id) (h : p.GivesUp fs pos) : (tag id p).GivesUp fs pos := by
  intro st hst
  obtain ⟨st', heq⟩ := h.attempt st hst
  exact ⟨st', by simp only [Parser.tag, heq]⟩

/-- A loop of at least one run gives up if the first run does. -/
theorem plus {bound : Nat} (h : p.GivesUp fs pos) : (plus bound p).GivesUp fs pos := by
  intro st hst
  obtain ⟨st', heq⟩ := h.attempt st hst
  exact ⟨st', by simp only [Parser.plus, heq]⟩

/-- A loop of at least one run gives up if the rest does, after a first run that moved. -/
theorem plus_rest {bound : Nat} (hp : p.Does fs pos .ok a) (ha : a.stop ≤ a.reach)
    (hmoved : a.stop ≠ pos) (h : (star bound p).GivesUp fs a.stop) :
    (Parser.plus bound p).GivesUp fs pos := by
  intro st hst
  obtain ⟨st', heq⟩ := h.attempt _ (Effect.on_at hst ha)
  refine ⟨st', ?_⟩
  simp only [Parser.plus, hp.attempt st hst, Effect.settle_ok, Effect.on_position, hst.position_eq,
    if_neg hmoved, heq]
  rfl

variable {s : Source α} {f : Parser Id} {id : Id}

/-- A recovery gives up if its primary does. -/
theorem recover (h : p.GivesUp fs pos) : (recover s id f p).GivesUp fs pos := by
  intro st hst
  obtain ⟨st', heq⟩ := h st hst
  obtain ⟨st'', heq'⟩ := h _ hst.resetFurthest
  by_cases hend : st.atEnd s = true
  · exact ⟨st', by rw [Parser.recover, if_pos hend, heq]⟩
  · exact ⟨st'', by rw [Parser.recover, if_neg hend, heq']; rfl⟩

/-- A recovery gives up if its fallback does, after a primary that does not match. -/
theorem recover_rest (hp : p.Does fs pos .mismatch a) (hlt : pos < s.size) (ha : pos ≤ a.reach)
    (h : f.GivesUp fs pos) : (Parser.recover s id f p).GivesUp fs pos := by
  intro st hst
  obtain ⟨st', heq⟩ := h ((a.undo pos).on st) (Effect.on_at hst ha)
  refine ⟨st', ?_⟩
  rw [Parser.recover, if_neg (mt hst.atEnd_iff.1 (Nat.not_le.2 hlt)), hp _ hst.resetFurthest]
  simp only [merge_on_reset hst ha, Effect.on_restore, hst.position_eq, heq]
  rfl

end GivesUp

end Parser

section expressions

variable {env : Setting α Id} {C : Nat → Nat → Verdict → Effect Id → Prop} {fs : List (Frame Id)}
  {e f : Expr α Id} {es : List (Expr α Id)} {pos : Nat}

/-- What is to be shown of an expression at a position. -/
def Expr.Decided (env : Setting α Id) (C : Nat → Nat → Verdict → Effect Id → Prop)
    (fs : List (Frame Id)) (e : Expr α Id) : Prop :=
  ∀ pos, env.source.Boundary pos →
    (e.parser env).Decided fs pos (Runs env.source C (.expr e) pos)

/-- A terminal is decided by what it reads. -/
theorem Expr.decided_reads {r : Option Nat} (h : Reads env.source pos e r) :
    (e.parser env).Decided fs pos (Runs env.source C (.expr e) pos) := by
  cases r with
  | none => exact .of_does (.misses h) h.does
  | some stop => exact .of_does (.reads h) h.does

variable (hC : Regular env.source (fun _ _ => False) 0 C)

include hC

/-- Items in a row are decided if each is, wherever the one before it stopped. -/
theorem Expr.decided_items (h : ∀ e ∈ es, e.Decided env C fs) (hpos : env.source.Boundary pos) :
    (Parser.inOrder (Expr.parsers env es)).Decided fs pos (Runs env.source C (.items es) pos) := by
  induction es generalizing pos with
  | nil => exact .of_does .itemsNil Parser.does_succeed
  | cons e es ih =>
    obtain ⟨he, hes⟩ := List.forall_mem_cons.1 h
    refine (he pos hpos).imp (fun v a hrun hdoes => ?_) Parser.GivesUp.inOrder
    have ha := hrun.conforms hC (Nat.zero_le pos) hpos
    by_cases hv : v = .ok
    · subst hv
      rcases ih hes ha.boundary with ⟨w, b, hrest, hb⟩ | hgives
      · exact .of_does (.itemsCons hrun hrest) (hdoes.inOrder_cons ha.stop_le_reach hb)
      · exact Or.inr (.inOrder_rest hdoes ha.stop_le_reach hgives)
    · exact .of_does (.itemsFail hrun hv) (hdoes.inOrder_fail hv)

/-- A choice is decided if its alternatives are. -/
theorem Expr.decided_choice (h : ∀ e ∈ es, e.Decided env C fs) :
    (Expr.choice es).Decided env C fs := by
  intro pos hpos
  induction es with
  | nil => exact .of_does .choiceNil Parser.does_mismatch
  | cons e es ih =>
    obtain ⟨he, hes⟩ := List.forall_mem_cons.1 h
    refine (he pos hpos).imp (fun v a hrun hdoes => ?_) Parser.GivesUp.choice
    have ha := (hrun.conforms hC (Nat.zero_le pos) hpos).le_reach
    by_cases hv : v = .mismatch
    · subst hv
      refine (ih hes).imp (fun w b hrest hb => ?_) (Parser.GivesUp.choice_rest hdoes ha)
      exact .of_does (.choiceNext hrun hrest) (hdoes.choice_next ha hb)
    · exact .of_does (.choiceDone hrun hv) (hdoes.choice_done hv)

/-- The rounds of a loop end with a match, or use up their bound. -/
theorem Expr.decided_rounds (he : e.Decided env C fs) (n : Nat) (hpos : env.source.Boundary pos) :
    (∃ a, Runs env.source C (.loop e) pos .ok a ∧ ∀ c st, st.At fs pos →
      Parser.rounds (e.parser env) c n st = (.ok, a.on st)) ∨
    ∀ c st, st.At fs pos → ∃ st', Parser.rounds (e.parser env) c n st = (.exhausted, st') := by
  induction n generalizing pos with
  | zero => exact Or.inr fun c st _ => ⟨st, rfl⟩
  | succ n ih =>
    rcases he pos hpos with ⟨v, a, hrun, hdoes⟩ | hgives
    · have ha := hrun.conforms hC (Nat.zero_le pos) hpos
      rcases ha.matches_or_not (fun _ => not_false) with rfl | rfl
      · by_cases hstay : a.stop = pos
        · exact Or.inl ⟨a, .loopStay hrun hstay, fun c st => Parser.rounds_stay hdoes hstay⟩
        · rcases ih ha.boundary with ⟨b, hrest, hb⟩ | hgives
          · refine Or.inl ⟨_, .loopMore hrun hstay hrest, fun c st hst => ?_⟩
            rw [Parser.rounds_more hdoes hstay hst, hb c _ (Effect.on_at hst ha.stop_le_reach),
              Effect.andThen_on]
          · refine Or.inr fun c st hst => ?_
            rw [Parser.rounds_more hdoes hstay hst]
            exact hgives c _ (Effect.on_at hst ha.stop_le_reach)
      · exact Or.inl ⟨_, .loopEnd hrun, fun c st => Parser.rounds_end hdoes⟩
    · refine Or.inr fun c st hst => ?_
      obtain ⟨st', heq⟩ := hgives st hst
      exact ⟨st', by simp only [Parser.rounds, heq]; rfl⟩

/-- A loop is decided if its expression is. -/
theorem Expr.decided_star (he : e.Decided env C fs) : (Expr.star e).Decided env C fs := by
  intro pos hpos
  rcases Expr.decided_rounds hC he env.bound hpos with ⟨a, hrun, hrounds⟩ | hgives
  · exact .of_does (.star hrun) fun st hst => hrounds st.checkpoint st hst
  · exact Or.inr fun st hst => hgives st.checkpoint st hst

/-- A loop of at least one run is decided if its expression is. -/
theorem Expr.decided_plus (he : e.Decided env C fs) : (Expr.plus e).Decided env C fs := by
  intro pos hpos
  refine (he pos hpos).imp (fun v a hrun hdoes => ?_) Parser.GivesUp.plus
  have ha := hrun.conforms hC (Nat.zero_le pos) hpos
  by_cases hmore : v = .ok ∧ a.stop ≠ pos
  · obtain ⟨rfl, hmoved⟩ := hmore
    rcases Expr.decided_rounds hC he env.bound ha.boundary with ⟨b, hrest, hrounds⟩ | hgives
    · refine .of_does (.plusMore hrun hmoved hrest) (hdoes.plus_more ha.stop_le_reach hmoved ?_)
      exact fun st hst => hrounds st.checkpoint st hst
    · refine Or.inr (.plus_rest hdoes ha.stop_le_reach hmoved fun st hst => ?_)
      exact hgives st.checkpoint st hst
  · have hstay : v = .ok → a.stop = pos := fun hv =>
      Decidable.byContradiction fun hne => hmore ⟨hv, hne⟩
    exact .of_does (.plusOnce hrun hstay) (hdoes.plus_once hstay)

/-- A recovery is decided if its primary and its fallback are. -/
theorem Expr.decided_recover (he : e.Decided env C fs) (hf : f.Decided env C fs) (id : Id) :
    (Expr.recover e id f).Decided env C fs := by
  intro pos hpos
  refine (he pos hpos).imp (fun v a hrun hdoes => ?_) Parser.GivesUp.recover
  have ha := hrun.conforms hC (Nat.zero_le pos) hpos
  by_cases hend : env.source.size ≤ pos
  · exact .of_does (.recoverAtEnd hend hrun) (hdoes.recover_atEnd hend)
  have hlt := Nat.lt_of_not_le hend
  by_cases hv : v = .mismatch
  · subst hv
    refine (hf pos hpos).imp (fun w b hrun' hdoes' => ?_)
      (Parser.GivesUp.recover_rest hdoes hlt ha.le_reach)
    have hparser : ∀ st : State Id, st.At fs pos → _ := fun st hst =>
      hdoes.recover_fallback id hlt ha.le_reach hdoes' hst
    by_cases hw : w = .ok
    · subst hw
      exact .of_does (.recoverOk hlt hrun hrun') hparser
    · refine .of_does (.recoverFail hlt hrun hrun' hw) fun st hst => ?_
      cases w with
      | ok => exact absurd rfl hw
      | mismatch | leftRecursion | fault | exhausted => exact hparser st hst
  · exact .of_does (.recoverPass hlt hrun hv) (hdoes.recover_pass hlt ha.le_reach ha.answer hv)

/-- A scan is decided if its target is, at every element that is left. -/
theorem Expr.decided_skip (he : e.Decided env C fs) (past : Bool) (n : Nat)
    (hpos : env.source.Boundary pos) :
    (Parser.skip env.source past (e.parser env) n).Decided fs pos
      (Runs env.source C (.skip past e) pos) := by
  induction n generalizing pos with
  | zero => exact Or.inr fun st _ => ⟨st, rfl⟩
  | succ n ih =>
    by_cases hend : env.source.size ≤ pos
    · exact .of_does (.skipAtEnd hend) (Parser.does_skip_atEnd hend)
    have hlt := Nat.lt_of_not_le hend
    have hgoes : ∀ st : State Id, st.At fs pos → ¬ st.atEnd env.source = true := fun st hst =>
      mt hst.atEnd_iff.1 hend
    refine (he pos hpos).imp (fun v a hrun hdoes => ?_) fun hgives st hst => ?_
    · have ha := hrun.conforms hC (Nat.zero_le pos) hpos
      rcases ha.matches_or_not (fun _ => not_false) with rfl | rfl
      · exact .of_does (.skipFound hlt hrun) (hdoes.skip_found hlt ha.toWithin)
      · have hstop := (ha.silent rfl rfl).stop_eq
        have hnext : env.source.Boundary (env.source.walk a.stop 1) := hstop ▸ hpos.walk 1
        rcases ih hnext with ⟨w, b, hrest, hb⟩ | hgives
        · have hreach := (hrest.conforms hC (Nat.zero_le _) hnext).le_reach
          exact .of_does (.skipNext hlt hrun hrest) (hdoes.skip_next hlt hreach hb)
        · refine Or.inr fun st hst => ?_
          obtain ⟨st', heq⟩ := hgives ((a.on st).advance env.source 1)
            ⟨rfl, hst.frames_eq, Nat.le_max_right _ _⟩
          exact ⟨st', by simp only [Parser.skip, if_neg (hgoes st hst), hdoes st hst, heq]⟩
    · obtain ⟨st', heq⟩ := hgives st hst
      exact ⟨st', by simp only [Parser.skip, if_neg (hgoes st hst), heq]⟩

/-- Every plain expression comes out as is derivable or uses up its bound, if every rule does. -/
theorem Expr.decided_of_isPlain (hrule : ∀ i, (Expr.rule i).Decided env C fs) (e : Expr α Id)
    (he : e.isPlain = true) : e.Decided env C fs := by
  induction e, he using Expr.plain_induction with
  | satisfy test => exact fun _ _ => Expr.decided_reads (.satisfy test)
  | literal tests => exact fun _ _ => Expr.decided_reads (.literal tests)
  | endOfInput => exact fun _ _ => Expr.decided_reads .endOfInput
  | rule i => exact hrule i
  | sequence es h ih =>
    intro pos hpos
    have hall := fun e he => ih e he ((Expr.allPlain_iff es).1 h e he)
    refine (Expr.decided_items hC hall hpos).imp (fun v a hrun hdoes => ?_) Parser.GivesUp.attempt
    exact .of_does (.sequence hrun) hdoes.attempt
  | choice es h ih =>
    exact Expr.decided_choice hC fun e he => ih e he ((Expr.allPlain_iff es).1 h e he)
  | group e h ih =>
    intro pos hpos
    exact (ih pos hpos).imp (fun v a hrun hdoes => .of_does (.group hrun) hdoes)
      fun hgives => hgives
  | star e h ih => exact Expr.decided_star hC ih
  | plus e h ih => exact Expr.decided_plus hC ih
  | optional e h ih =>
    intro pos hpos
    refine (ih pos hpos).imp (fun v a hrun hdoes => ?_) Parser.GivesUp.optional
    exact .of_does (.optional hrun) hdoes.optional
  | ahead e h ih =>
    intro pos hpos
    refine (ih pos hpos).imp (fun v a hrun hdoes => ?_) Parser.GivesUp.lookahead
    have hanswer := (hrun.conforms hC (Nat.zero_le pos) hpos).answer
    exact .of_does (.ahead hrun) (hdoes.lookahead hanswer)
  | notAhead e h ih =>
    intro pos hpos
    refine (ih pos hpos).imp (fun v a hrun hdoes => ?_) Parser.GivesUp.notAhead
    have hanswer := (hrun.conforms hC (Nat.zero_le pos) hpos).answer
    exact .of_does (.notAhead hrun) (hdoes.notAhead hanswer)
  | times e n h ih =>
    intro pos hpos
    have hcopies : ∀ e' ∈ List.replicate n e, e'.Decided env C fs := fun e' he' =>
      List.eq_of_mem_replicate he' ▸ ih
    have hparser : (Expr.times e n).parser env =
        Parser.attempt (Parser.inOrder (Expr.parsers env (List.replicate n e))) := by
      rw [Expr.parsers_eq_map, List.map_replicate, ← Parser.iterate_eq_inOrder]
      rfl
    rw [hparser]
    refine (Expr.decided_items hC hcopies hpos).imp (fun v a hrun hdoes => ?_)
      Parser.GivesUp.attempt
    exact .of_does (.times hrun) hdoes.attempt
  | tag e id h ih =>
    intro pos hpos
    refine (ih pos hpos).imp (fun v a hrun hdoes => ?_) (Parser.GivesUp.tag id)
    by_cases hv : v = .ok
    · subst hv
      exact .of_does (.tagOk hrun) (hdoes.tag_ok id)
    · exact .of_does (.tagFail hrun hv) (hdoes.tag_fail id hv)
  | recover e id f h he hf ihe ihf => exact Expr.decided_recover hC ihe ihf id
  | skipBefore e h ih =>
    intro pos hpos
    refine (Expr.decided_skip hC ih false env.bound hpos).imp (fun v a hrun hdoes => ?_) id
    exact .of_does (.skipBefore hrun) hdoes
  | skipPast e h ih =>
    intro pos hpos
    refine (Expr.decided_skip hC ih true env.bound hpos).imp (fun v a hrun hdoes => ?_) id
    exact .of_does (.skipPast hrun) hdoes

end expressions

namespace Grammar

/-- A rule that is replaced by its definition comes out as is derivable or uses up its bound. -/
theorem rule_decided {g : Grammar α Id} (hg : g.isPlain = true) (s : Source α) (n : Nat)
    (fs : List (Frame Id)) (i : Nat) :
    (Expr.rule i).Decided (g.inlineSetting s n) (g.Unfolds s n) fs := by
  induction n generalizing i with
  | zero => exact fun _ _ => Or.inr fun st _ => ⟨st, rfl⟩
  | succ n ih =>
    intro pos hpos
    show (g.callBy Parser.inline s (n + 1) i).Decided fs pos _
    cases hbody : g.body? i with
    | none =>
      simp only [callBy, hbody]
      exact .of_does (.rule (by simp [Unfolds, hbody])) Parser.does_mismatch
    | some e =>
      simp only [callBy, hbody, Parser.inline]
      have hexpr := Expr.decided_of_isPlain (unfolds_regular g s n) ih e (isPlain_body hg hbody)
      refine (hexpr pos hpos).imp (fun v a hrun hdoes => ?_) id
      have hunfolds : g.Unfolds s (n + 1) i pos v a := by
        simp only [Unfolds, hbody]
        exact hrun
      exact .of_does (.rule hunfolds) hdoes

/-- A run in which rules stood for their definitions, and which was not cut off, is derivable. -/
theorem exists_runs_of_inline {g : Grammar α Id} (hg : g.isPlain = true) {s : Source α} {n : Nat}
    {e : Expr α Id} (he : e.isPlain = true) {st st' : State Id} {v : Verdict}
    (hboundary : s.Boundary st.position) (hle : st.position ≤ st.furthest)
    (heq : e.parser (g.inlineSetting s n) st = (v, st')) (hv : v ≠ .exhausted) :
    ∃ a, Runs s (g.Unfolds s n) (.expr e) st.position v a ∧ st' = a.on st := by
  have hst : st.At st.frames st.position := ⟨rfl, rfl, hle⟩
  have hexpr : e.Decided (g.inlineSetting s n) (g.Unfolds s n) st.frames :=
    Expr.decided_of_isPlain (unfolds_regular g s n) (rule_decided hg s n st.frames) e he
  rcases hexpr st.position hboundary with ⟨w, a, hrun, hdoes⟩ | hgives
  · rw [hdoes st hst] at heq
    cases heq
    exact ⟨a, hrun, rfl⟩
  · obtain ⟨st'', hcut⟩ := hgives st hst
    rw [hcut] at heq
    cases heq
    exact absurd rfl hv

end Grammar

end Peg
