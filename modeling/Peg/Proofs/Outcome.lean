import Peg.Proofs.Law
import Peg.Proofs.Termination

/-!
# Outcomes as effects

The outcome of a parse is the effect of one run: that of the start expression, at the beginning of
the source and outside of all rules (`Grammar.exists_outcome`). So what holds of the effects of all
runs holds of all outcomes, and to compare two parses is to compare two runs.
-/

namespace Peg

variable {α Id : Type}

/-- The outcome of a parse whose start expression came back with a verdict and an effect. -/
def Effect.outcome (s : Source α) (v : Verdict) (toEnd : Bool) (a : Effect Id) : Outcome Id where
  success := decide (v = .ok) && (!toEnd || decide (s.size ≤ a.stop))
  forest := a.forest
  stop := a.stop
  furthest := a.reach
  errors := a.errors

/-- The log of such a parse, oldest entry first. -/
def Effect.log (rules : Nat) (s : Source α) (v : Verdict) (toEnd : Bool) (a : Effect Id) :
    List Event :=
  .started rules s.size :: (a.events.reverse ++
    [.finished (a.outcome s v toEnd).success a.stop a.reach a.forest.length a.errors.length])

namespace Grammar

variable {g : Grammar α Id} {s : Source α} {start : Expr α Id}

/-- The state in which the start expression is parsed. -/
theorem first_proper (g : Grammar α Id) (s : Source α) :
    (State.initial.note (.started g.size s.size) : State Id).Proper g s (g.enough s) :=
  (firstCall_sound (rfl : (Expr.endOfInput : Expr α Id).isPlain = true)).2

/-- What the start expression comes back with decides the outcome and the log. -/
theorem parseLogged_eq_of_run {v : Verdict} {a : Effect Id} (hvalid : g.validate = .ok ())
    (hv : v = .ok ∨ v = .mismatch)
    (heq : start.parser (g.setting s (g.enough s))
      (State.initial.note (.started g.size s.size)) =
        (v, a.on (State.initial.note (.started g.size s.size)))) (toEnd : Bool) :
    g.parseLogged s start toEnd = (.ok (a.outcome s v toEnd), a.log g.size s v toEnd) := by
  have hend : ∀ st : State Id, (a.on st).atEnd s = decide (s.size ≤ a.stop) := by
    intro st
    rw [State.atEnd, State.hasInput, Effect.on_position, Bool.not_eq_eq_eq_not, ← decide_not]
    exact decide_eq_decide.2 Nat.not_le.symm
  unfold parseLogged parseWithin
  simp only [hvalid, heq]
  rcases hv with rfl | rfl
  · simp only [hend]
    simp [Effect.outcome, Effect.log, Effect.on, State.note, State.initial]
  · simp [Effect.outcome, Effect.log, Effect.on, State.note, State.initial]

/-- What a parse reports is read off the effect of its start expression. -/
theorem parseLogged_of_run {v : Verdict} {a : Effect Id} (hvalid : g.validate = .ok ())
    (hv : v = .ok ∨ v = .mismatch)
    (heq : start.parser (g.setting s (g.enough s))
      (State.initial.note (.started g.size s.size)) =
        (v, a.on (State.initial.note (.started g.size s.size)))) (toEnd : Bool) :
    (g.parseLogged s start toEnd).1 = .ok (a.outcome s v toEnd) := by
  rw [parseLogged_eq_of_run hvalid hv heq]

/-- A parse with a grammar that is accepted is one run, which decides its outcome and its log. -/
theorem exists_parse (hg : g.isPlain = true) (hstart : start.isPlain = true)
    (hvalid : g.validate = .ok ()) (s : Source α) :
    ∃ v a, (v = .ok ∨ v = .mismatch) ∧
      Runs s (g.Derives Invokes s (g.depth s []) []) (.expr start) 0 v a ∧
      Conforms s (Frame.Signals ([] : List (Frame Id))) (.expr start) 0 v a ∧
      ∀ toEnd, g.parseLogged s start toEnd =
        (.ok (a.outcome s v toEnd), a.log g.size s v toEnd) := by
  obtain ⟨v, a, hrun, hconf, -⟩ := exists_done (t := .expr start) (invokes_lawful s)
    (invokes_realizedBy s) hg hstart (.nil s g.size 0) s.boundary_zero
  have hv := hconf.ok_or_mismatch
  have heq := (first_proper g s).parser_eq hg hstart hrun
  exact ⟨v, a, hv, hrun, hconf, parseLogged_eq_of_run hvalid hv heq⟩

/-- A parse with a grammar that is accepted has an outcome, and that is the effect of a run. -/
theorem exists_outcome (hg : g.isPlain = true) (hstart : start.isPlain = true)
    (hvalid : g.validate = .ok ()) (s : Source α) :
    ∃ v a, (v = .ok ∨ v = .mismatch) ∧
      Runs s (g.Derives Invokes s (g.depth s []) []) (.expr start) 0 v a ∧
      Conforms s (Frame.Signals ([] : List (Frame Id))) (.expr start) 0 v a ∧
      ∀ toEnd, (g.parseLogged s start toEnd).1 = .ok (a.outcome s v toEnd) := by
  obtain ⟨v, a, hv, hrun, hconf, hparse⟩ := exists_parse hg hstart hvalid s
  exact ⟨v, a, hv, hrun, hconf, fun toEnd => congrArg Prod.fst (hparse toEnd)⟩

/-- A grammar that is refused has no outcomes and no log. -/
theorem parseLogged_eq_refused {e : Error} (hvalid : g.validate = .error e) (s : Source α)
    (start : Expr α Id) (toEnd : Bool) :
    g.parseLogged s start toEnd = (.error (.error e), []) := by
  unfold parseLogged parseWithin
  simp only [hvalid]

/-- A grammar that does not pass the checks is refused before anything is parsed. -/
theorem parseLogged_refused {e : Error} (hvalid : g.validate = .error e) (s : Source α)
    (start : Expr α Id) (toEnd : Bool) :
    (g.parseLogged s start toEnd).1 = .error (.error e) := by
  rw [parseLogged_eq_refused hvalid]

/-- An outcome is the effect of a run. -/
theorem effect_of_outcome (hg : g.isPlain = true) (hstart : start.isPlain = true) {toEnd : Bool}
    {o : Outcome Id} (ho : (g.parseLogged s start toEnd).1 = .ok o) :
    ∃ v a, Runs s (g.Derives Invokes s (g.depth s []) []) (.expr start) 0 v a ∧
      Conforms s (Frame.Signals ([] : List (Frame Id))) (.expr start) 0 v a ∧
      o = a.outcome s v toEnd := by
  cases hvalid : g.validate with
  | error e =>
    rw [parseLogged_refused hvalid] at ho
    cases ho
  | ok _ =>
    obtain ⟨v, a, -, hrun, hconf, hout⟩ := exists_outcome hg hstart hvalid s
    rw [hout toEnd] at ho
    cases ho
    exact ⟨v, a, hrun, hconf, rfl⟩

/-- Every outcome has what is an invariant of effects. -/
theorem outcome_keeps {Q : Nat → Effect Id → Prop} (hQ : Effect.Invariant s Q)
    (hg : g.isPlain = true) (hstart : start.isPlain = true) {toEnd : Bool} {o : Outcome Id}
    (ho : (g.parseLogged s start toEnd).1 = .ok o) :
    ∃ v a, a.Within s 0 ∧ Q 0 a ∧ o = a.outcome s v toEnd := by
  obtain ⟨v, a, hrun, hconf, rfl⟩ := effect_of_outcome hg hstart ho
  have hnil : Stack s g.size 0 ([] : List (Frame Id)) := .nil s g.size 0
  refine ⟨v, a, hconf.toWithin, ?_, rfl⟩
  refine hrun.keeps hQ.toLaw (regular (invokes_lawful s) _ hnil) ?_ (Nat.le_refl 0) s.boundary_zero
  intro i p w b hp hbp hi
  exact derives_keeps hQ _ hnil nofun hp hbp hi

end Grammar

end Peg
