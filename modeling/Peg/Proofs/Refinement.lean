import Mathlib.Data.List.Forall2
import Peg.Proofs.Reference

/-!
# The engine refines the interpreter without signals

The engine parses the body of a rule in the hope that the rule is not left-recursive, and starts
over when a signal says otherwise. The reference interpreter of `Peg.Proofs.Reference` does nothing
of the kind. Nevertheless both come out with the same verdict, the same cursor, the same records and
the same furthest position: `Grammar.parser_agrees_with_reference`.

The proof is a simulation. A run of the engine that is not given up is a run of the reference, for
any answers the reference has for the rules that are still fresh in the engine: such a run never
asked them (`Follows.same`). Of a run that is given up on a signal only one trace remains, the
furthest position, and the reference gets at least as far when it goes on where the engine stops
(`Follows.ahead`). Since the reference parses from the same place as the engine that starts over,
nothing that the engine reached in vain shows in the end.
-/

namespace Peg

variable {α Id : Type}

/-- How a run of the reference goes with a run of the engine. -/
inductive Follows : Verdict → Effect Id → Verdict → Effect Id → Prop
  /-- The two are the same apart from the log. -/
  | same {v : Verdict} {a : Effect Id} (l : List Event) : Follows v a v (a.logged l)
  /-- The engine gave up on a signal, and the reference got at least as far. -/
  | ahead {q : Nat} {a b : Effect Id} {w : Verdict} :
      a.reach ≤ b.reach → Follows (.leftRecursion q) a w b

namespace Follows

variable {v w : Verdict} {a b b' : Effect Id}

/-- The reference gets at least as far as the engine. -/
theorem reach_le (h : Follows v a w b) : a.reach ≤ b.reach := by
  cases h with
  | same l => exact Nat.le_refl _
  | ahead h => exact h

/-- Following is kept when failures are taken back. -/
theorem settle (h : Follows v a w b) (pos : Nat) :
    Follows v (a.settle v pos) w (b.settle w pos) := by
  cases h with
  | same l =>
    rw [Effect.logged_settle]
    exact .same l
  | ahead h =>
    apply ahead
    rw [Effect.settle_reach, Effect.settle_reach]
    exact h

/-- Following is kept after an effect that both have, apart from the log. -/
theorem andThen (l : List Event) (h : Follows v b w b') :
    Follows v (a.andThen b) w ((a.logged l).andThen b') := by
  cases h with
  | same l' => exact .same (l' ++ l)
  | ahead h => exact .ahead (max_le_max_left _ h)

end Follows

/-! ## Runs of expressions -/

section runs

variable {s : Source α} {L L' : Nat → Nat → Prop} {floor : Nat}
  {C C' : Nat → Nat → Verdict → Effect Id → Prop}

/-- Copies of a plain expression are plain. -/
theorem Expr.allPlain_replicate {e : Expr α Id} (he : e.isPlain = true) (n : Nat) :
    Expr.allPlain (List.replicate n e) = true :=
  (Expr.allPlain_iff _).2 fun e' he' => by rwa [List.eq_of_mem_replicate he']

/-- If the rules of the reference follow the rules of the engine, then so do all plain tasks. -/
theorem Runs.followed (hC : Regular s L floor C) (hC' : Regular s L' floor C')
    (hrule : ∀ i, (Task.expr (.rule i) : Task α Id).Runnable s C' floor)
    (hcall : ∀ i p v a, floor ≤ p → s.Boundary p → C i p v a →
      ∃ w b, C' i p w b ∧ Follows v a w b)
    {t : Task α Id} (ht : t.isPlain = true) {pos : Nat} {v : Verdict} {a : Effect Id}
    (h : Runs s C t pos v a) (hfloor : floor ≤ pos) (hpos : s.Boundary pos) :
    ∃ w b, Runs s C' t pos w b ∧ Follows v a w b := by
  -- where the engine gives up, the reference goes on, and comes out somehow
  have hgoes : ∀ t : Task α Id, t.isPlain = true → t.Runnable s C' floor :=
    Task.runnable_of_isPlain hC' hrule
  induction h with
  | reads hr => exact ⟨_, _, .reads hr, .same []⟩
  | misses hr => exact ⟨_, _, .misses hr, .same []⟩
  | rule h =>
    obtain ⟨w, b, hb, hfollows⟩ := hcall _ _ _ _ hfloor hpos h
    exact ⟨w, b, .rule hb, hfollows⟩
  | sequence _ ih =>
    obtain ⟨w, b, hb, hfollows⟩ := ih ht hfloor hpos
    exact ⟨_, _, .sequence hb, hfollows.settle _⟩
  | choiceNil => exact ⟨_, _, .choiceNil, .same []⟩
  | choiceNext _ _ ih₁ ih₂ =>
    obtain ⟨he, hes⟩ := Bool.and_eq_true_iff.1 ht
    obtain ⟨_, _, hb, ⟨l⟩⟩ := ih₁ he hfloor hpos
    obtain ⟨w, c, hc, hfollows⟩ := ih₂ hes hfloor hpos
    exact ⟨_, _, .choiceNext hb hc, hfollows.andThen l⟩
  | choiceDone _ hv ih =>
    obtain ⟨he, hes⟩ := Bool.and_eq_true_iff.1 ht
    obtain ⟨w, b, hb, hfollows⟩ := ih he hfloor hpos
    cases hfollows with
    | same l => exact ⟨_, _, .choiceDone hb hv, (Follows.same l).settle _⟩
    | ahead hreach =>
      obtain ⟨w', c, hc, hle⟩ := hb.extend_choice (hgoes (.expr (.choice _)) hes _ hfloor hpos)
      exact ⟨w', c, hc, .ahead (Nat.le_trans hreach hle)⟩
  | group _ ih =>
    obtain ⟨w, b, hb, hfollows⟩ := ih ht hfloor hpos
    exact ⟨_, _, .group hb, hfollows⟩
  | star _ ih =>
    obtain ⟨w, b, hb, hfollows⟩ := ih ht hfloor hpos
    exact ⟨_, _, .star hb, hfollows.settle _⟩
  | @plusOnce pos e v a _ hstay ih =>
    obtain ⟨w, b, hb, hfollows⟩ := ih ht hfloor hpos
    cases hfollows with
    | same l => exact ⟨_, _, .plusOnce hb hstay, (Follows.same l).settle _⟩
    | ahead hreach =>
      have hb' := hb.conforms hC' hfloor hpos
      obtain ⟨w', c, hc, hle⟩ := hb.extend_plus fun _ =>
        hgoes (.loop e) ht _ (Nat.le_trans hfloor hb'.le_stop) hb'.boundary
      exact ⟨w', c, hc, .ahead (Nat.le_trans hreach hle)⟩
  | plusMore h₁ hmoved _ ih₁ ih₂ =>
    have ha := h₁.conforms hC hfloor hpos
    obtain ⟨_, _, hb, ⟨l⟩⟩ := ih₁ ht hfloor hpos
    obtain ⟨w, c, hc, hfollows⟩ := ih₂ ht (Nat.le_trans hfloor ha.le_stop) ha.boundary
    exact ⟨_, _, .plusMore hb hmoved hc, (hfollows.andThen l).settle _⟩
  | optional _ ih =>
    obtain ⟨w, b, hb, hfollows⟩ := ih ht hfloor hpos
    refine ⟨_, _, .optional hb, ?_⟩
    cases hfollows with
    | same l =>
      rw [Effect.logged_settle]
      exact .same l
    | ahead hreach => exact .ahead (by rwa [Effect.settle_reach, Effect.settle_reach])
  | ahead _ ih =>
    obtain ⟨w, b, hb, hfollows⟩ := ih ht hfloor hpos
    refine ⟨_, _, .ahead hb, ?_⟩
    cases hfollows with
    | same l => exact .same l
    | ahead hreach => exact .ahead hreach
  | notAhead _ ih =>
    obtain ⟨w, b, hb, hfollows⟩ := ih ht hfloor hpos
    refine ⟨_, _, .notAhead hb, ?_⟩
    cases hfollows with
    | same l => exact .same l
    | ahead hreach => exact .ahead hreach
  | @times pos n e v a _ ih =>
    have he : e.isPlain = true := ht
    obtain ⟨w, b, hb, hfollows⟩ := ih (Expr.allPlain_replicate he n) hfloor hpos
    exact ⟨_, _, .times hb, hfollows.settle _⟩
  | tagOk _ ih =>
    obtain ⟨_, _, hb, ⟨l⟩⟩ := ih ht hfloor hpos
    exact ⟨_, _, .tagOk hb, .same l⟩
  | tagFail _ hv ih =>
    obtain ⟨w, b, hb, hfollows⟩ := ih ht hfloor hpos
    cases hfollows with
    | same l => exact ⟨_, _, .tagFail hb hv, (Follows.same l).settle _⟩
    | ahead hreach =>
      obtain ⟨w', c, hc, hle⟩ := hb.extend_tag
      exact ⟨w', c, hc, .ahead (Nat.le_trans hreach hle)⟩
  | recoverAtEnd hend _ ih =>
    obtain ⟨he, hf⟩ := Bool.and_eq_true_iff.1 ht
    obtain ⟨w, b, hb, hfollows⟩ := ih he hfloor hpos
    exact ⟨_, _, .recoverAtEnd hend hb, hfollows⟩
  | recoverPass hlt _ hv ih =>
    obtain ⟨he, hf⟩ := Bool.and_eq_true_iff.1 ht
    obtain ⟨w, b, hb, hfollows⟩ := ih he hfloor hpos
    cases hfollows with
    | same l => exact ⟨_, _, .recoverPass hlt hb hv, .same l⟩
    | ahead hreach =>
      obtain ⟨w', c, hc, hle⟩ := hb.extend_recover hlt (hgoes (.expr _) hf _ hfloor hpos)
      exact ⟨w', c, hc, .ahead (Nat.le_trans hreach hle)⟩
  | recoverOk hlt _ _ ih₁ ih₂ =>
    obtain ⟨he, hf⟩ := Bool.and_eq_true_iff.1 ht
    obtain ⟨_, _, hb, ⟨l₁⟩⟩ := ih₁ he hfloor hpos
    obtain ⟨_, _, hc, ⟨l₂⟩⟩ := ih₂ hf hfloor hpos
    exact ⟨_, _, .recoverOk hlt hb hc, .same _⟩
  | recoverFail hlt _ _ hv ih₁ ih₂ =>
    obtain ⟨he, hf⟩ := Bool.and_eq_true_iff.1 ht
    obtain ⟨_, _, hb, ⟨l₁⟩⟩ := ih₁ he hfloor hpos
    obtain ⟨w, c, hc, hfollows⟩ := ih₂ hf hfloor hpos
    cases hfollows with
    | same l₂ =>
      exact ⟨_, _, .recoverFail hlt hb hc hv, ((Follows.same l₂).andThen l₁).settle _⟩
    | ahead hreach =>
      obtain ⟨w', c', hc', hle⟩ := hb.extend_fallback _ hlt hc
      refine ⟨w', c', hc', .ahead ?_⟩
      rw [Effect.settle_reach]
      exact Nat.le_trans (max_le_max_left _ hreach) hle
  | skipBefore _ ih =>
    obtain ⟨w, b, hb, hfollows⟩ := ih ht hfloor hpos
    exact ⟨_, _, .skipBefore hb, hfollows⟩
  | skipPast _ ih =>
    obtain ⟨w, b, hb, hfollows⟩ := ih ht hfloor hpos
    exact ⟨_, _, .skipPast hb, hfollows⟩
  | itemsNil => exact ⟨_, _, .itemsNil, .same []⟩
  | itemsCons h₁ _ ih₁ ih₂ =>
    obtain ⟨he, hes⟩ := Bool.and_eq_true_iff.1 ht
    have ha := h₁.conforms hC hfloor hpos
    obtain ⟨_, _, hb, ⟨l⟩⟩ := ih₁ he hfloor hpos
    obtain ⟨w, c, hc, hfollows⟩ := ih₂ hes (Nat.le_trans hfloor ha.le_stop) ha.boundary
    exact ⟨_, _, .itemsCons hb hc, hfollows.andThen l⟩
  | itemsFail _ hv ih =>
    obtain ⟨he, hes⟩ := Bool.and_eq_true_iff.1 ht
    obtain ⟨w, b, hb, hfollows⟩ := ih he hfloor hpos
    cases hfollows with
    | same l => exact ⟨_, _, .itemsFail hb hv, .same l⟩
    | ahead hreach =>
      have hb' := hb.conforms hC' hfloor hpos
      obtain ⟨w', c, hc, hle⟩ := hb.extend_items fun _ =>
        hgoes (.items _) hes _ (Nat.le_trans hfloor hb'.le_stop) hb'.boundary
      exact ⟨w', c, hc, .ahead (Nat.le_trans hreach hle)⟩
  | loopEnd _ ih =>
    obtain ⟨_, _, hb, ⟨l⟩⟩ := ih ht hfloor hpos
    exact ⟨_, _, .loopEnd hb, .same l⟩
  | loopStay _ hstay ih =>
    obtain ⟨_, _, hb, ⟨l⟩⟩ := ih ht hfloor hpos
    exact ⟨_, _, .loopStay hb hstay, .same l⟩
  | loopMore h₁ hmoved _ ih₁ ih₂ =>
    have ha := h₁.conforms hC hfloor hpos
    obtain ⟨_, _, hb, ⟨l⟩⟩ := ih₁ ht hfloor hpos
    obtain ⟨w, c, hc, hfollows⟩ := ih₂ ht (Nat.le_trans hfloor ha.le_stop) ha.boundary
    exact ⟨_, _, .loopMore hb hmoved hc, hfollows.andThen l⟩
  | loopSignal _ ih =>
    obtain ⟨w, b, hb, hfollows⟩ := ih ht hfloor hpos
    have hb' := hb.conforms hC' hfloor hpos
    obtain ⟨w', c, hc, hle⟩ := hb.extend_loop hb'.answer fun _ _ =>
      hgoes (.loop _) ht _ (Nat.le_trans hfloor hb'.le_stop) hb'.boundary
    exact ⟨w', c, hc, .ahead (Nat.le_trans hfollows.reach_le hle)⟩
  | skipAtEnd hend => exact ⟨_, _, .skipAtEnd hend, .same []⟩
  | skipFound hlt _ ih =>
    obtain ⟨_, _, hb, ⟨l⟩⟩ := ih ht hfloor hpos
    exact ⟨_, _, .skipFound hlt hb, .same l⟩
  | skipNext hlt h₁ _ ih₁ ih₂ =>
    have hstop := ((h₁.conforms hC hfloor hpos).silent rfl rfl).stop_eq
    rw [hstop] at ih₂
    obtain ⟨_, _, hb, ⟨l⟩⟩ := ih₁ ht hfloor hpos
    obtain ⟨w, c, hc, hfollows⟩ := ih₂ ht
      (Nat.le_trans hfloor (s.le_walk _ 1)) (hpos.walk 1)
    rw [← hstop] at hc
    exact ⟨_, _, .skipNext hlt hb hc, hfollows.andThen l⟩
  | skipSignal hlt _ ih =>
    obtain ⟨w, b, hb, hfollows⟩ := ih ht hfloor hpos
    have hb' := hb.conforms hC' hfloor hpos
    obtain ⟨w', c, hc, hle⟩ := hb.extend_skip hlt hb'.answer fun hw => by
      rw [(hb'.silent rfl (by rw [hw]; rfl)).stop_eq]
      exact hgoes (.skip _ _) ht _ (Nat.le_trans hfloor (s.le_walk _ 1)) (hpos.walk 1)
    exact ⟨w', c, hc, .ahead (Nat.le_trans hfollows.reach_le hle)⟩

end runs

/-! ## Frames that go together -/

/-- An answer of the reference that goes with an answer of the engine: it is the same, and if the
engine would signal, it is any other. -/
structure Mode.Alike (m m' : Mode Id) : Prop where
  ne_fresh : m' ≠ .fresh
  eq_of_ne_fresh : m ≠ .fresh → m' = m

/-- A frame of the reference that goes with a frame of the engine. -/
structure Frame.Alike (f f' : Frame Id) : Prop where
  rule_eq : f'.rule = f.rule
  position_eq : f'.position = f.position
  mode_alike : f.mode.Alike f'.mode

section frames

variable {fs fs' : List (Frame Id)}

/-- Frames that go together answer with modes that go together. -/
theorem Frame.answer?_rel (h : List.Forall₂ Frame.Alike fs fs') (rule pos : Nat) :
    Option.Rel Mode.Alike (Frame.answer? fs rule pos) (Frame.answer? fs' rule pos) := by
  induction h with
  | nil => exact .none
  | @cons f f' fs fs' hf _ ih =>
    rw [Frame.answer?_cons, Frame.answer?_cons, hf.rule_eq, hf.position_eq]
    split
    · split
      · exact .some hf.mode_alike
      · exact .none
    · exact ih

/-- No frame of the reference signals. -/
theorem Frame.not_signals (h : List.Forall₂ Frame.Alike fs fs') (rule pos : Nat) :
    ¬ Frame.Signals fs' rule pos := by
  intro hsignal
  have hrel := Frame.answer?_rel h rule pos
  unfold Frame.Signals at hsignal
  rw [hsignal] at hrel
  generalize Frame.answer? fs rule pos = answer at hrel
  cases hrel with
  | some halike => exact halike.ne_fresh rfl

end frames

/-! ## Invocations of rules -/

/-- The bodies of a rule for the engine and for the reference, where the second follows the first
for all answers that go together. -/
structure Body.Refines (s : Source α) (i pos : Nat) (fs fs' : List (Frame Id)) (B B' : Body Id) :
    Prop where
  lawful : B.Lawful s i pos fs
  lawful' : B'.Lawful s i pos fs'
  total' : B'.Total s pos
  unique' : ∀ {m v w a b}, m.Fits s pos → B' m v a → B' m w b → v = w ∧ a = b
  quiet' : ∀ q, ¬ Frame.Signals fs' q pos
  followed : ∀ {m m' v a}, m.Fits s pos → m'.Fits s pos → m.Alike m' → B m v a →
    ∃ w b, B' m' w b ∧ Follows v a w b

/-- An answer that is no match is a failure. -/
theorem Verdict.isFailure_of_ne_ok {v : Verdict} (hanswer : v.isAnswer = true) (hv : v ≠ .ok) :
    v.isFailure = true := by
  cases v with
  | ok => exact absurd rfl hv
  | mismatch | leftRecursion => rfl
  | fault | exhausted => cases hanswer

section invocations

variable {s : Source α} {i pos : Nat} {name : String} {fs fs' : List (Frame Id)} {B B' : Body Id}

/-- Effects that differ in the log only follow each other. -/
theorem Follows.of_eq {a b : Effect Id} (v : Verdict) (hstop : b.stop = a.stop)
    (hreach : b.reach = a.reach) (hforest : b.forest = a.forest) (herrors : b.errors = a.errors) :
    Follows v a v b := by
  have hb : b = a.logged b.events := by
    unfold Effect.logged
    rw [← hstop, ← hreach, ← hforest, ← herrors]
  rw [hb]
  exact .same b.events

/-- A rule that has not answered yet, or that answers with a result, goes with one that answers
with the result. -/
theorem Mode.Alike.growing (m : Mode Id) (a : Effect Id) (hm : m = .fresh ∨ m = a.mode) :
    m.Alike a.mode := by
  refine ⟨nofun, fun hne => ?_⟩
  rcases hm with hm | hm
  · exact absurd hm hne
  · exact hm.symm

/-- The reference evaluates the body without any signal. -/
theorem Body.Refines.ne_signal (hR : Body.Refines s i pos fs fs' B B') {m : Mode Id} {v : Verdict}
    {a : Effect Id} (hm : m.Fits s pos) (hne : m ≠ .fresh) (h : B' m v a) (q : Nat) :
    v ≠ .leftRecursion q := fun hv =>
  hR.quiet' q (((hR.lawful' _ _ _ hm h).signal q hv).of_cons (Or.inl hne))

/-- At the end of the source, where the engine stops growing, another evaluation of the reference
changes nothing. -/
theorem Improves.of_full (hR : Body.Refines s i pos fs fs' B B') {acc : Effect Id}
    (hacc : acc.Within s pos) (hfull : s.size ≤ acc.stop) :
    ∃ b, Improves pos B' acc .ok b ∧ Follows .ok ((acc.undo pos).andThen acc.again) .ok b := by
  obtain ⟨v, a, hround⟩ := hR.total' acc.mode hacc.mode_fits
  have ha := hR.lawful' _ _ _ hacc.mode_fits hround
  have hno : v = .mismatch ∨ v = .ok ∧ a.stop ≤ acc.stop := by
    cases v with
    | ok => exact Or.inr ⟨rfl, Nat.le_trans ha.boundary.le_size hfull⟩
    | mismatch => exact Or.inl rfl
    | leftRecursion q => exact absurd rfl (hR.ne_signal hacc.mode_fits nofun hround q)
    | fault => cases ha.answer
    | exhausted => cases ha.answer
  refine ⟨_, .settled hround hno, .of_eq _ rfl ?_ rfl rfl⟩
  have hstop := hacc.stop_le_reach
  have hreach := ha.reach_le_size
  show max (max acc.reach a.reach) acc.stop = max acc.reach acc.stop
  omega

/-- The rounds of growth are followed by the evaluations of the reference. -/
theorem Growth.followed (hR : Body.Refines s i pos fs fs' B B') (hpos : s.Boundary pos) {k : Nat}
    {v : Verdict} {acc c : Effect Id} (hacc : acc.Within s pos)
    (h : Growth s.size name pos B k acc v c) (l : List Event) :
    ∃ w d, Improves pos B' (acc.logged l) w d ∧ Follows v c w d := by
  induction h generalizing l with
  | @full k acc hfull =>
    have hacc' : (acc.logged l).Within s pos := { hacc with }
    obtain ⟨b, hb, hfollows⟩ := Improves.of_full hR hacc' hfull
    cases hfollows with
    | same l' => exact ⟨_, _, hb, .same l'⟩
  | @further k acc a b v hlt hbody hmore _ ih =>
    have ha := (hR.lawful _ _ _ hacc.mode_fits hbody).toWithin
    obtain ⟨_, _, hround, ⟨l₁⟩⟩ := hR.followed hacc.mode_fits hacc.mode_fits
      (.growing _ acc (Or.inr rfl)) hbody
    obtain ⟨w, d, hd, hfollows⟩ := ih (hacc.retried name k ha hpos) (l₁ ++ l)
    exact ⟨w, d, .further hround hmore hd, hfollows⟩
  | @settled k acc a v hlt hbody hno =>
    obtain ⟨w, b, hround, hfollows⟩ := hR.followed hacc.mode_fits hacc.mode_fits
      (.growing _ acc (Or.inr rfl)) hbody
    cases hfollows with
    | same l₁ => exact ⟨_, _, .settled hround hno, .of_eq _ rfl rfl rfl rfl⟩
    | ahead _ =>
      rcases hno with hno | ⟨hno, -⟩
      · cases hno
      · cases hno
  | @signal k q acc a hlt hbody =>
    have hacc' : (acc.logged l).Within s pos := { hacc with }
    obtain ⟨w, b, hround, hfollows⟩ := hR.followed hacc.mode_fits hacc.mode_fits
      (.growing _ acc (Or.inr rfl)) hbody
    obtain ⟨w', d, hd, hreach⟩ := Improves.extend hR.lawful' hR.total' hpos hacc' hround
    exact ⟨w', d, hd, .ahead (Nat.le_trans (max_le_max_left _ hfollows.reach_le) hreach)⟩

/-- Growth reaches at least as far as what was accepted before. -/
theorem Growth.reach_le {size k : Nat} {v : Verdict} {acc c : Effect Id}
    (h : Growth size name pos B k acc v c) : acc.reach ≤ c.reach := by
  induction h with
  | full _ => exact Nat.le_max_left _ _
  | further _ _ _ _ ih => exact Nat.le_trans (Nat.le_max_left _ _) ih
  | settled _ _ _ => exact Nat.le_trans (Nat.le_max_left _ _) (Nat.le_max_left _ _)
  | signal _ _ => exact Nat.le_max_left _ _

/-- What was done before the engine started over does not show, if it did not reach further. -/
theorem Follows.after_retry {v w : Verdict} {a b c : Effect Id} (ha : a.Silent pos)
    (hreach : a.reach ≤ c.reach) (h : Follows v b w c) : Follows v (a.andThen b) w c := by
  cases h with
  | same l =>
    refine .of_eq v rfl (Nat.max_eq_right hreach).symm ?_ ?_
    · rw [Effect.andThen, ha.forest_eq]
      rfl
    · rw [Effect.andThen, ha.errors_eq]
      rfl
  | ahead h => exact .ahead (Nat.max_le.2 ⟨hreach, h⟩)

/-- A message of the engine changes nothing. -/
theorem Follows.note {v w : Verdict} {a b : Effect Id} (e : Event) (h : Follows v a w b) :
    Follows v (a.note e) w b := by
  cases h with
  | same l => exact .of_eq v rfl rfl rfl rfl
  | ahead h => exact .ahead h

/-- The engine logs entry and exit, and otherwise an invocation adds nothing to what it does. -/
theorem Follows.framed {v w : Verdict} {a b : Effect Id} (hreach : pos ≤ a.reach)
    (h : Follows v a w b) : Follows v (a.framed name pos v) w b := by
  have hmax : max pos a.reach = a.reach := Nat.max_eq_right hreach
  cases h with
  | same l => exact .of_eq v rfl hmax.symm rfl rfl
  | ahead h => exact .ahead (hmax.trans_le h)

/-- Whether the rule has not answered yet or seeds, its body is followed by the seed of the
reference. -/
theorem Body.Refines.followed_by_seed (hR : Body.Refines s i pos fs fs' B B') {m : Mode Id}
    (hm : m = .fresh ∨ m = .seeding) {v : Verdict} {a : Effect Id} (h : B m v a) :
    ∃ w b, B' .seeding w b ∧ Follows v a w b := by
  have hfresh : (Mode.fresh : Mode Id).Fits s pos := trivial
  have hseeding : (Mode.seeding : Mode Id).Fits s pos := trivial
  rcases hm with rfl | rfl
  · exact hR.followed hfresh hseeding ⟨nofun, fun hne => absurd rfl hne⟩ h
  · exact hR.followed hseeding hseeding ⟨nofun, fun _ => rfl⟩ h

/-- A body that does not ask for its own rule comes out in the same way whatever the rule would have
answered, so the reference takes the first result it gets. -/
theorem Resolves.of_once (name : String) (hR : Body.Refines s i pos fs fs' B B')
    (hpos : s.Boundary pos) {v : Verdict} {a : Effect Id} (hbody : B .fresh v a) :
    ∃ w b, Resolves s.size i name pos B' none w b ∧ Follows v a w b := by
  have ha := hR.lawful .fresh _ _ trivial hbody
  obtain ⟨w, b, hseed, hfollows⟩ := hR.followed_by_seed (Or.inl rfl) hbody
  cases hfollows with
  | same l =>
    cases v with
    | ok =>
      obtain ⟨_, _, hround, ⟨l'⟩⟩ := hR.followed (m := .fresh) trivial ha.mode_fits
        (.growing _ a (Or.inl rfl)) hbody
      refine ⟨_, _, .improved rfl hseed (.settled hround (Or.inr ⟨rfl, Nat.le_refl _⟩)), ?_⟩
      refine .of_eq _ rfl ?_ rfl rfl
      have hstop := ha.stop_le_reach
      show max (max a.reach a.reach) a.stop = a.reach
      omega
    | mismatch =>
      have hsilent := ha.silent rfl rfl
      refine ⟨_, _, .barren rfl hseed nofun, .of_eq _ hsilent.stop_eq.symm rfl ?_ ?_⟩
      · exact hsilent.forest_eq.symm
      · exact hsilent.errors_eq.symm
    | leftRecursion q => exact absurd rfl (hR.ne_signal (m := .seeding) trivial nofun hseed q)
    | fault => cases ha.answer
    | exhausted => cases ha.answer
  | ahead hreach =>
    obtain ⟨w', c, hc, hle⟩ := Resolves.extend s.size name hR.lawful' hR.total' hpos hseed
    exact ⟨w', c, hc, .ahead (Nat.le_trans hreach hle)⟩

/-- The pass that the engine gave up did not reach further than the seed does. -/
theorem Body.Refines.reach_le_seed (hR : Body.Refines s i pos fs fs' B B') {q : Nat} {v : Verdict}
    {a b : Effect Id} (hfirst : B .fresh (.leftRecursion q) a) (hseed : B' .seeding v b) :
    a.reach ≤ b.reach := by
  obtain ⟨w, c, hc, hfollows⟩ := hR.followed_by_seed (Or.inl rfl) hfirst
  obtain ⟨-, rfl⟩ := hR.unique' (m := .seeding) trivial hseed hc
  exact hfollows.reach_le

/-- A seed that grows is followed by the improvement of the same seed. -/
theorem Resolves.of_growth (hR : Body.Refines s i pos fs fs' B B') (hpos : s.Boundary pos) {q : Nat}
    {v : Verdict} {a b c : Effect Id} (hfirst : B .fresh (.leftRecursion q) a)
    (hseed : B .seeding .ok b) (hgrowth : Growth s.size name pos B 0 b v c) :
    ∃ w d, Resolves s.size i name pos B' none w d ∧ a.reach ≤ d.reach ∧ Follows v c w d := by
  have hb := (hR.lawful .seeding _ _ trivial hseed).toWithin
  obtain ⟨_, _, hseed', ⟨l⟩⟩ := hR.followed_by_seed (Or.inr rfl) hseed
  obtain ⟨w, d, hd, hfollows⟩ := hgrowth.followed hR hpos hb l
  refine ⟨w, d, .improved rfl hseed' hd, ?_, hfollows⟩
  have hfirst_le := hR.reach_le_seed hfirst hseed'
  calc a.reach ≤ b.reach := hfirst_le
    _ ≤ c.reach := hgrowth.reach_le
    _ ≤ d.reach := hfollows.reach_le

/-- Every invocation of the engine is followed by an invocation of the reference. -/
theorem Invokes.followed {active active' : Option (Mode Id)}
    (hactive : Option.Rel Mode.Alike active active') (hfits : ∀ m, active' = some m → m.Fits s pos)
    (hR : active = none → Body.Refines s i pos fs fs' B B') (hpos : s.Boundary pos) {v : Verdict}
    {a : Effect Id} (h : Invokes s.size i name pos B active v a) :
    ∃ w b, Resolves s.size i name pos B' active' w b ∧ Follows v a w b := by
  cases h with
  | signal hfresh =>
    subst hfresh
    cases hactive with
    | @some _ m' halike =>
      cases m' with
      | fresh => exact absurd rfl halike.ne_fresh
      | seeding => exact ⟨_, _, .refuse rfl (Or.inr rfl), .ahead (Nat.le_refl pos)⟩
      | growing stop forest errors => exact ⟨_, _, .replay rfl, .ahead (hfits _ rfl).2⟩
  | refuse hseeding =>
    subst hseeding
    cases hactive with
    | some halike =>
      rw [halike.eq_of_ne_fresh nofun]
      exact ⟨_, _, .refuse rfl (Or.inr rfl), .same []⟩
  | replay hgrowing =>
    subst hgrowing
    cases hactive with
    | some halike =>
      rw [halike.eq_of_ne_fresh nofun]
      exact ⟨_, _, .replay rfl, .same []⟩
  | once hnone hbody hother =>
    subst hnone
    cases hactive
    have ha := (hR rfl).lawful .fresh _ _ trivial hbody
    obtain ⟨w, b, hb, hfollows⟩ := Resolves.of_once name (hR rfl) hpos hbody
    exact ⟨w, b, hb, hfollows.framed ha.le_reach⟩
  | @barren v a b hnone hfirst hseed hv =>
    subst hnone
    cases hactive
    have hR := hR rfl
    have ha := hR.lawful .fresh _ _ trivial hfirst
    have hb := hR.lawful .seeding _ _ trivial hseed
    obtain ⟨w, c, hseed', hfollows⟩ := hR.followed_by_seed (Or.inr rfl) hseed
    have hreach := hR.reach_le_seed hfirst hseed'
    have hle : pos ≤ (a.andThen b).reach := Nat.le_trans ha.le_reach (Nat.le_max_left _ _)
    cases hfollows with
    | same l =>
      have hsilent := hb.silent rfl (Verdict.isFailure_of_ne_ok hb.answer hv)
      have hundone : Follows v b v ((b.logged l).undo pos) :=
        .of_eq v hsilent.stop_eq.symm rfl hsilent.forest_eq.symm hsilent.errors_eq.symm
      refine ⟨_, _, .barren rfl hseed' hv, Follows.framed hle ?_⟩
      exact hundone.after_retry (ha.silent rfl rfl) hreach
    | @ahead q _ _ _ hfurther =>
      obtain ⟨w', d, hd, hmore⟩ := Resolves.extend s.size name hR.lawful' hR.total' hpos hseed'
      have hahead : Follows (.leftRecursion q) b w' d := .ahead (Nat.le_trans hfurther hmore)
      refine ⟨w', d, hd, Follows.framed hle ?_⟩
      exact hahead.after_retry (ha.silent rfl rfl) (Nat.le_trans hreach hmore)
  | @grown a b c hnone hfirst hseed hgrowth =>
    subst hnone
    cases hactive
    obtain ⟨w, d, hd, hreach, hfollows⟩ := Resolves.of_growth (hR rfl) hpos hfirst hseed hgrowth
    have ha := (hR rfl).lawful .fresh _ _ trivial hfirst
    refine ⟨w, d, hd, ((hfollows.note _).after_retry (ha.silent rfl rfl) hreach).framed ?_⟩
    exact Nat.le_trans ha.le_reach (Nat.le_max_left _ _)
  | @aborted v a b c hnone hfirst hseed hgrowth hv =>
    subst hnone
    cases hactive
    obtain ⟨w, d, hd, hreach, hfollows⟩ := Resolves.of_growth (hR rfl) hpos hfirst hseed hgrowth
    have ha := (hR rfl).lawful .fresh _ _ trivial hfirst
    refine ⟨w, d, hd, (hfollows.after_retry (ha.silent rfl rfl) hreach).framed ?_⟩
    exact Nat.le_trans ha.le_reach (Nat.le_max_left _ _)

end invocations

/-! ## Whole grammars -/

namespace Grammar

variable {g : Grammar α Id} {s : Source α}

/-- The body of a rule, for the engine and for the reference, if the rules nested below it follow
each other. -/
theorem body_refines (hg : g.isPlain = true) {d : Nat} {fs fs' : List (Frame Id)} {i pos : Nat}
    {e : Expr α Id} (hbody : g.body? i = some e) (hfs : Stack s g.size pos fs)
    (hfs' : Stack s g.size pos fs') (halike : List.Forall₂ Frame.Alike fs fs')
    (hpos : s.Boundary pos) (hd : g.size * (s.size + 1) < d + 1 + fs'.length)
    (hnone : Frame.answer? fs i pos = none) (hnone' : Frame.answer? fs' i pos = none)
    (hnested : ∀ {m m' : Mode Id}, m.Fits s pos → m'.Fits s pos → m.Alike m' → ∀ j p v a, pos ≤ p →
      s.Boundary p → g.Derives Invokes s d (⟨i, pos, m⟩ :: fs) j p v a →
      ∃ w b, g.Derives Resolves s d (⟨i, pos, m'⟩ :: fs') j p w b ∧ Follows v a w b) :
    Body.Refines s i pos fs fs'
      (fun m => Runs s (g.Derives Invokes s d (⟨i, pos, m⟩ :: fs)) (.expr e) pos)
      (fun m => Runs s (g.Derives Resolves s d (⟨i, pos, m⟩ :: fs')) (.expr e) pos) := by
  have hi := lt_size_of_body? hbody
  have he := isPlain_body hg hbody
  have hdeep : ∀ m : Mode Id,
      g.size * (s.size + 1) < d + (⟨i, pos, m⟩ :: fs' : List (Frame Id)).length := by
    intro m
    rw [List.length_cons]
    omega
  have hpush' : ∀ m : Mode Id, m.Fits s pos → Stack s g.size pos (⟨i, pos, m⟩ :: fs') :=
    fun m hm => hfs'.push (Nat.le_refl pos) hi hnone' hm
  refine
    { lawful := body_lawful (invokes_lawful s) d hfs (Nat.le_refl pos) hpos hbody hnone
      lawful' := body_lawful (resolves_lawful s) d hfs' (Nat.le_refl pos) hpos hbody hnone'
      total' := fun m hm => ?_
      unique' := fun hm h h' => ?_
      quiet' := fun q => Frame.not_signals halike q pos
      followed := fun {m m' v a} hm hm' hmm h => ?_ }
  · exact exists_runs (t := .expr e) (resolves_lawful s) hg he (hpush' m hm) (hdeep m) hpos
  · exact runs_unique (resolves_lawful s) (resolves_realizedBy s) (hpush' _ hm) hpos h h'
  · have hpush := hfs.push (Nat.le_refl pos) hi hnone hm
    exact Runs.followed (regular (invokes_lawful s) d hpush)
      (regular (resolves_lawful s) d (hpush' m' hm'))
      (runnable (resolves_lawful s) hg d (hpush' m' hm') hpos.le_size (hdeep m'))
      (hnested hm hm' hmm) (t := .expr e) he h (Nat.le_refl pos) hpos

/-- Every rule of the reference follows the same rule of the engine, at all stacks of frames that go
together. -/
theorem derives_followed (hg : g.isPlain = true) (d : Nat) {fs fs' : List (Frame Id)} {floor : Nat}
    (hfs : Stack s g.size floor fs) (hfs' : Stack s g.size floor fs')
    (halike : List.Forall₂ Frame.Alike fs fs') (hd : g.size * (s.size + 1) < d + fs'.length)
    {i p : Nat} {v : Verdict} {a : Effect Id} (hfloor : floor ≤ p) (hp : s.Boundary p)
    (h : g.Derives Invokes s d fs i p v a) :
    ∃ w b, g.Derives Resolves s d fs' i p w b ∧ Follows v a w b := by
  induction d generalizing fs fs' floor i p v a with
  | zero => exact h.elim
  | succ d ih =>
    cases hbody : g.body? i with
    | none =>
      simp only [Derives, hbody] at h ⊢
      obtain ⟨rfl, rfl⟩ := h
      exact ⟨_, _, ⟨rfl, rfl⟩, .same []⟩
    | some e =>
      simp only [Derives, hbody] at h ⊢
      have hrel := Frame.answer?_rel halike i p
      have hR : Frame.answer? fs i p = none → Body.Refines s i p fs fs'
          (fun m => Runs s (g.Derives Invokes s d (⟨i, p, m⟩ :: fs)) (.expr e) p)
          (fun m => Runs s (g.Derives Resolves s d (⟨i, p, m⟩ :: fs')) (.expr e) p) := by
        intro hnone
        have hnone' : Frame.answer? fs' i p = none := by
          rw [hnone] at hrel
          generalize Frame.answer? fs' i p = answer at hrel
          cases hrel
          rfl
        have hi := lt_size_of_body? hbody
        refine body_refines hg hbody (hfs.raise hfloor) (hfs'.raise hfloor) halike hp hd hnone
          hnone' ?_
        intro m m' hm hm' hmm j q w b hq hbq hj
        have hdeeper :
            g.size * (s.size + 1) < d + (⟨i, p, m'⟩ :: fs' : List (Frame Id)).length := by
          rw [List.length_cons]
          omega
        exact ih (hfs.push hfloor hi hnone hm) (hfs'.push hfloor hi hnone' hm')
          (.cons ⟨rfl, rfl, hmm⟩ halike) hdeeper hq hbq hj
      exact Invokes.followed hrel (fun m hm => hfs'.fits_of_answer? hm) hR hp h

/-- Evaluated from the beginning, an expression comes out with the engine exactly as it does without
signals: it matches or does not match, and the verdict, the cursor, the records and the furthest
position are the same. Neither way runs out of its bound. -/
theorem parser_agrees_with_reference (g : Grammar α Id) (s : Source α) (e : Expr α Id)
    (hg : g.isPlain = true) (he : e.isPlain = true) (bound bound' : Nat) (hbound : g.need s ≤ bound)
    (hbound' : g.need s ≤ bound') :
    ∃ v st st',
      e.parser (g.setting s bound) State.initial = (v, st) ∧
      e.parser (g.referenceSetting s bound') State.initial = (v, st') ∧
      (v = .ok ∨ v = .mismatch) ∧ st.position = st'.position ∧ st.forest = st'.forest ∧
      st.errors = st'.errors ∧ st.furthest = st'.furthest := by
  have hnil : Stack s g.size 0 ([] : List (Frame Id)) := .nil s g.size 0
  have hzero := s.boundary_zero
  obtain ⟨v, a, hrun, hconf, hdone⟩ := exists_done (t := .expr e) (invokes_lawful s)
    (invokes_realizedBy s) hg he hnil hzero
  have hd : g.size * (s.size + 1) < g.depth s [] + ([] : List (Frame Id)).length :=
    Nat.lt_succ_self _
  obtain ⟨w, b, hrun', hfollows⟩ := Runs.followed (t := .expr e)
    (regular (invokes_lawful s) _ hnil) (regular (resolves_lawful s) _ hnil)
    (runnable (resolves_lawful s) hg _ hnil (Nat.zero_le _) hd)
    (fun _ _ _ _ hp hbp h => derives_followed hg _ hnil hnil .nil hd hp hbp h) he hrun
    (Nat.le_refl 0) hzero
  have hroom : g.depth s [] + s.size < bound' := depth_add_size_lt hnil (Nat.zero_le _) hbound'
  have hdone' := runs_done (resolves_lawful s) (resolves_realizedBy s) hroom hnil hzero hrun'
  have hv := hconf.ok_or_mismatch
  cases hfollows with
  | same l =>
    refine ⟨v, a.on State.initial, (a.logged l).on State.initial, ?_, ?_, hv, rfl, rfl, rfl, rfl⟩
    · rw [setting_eq_settingBy]
      exact hdone bound hbound State.initial State.initial_at
    · exact hdone' State.initial State.initial_at
  | ahead _ =>
    rcases hv with hv | hv
    · cases hv
    · cases hv

/-- Two rules that are left-recursive through each other match the whole text, with and without
signals, and with the same three matches around each other. -/
theorem parser_agrees_with_reference_entangled :
    entangled.isPlain = true ∧ (Expr.rule 0 : Expr Char Nat).isPlain = true ∧
    entangled.need .entangled ≤ 18 ∧
    ∃ st st',
      (Expr.rule 0).parser (entangled.setting .entangled 18) State.initial = (.ok, st) ∧
      (Expr.rule 0).parser (entangled.referenceSetting .entangled 18) State.initial = (.ok, st') ∧
      st.position = 4 ∧ st'.position = 4 ∧ st'.furthest = 4 ∧
      st'.forest = [⟨0, ⟨0, 4⟩, [⟨1, ⟨0, 3⟩, [⟨0, ⟨0, 2⟩, []⟩]⟩]⟩] ∧
      st.forest = st'.forest ∧ st.errors = st'.errors ∧ st.furthest = st'.furthest := by
  have hneed : entangled.need .entangled ≤ 18 := by decide +kernel
  obtain ⟨v, st, st', heq, heq', -, hposition, hforest, herrors, hfurthest⟩ :=
    parser_agrees_with_reference entangled .entangled (.rule 0) (by decide) rfl 18 18 hneed hneed
  let reference := (Expr.rule 0).parser (entangled.referenceSetting .entangled 18) State.initial
  have hrun : reference.1 = .ok ∧ reference.2.position = 4 ∧ reference.2.furthest = 4 ∧
      reference.2.forest = [⟨0, ⟨0, 4⟩, [⟨1, ⟨0, 3⟩, [⟨0, ⟨0, 2⟩, []⟩]⟩]⟩] := by decide +kernel
  have hreference : reference = (v, st') := heq'
  rw [hreference] at hrun
  obtain ⟨rfl, hstop, hreach, htree⟩ := hrun
  exact ⟨by decide, rfl, hneed, st, st', heq, heq', hposition.trans hstop, hstop, hreach, htree,
    hforest, herrors, hfurthest⟩

end Grammar

end Peg
