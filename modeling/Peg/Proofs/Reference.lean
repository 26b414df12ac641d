import Peg.Proofs.Growth

/-!
# Left recursion without signals

`Parser.resolve` is a second way of invoking rules, and the plainest one that gives left recursion a
meaning. A rule that is not active at the cursor parses its body with every reference to itself at
this position not matching. If that gives a result, it parses the body again with the last accepted
result standing for those references, until a round does not match or does not get further, and the
last accepted result is the result of the rule. There is no first pass that hopes for the best, no
signal is ever raised, and nothing is unwound: to go back is to take the state that was saved on
entry, and only the furthest position and the log of what happened meanwhile are taken over.

Here the policy behind `Parser.resolve` is given (`Resolves`) and shown to be lawful
(`resolves_lawful`) and realized (`resolves_realizedBy`). That the engine agrees with it is the
subject of `Peg.Proofs.Refinement`.
-/

namespace Peg

variable {α Id : Type}

/-! ## The reference interpreter -/

namespace State

/-- Back in a saved state; what was reached and logged meanwhile remains. -/
def resume (st last : State Id) : State Id :=
  { st with furthest := last.furthest, log := last.log }

/-- The state with a rule active at the cursor, which answers there as the mode says. -/
def activate (rule : Nat) (mode : Mode Id) (st : State Id) : State Id :=
  { st with frames := ⟨rule, st.position, mode⟩ :: st.frames }

/-- How a rule answers at the cursor, if it is active there. -/
def active? (rule : Nat) (st : State Id) : Option (Mode Id) :=
  (st.frames.find? fun f => f.rule == rule && f.position == st.position).map (·.mode)

/-- The result that was accepted since a saved state, as an answer to references. -/
def accepted (st acc : State Id) : Mode Id :=
  .growing acc.position (acc.forest.drop st.forest.length) (acc.errors.drop st.errors.length)

/-- The accepted result of a rule that was entered in a saved state, after a last evaluation. -/
def conclude (st acc last : State Id) : State Id :=
  { acc.resume last with frames := st.frames }

end State

namespace Parser

/-- Parses the body of a rule again and again as long as it gets further. The rule was entered in
the state `st`, and `acc` is the state in which the last accepted result was reached. -/
def improve (rule : Nat) (body : Parser Id) (st : State Id) : Nat → Parser Id
  | 0 => exhausted
  | n + 1 => fun acc =>
    match body ((st.resume acc).activate rule (st.accepted acc)) with
    | (.ok, next) =>
      if acc.position < next.position then improve rule body st n next
      else (.ok, st.conclude acc next)
    | (.mismatch, next) => (.ok, st.conclude acc next)
    | (v, next) => (v, st.resume next)

/-- Parses a rule without signals. -/
def resolve (_ : Source α) (bound : Nat) (rule : Nat) (_ : String) (body : Parser Id) :
    Parser Id := fun st =>
  match st.active? rule with
  | some (.growing stop forest errors) => (.ok, st.replay stop forest errors)
  | some _ => (.mismatch, st)
  | none =>
    match body (st.activate rule .seeding) with
    | (.ok, acc) => improve rule body st bound acc
    | (v, next) => (v, st.resume next)

end Parser

/-- The setting in which expressions are parsed without signals. -/
def Grammar.referenceSetting (g : Grammar α Id) (s : Source α) (bound : Nat) : Setting α Id :=
  g.settingBy Parser.resolve s bound

/-! ## Its policy -/

/-- The effect of another evaluation after `acc` was accepted. -/
def Effect.redone (pos : Nat) (acc a : Effect Id) : Effect Id := (acc.undo pos).andThen a

section policy

variable (pos : Nat) (B : Body Id)

/-- The evaluations after the seed; `acc` is what was accepted last. -/
inductive Improves : Effect Id → Verdict → Effect Id → Prop
  /-- An evaluation gets further, and its result is accepted. -/
  | further {acc a b : Effect Id} {v : Verdict} :
      B acc.mode .ok a → acc.stop < a.stop → Improves (.redone pos acc a) v b → Improves acc v b
  /-- An evaluation does not get further, and what was accepted before is the result. -/
  | settled {acc a : Effect Id} {v : Verdict} :
      B acc.mode v a → (v = .mismatch ∨ v = .ok ∧ a.stop ≤ acc.stop) →
      Improves acc .ok (((Effect.redone pos acc a).undo pos).andThen acc.again)
  /-- A signal that the body brought from elsewhere is passed on. -/
  | signal {q : Nat} {acc a : Effect Id} :
      B acc.mode (.leftRecursion q) a →
      Improves acc (.leftRecursion q) ((Effect.redone pos acc a).undo pos)

end policy

/-- An invocation of a rule without signals; `active` is the answer of the rule, if it is active
here. -/
inductive Resolves (size rule : Nat) (name : String) (pos : Nat) (B : Body Id)
    (active : Option (Mode Id)) : Verdict → Effect Id → Prop
  /-- The rule is active and has no result yet. -/
  | refuse {m : Mode Id} : active = some m → m = .fresh ∨ m = .seeding →
      Resolves size rule name pos B active .mismatch (.jump pos)
  /-- The rule is active and has a result. -/
  | replay {stop : Nat} {forest : List (Match Id)} {errors : List (SyntaxError Id)} :
      active = some (.growing stop forest errors) →
      Resolves size rule name pos B active .ok (.replay stop forest errors)
  /-- There is no seed. -/
  | barren {v : Verdict} {a : Effect Id} :
      active = none → B .seeding v a → v ≠ .ok →
      Resolves size rule name pos B active v (a.undo pos)
  /-- There is a seed, which is improved as far as possible. -/
  | improved {v : Verdict} {a b : Effect Id} :
      active = none → B .seeding .ok a → Improves pos B a v b →
      Resolves size rule name pos B active v b

/-! ## The policy is lawful -/

section lawful

variable {s : Source α} {i pos : Nat} {B : Body Id} {fs : List (Frame Id)} {acc a b : Effect Id}

/-- One more evaluation stays within the source. -/
theorem Effect.Within.redone (hacc : acc.Within s pos) (ha : a.Within s pos)
    (hpos : s.Boundary pos) : (Effect.redone pos acc a).Within s pos :=
  (hacc.undo_start hpos).andThen ha

/-- Improving a result conforms: what is kept moves forward, and what fails is taken back. -/
theorem Improves.conforms (hB : B.Lawful s i pos fs) (hpos : s.Boundary pos) {v : Verdict}
    (hacc : acc.Within s pos) (h : Improves pos B acc v b) :
    Conforms s (Frame.Signals fs) (.expr (.rule i) : Task α Id) pos v b := by
  induction h with
  | further hbody _ _ ih =>
    have ha := hB _ _ _ hacc.mode_fits hbody
    exact ih (hacc.redone ha.toWithin hpos)
  | settled hbody _ =>
    have ha := hB _ _ _ hacc.mode_fits hbody
    have hback := (hacc.redone ha.toWithin hpos).undo_start hpos
    exact ⟨hback.andThen hacc.again, rfl, nofun, nofun⟩
  | signal hbody =>
    have ha := hB _ _ _ hacc.mode_fits hbody
    refine ⟨(hacc.redone ha.toWithin hpos).undo_start hpos, rfl,
      fun _ _ => Effect.silent_undo _ _, fun q hq => ?_⟩
    exact (ha.signal q hq).of_cons (Or.inl nofun)

/-- Whatever the next evaluation gives, the improvement comes to an end after it, and reaches at
least as far as that evaluation did. -/
theorem Improves.extend (hB : B.Lawful s i pos fs) (hT : B.Total s pos) (hpos : s.Boundary pos)
    {v : Verdict} (hacc : acc.Within s pos) (hround : B acc.mode v a) :
    ∃ w b, Improves pos B acc w b ∧ max acc.reach a.reach ≤ b.reach := by
  induction hn : s.after acc.stop using Nat.strongRecOn generalizing acc a v with
  | ind n ih =>
    have ha := hB _ _ _ hacc.mode_fits hround
    cases v with
    | ok =>
      by_cases hmore : acc.stop < a.stop
      · have hfewer := hacc.boundary.after_lt ha.boundary hmore
        have hnext := hacc.redone ha.toWithin hpos
        obtain ⟨u, c, hc⟩ := hT (Effect.redone pos acc a).mode hnext.mode_fits
        obtain ⟨w, b, hrest, hreach⟩ := ih (s.after a.stop) (hn ▸ hfewer) hnext hc rfl
        exact ⟨w, b, .further hround hmore hrest, Nat.le_trans (Nat.le_max_left _ _) hreach⟩
      · refine ⟨_, _, .settled hround (Or.inr ⟨rfl, Nat.le_of_not_lt hmore⟩), ?_⟩
        exact Nat.le_max_left _ _
    | mismatch => exact ⟨_, _, .settled hround (Or.inl rfl), Nat.le_max_left _ _⟩
    | leftRecursion q => exact ⟨_, _, .signal hround, Nat.le_refl _⟩
    | fault => cases ha.answer
    | exhausted => cases ha.answer

/-- Whatever the seed is, the rule comes out after it, and reaches at least as far as the seed. -/
theorem Resolves.extend (size : Nat) (name : String) (hB : B.Lawful s i pos fs) (hT : B.Total s pos)
    (hpos : s.Boundary pos) {v : Verdict} (hseed : B .seeding v a) :
    ∃ w b, Resolves size i name pos B none w b ∧ a.reach ≤ b.reach := by
  by_cases hv : v = .ok
  · subst hv
    have ha := (hB .seeding _ _ trivial hseed).toWithin
    obtain ⟨u, c, hc⟩ := hT a.mode ha.mode_fits
    obtain ⟨w, b, hb, hreach⟩ := Improves.extend hB hT hpos ha hc
    exact ⟨w, b, .improved rfl hseed hb, Nat.le_trans (Nat.le_max_left _ _) hreach⟩
  · exact ⟨_, _, .barren rfl hseed hv, Nat.le_refl _⟩

/-- The policy of the reference is lawful: it conforms, is decided by its body, and always comes
out somehow. -/
theorem resolves_lawful (s : Source α) : Policy.Lawful s (Resolves : Policy Id) where
  conforms := by
    intro n i pos name B fs v a hpos hfs hB h
    generalize hactive : Frame.answer? fs i pos = active at h hB
    cases h with
    | refuse _ _ => exact ⟨.jump hpos, rfl, fun _ _ => Effect.silent_jump pos, nofun⟩
    | replay hgrowing =>
      obtain ⟨hstop, hle⟩ := hfs.fits_of_answer? (hactive.trans hgrowing)
      exact ⟨⟨hle, Nat.le_refl _, hstop.le_size, hstop⟩, rfl, nofun, nofun⟩
    | barren hnone hseed hv =>
      have ha := hB hnone .seeding _ _ trivial hseed
      exact ⟨ha.toWithin.undo_start hpos, ha.answer, fun _ _ => Effect.silent_undo _ _,
        fun q hq => (ha.signal q hq).of_cons (Or.inl nofun)⟩
    | improved hnone hseed himproves =>
      have ha := hB hnone .seeding _ _ trivial hseed
      exact Improves.conforms (hB hnone) hpos ha.toWithin himproves
  total := by
    intro n i pos B fs name hpos hfs hB
    cases hactive : Frame.answer? fs i pos with
    | some m =>
      cases m with
      | fresh => exact ⟨_, _, .refuse rfl (Or.inl rfl)⟩
      | seeding => exact ⟨_, _, .refuse rfl (Or.inr rfl)⟩
      | growing stop forest errors => exact ⟨_, _, .replay rfl⟩
    | none =>
      obtain ⟨hlawful, htotal⟩ := hB hactive
      obtain ⟨v, a, hseed⟩ := htotal .seeding trivial
      obtain ⟨w, b, hb, -⟩ := Resolves.extend s.size name hlawful htotal hpos hseed
      exact ⟨w, b, hb⟩

end lawful

/-! ## The policy is what `Parser.resolve` does -/

section realized

variable {s : Source α} {i pos : Nat} {B : Body Id} {fs : List (Frame Id)} {p : Parser Id}
  {st : State Id}

/-- Making a rule active puts a frame at the cursor. -/
theorem State.At.activate (hst : st.At fs pos) (m : Mode Id) :
    (st.activate i m).At (⟨i, pos, m⟩ :: fs) pos where
  position_eq := hst.position_eq
  frames_eq := by rw [State.activate, hst.frames_eq, hst.position_eq]
  le_furthest := hst.le_furthest

/-- To take up a saved state is to undo what happened since. -/
theorem State.resume_on (a : Effect Id) (m : Mode Id) :
    st.resume (a.on (st.activate i m)) = (a.undo st.position).on st := by
  simp [State.resume, State.activate, Effect.on, Effect.undo]

/-- The answer of an active rule is the result of the effect since. -/
theorem State.accepted_on (a : Effect Id) (m : Mode Id) :
    st.accepted (a.on (st.activate i m)) = a.mode := by
  simp [State.accepted, State.activate, Effect.on, Effect.mode]

/-- It makes no difference whether a rule is made active before or after an effect was undone. -/
theorem Effect.activate_on (a : Effect Id) (m : Mode Id) :
    ((a.undo st.position).on st).activate i m = (a.undo st.position).on (st.activate i m) := rfl

/-- Another evaluation runs the body in the state in which the rule was entered, apart from the
answer of the rule, the furthest position and the log. -/
theorem Body.DoneBy.redone (hp : B.DoneBy s i pos fs p) {v : Verdict} {acc a : Effect Id}
    (hacc : acc.Within s pos) (hround : B acc.mode v a) (hst : st.At fs pos) (m : Mode Id) :
    p ((st.resume (acc.on (st.activate i m))).activate i (st.accepted (acc.on (st.activate i m)))) =
      (v, (Effect.redone pos acc a).on (st.activate i acc.mode)) := by
  rw [State.resume_on, State.accepted_on, Effect.activate_on, hst.position_eq, Effect.redone,
    Effect.andThen_on]
  refine hp _ _ _ hacc.mode_fits hround _ ?_
  exact Effect.on_at (hst.activate acc.mode) hacc.le_reach

/-- To keep an accepted result after a further evaluation is to undo that and replay the result. -/
theorem State.conclude_on {acc : Effect Id} (hacc : acc.stop ≤ acc.reach) (a : Effect Id)
    (pos : Nat) (m m' : Mode Id) :
    st.conclude (acc.on (st.activate i m)) ((Effect.redone pos acc a).on (st.activate i m')) =
      (((Effect.redone pos acc a).undo pos).andThen acc.again).on st := by
  have hmax : max (max acc.reach a.reach) acc.stop = max acc.reach a.reach :=
    Nat.max_eq_left (Nat.le_trans hacc (Nat.le_max_left _ _))
  simp [State.conclude, State.resume, State.activate, Effect.on, Effect.redone, Effect.andThen,
    Effect.undo, Effect.again, Effect.replay, hmax]

/-- The loop of the reference carries out the improvements, one round for each element that is
left. -/
theorem Improves.does (hB : B.Lawful s i pos fs) (hp : B.DoneBy s i pos fs p)
    (hpos : s.Boundary pos) {v : Verdict} {acc b : Effect Id} (h : Improves pos B acc v b)
    (hacc : acc.Within s pos) {n : Nat} (hn : s.after acc.stop < n) (hst : st.At fs pos)
    (m : Mode Id) :
    Parser.improve i p st n (acc.on (st.activate i m)) = (v, b.on st) := by
  induction h generalizing n m with
  | @further acc a b v hround hmore _ ih =>
    obtain ⟨n, rfl⟩ : ∃ n', n = n' + 1 := ⟨n - 1, by omega⟩
    have ha := (hB _ _ _ hacc.mode_fits hround).toWithin
    have hfewer := hacc.boundary.after_lt ha.boundary hmore
    have hleft : s.after (Effect.redone pos acc a).stop < n := show s.after a.stop < n by omega
    have hrest := ih (hacc.redone ha hpos) hleft acc.mode
    simp only [Parser.improve, hp.redone hacc hround hst m, ← hrest]
    exact if_pos hmore
  | @settled acc a v hround hno =>
    obtain ⟨n, rfl⟩ : ∃ n', n = n' + 1 := ⟨n - 1, by omega⟩
    rw [← State.conclude_on hacc.stop_le_reach a pos m acc.mode]
    simp only [Parser.improve, hp.redone hacc hround hst m]
    rcases hno with rfl | ⟨rfl, hstay⟩
    · rfl
    · exact if_neg (Nat.not_lt.2 hstay)
  | @signal q acc a hround =>
    obtain ⟨n, rfl⟩ : ∃ n', n = n' + 1 := ⟨n - 1, by omega⟩
    simp only [Parser.improve, hp.redone hacc hround hst m]
    rw [State.resume_on, hst.position_eq]

/-- `Parser.resolve` does what the policy without signals says. -/
theorem resolves_realizedBy (s : Source α) :
    Policy.RealizedBy s (Resolves : Policy Id) Parser.resolve := by
  intro n i pos name B fs v a p bound hpos hfs hbound hB h st hst
  have hactive : st.active? i = Frame.answer? fs i pos := by
    rw [State.active?, hst.frames_eq, hst.position_eq]
    exact hfs.find?_eq_answer? (Nat.le_refl pos) i
  unfold Parser.resolve
  rw [hactive]
  generalize Frame.answer? fs i pos = active at h hB
  cases h with
  | refuse hsome hm =>
    subst hsome
    rw [hst.jump_on]
    rcases hm with rfl | rfl
    · rfl
    · rfl
  | replay hgrowing =>
    subst hgrowing
    rw [Effect.replay_on]
  | barren hnone hseed hv =>
    subst hnone
    obtain ⟨hlawful, hp⟩ := hB rfl
    have hbody := hp .seeding _ _ trivial hseed _ (hst.activate .seeding)
    simp only [hbody]
    cases v with
    | ok => exact absurd rfl hv
    | mismatch | leftRecursion | fault | exhausted =>
      simp only [State.resume_on, hst.position_eq]
  | @improved v b c hnone hseed himproves =>
    subst hnone
    obtain ⟨hlawful, hp⟩ := hB rfl
    have hb := (hlawful .seeding _ _ trivial hseed).toWithin
    have hafter := hb.boundary.after_add_le_size
    have hbody := hp .seeding _ _ trivial hseed _ (hst.activate .seeding)
    simp only [hbody]
    exact himproves.does hlawful hp hpos hb (by omega) hst .seeding

end realized

end Peg
