import Peg.Proofs.Derives

/-!
# How the engine invokes a rule

The policy of the engine: a rule that is reached again where it was entered signals, does not match,
or is answered by what it last accepted, as its frame says; a rule that is entered parses its body,
and when the body signals this very rule, parses it once more for a seed and grows the seed.

`Growth` are the rounds of growth, `Invokes` is an invocation as a whole. The policy is lawful
(`invokes_lawful`) and `Parser.invoke` realizes it (`invokes_realizedBy`). In both proofs everything
turns on the mode of the rule's own frame: while the rule seeds or grows, its frame is not fresh, so
a signal that comes out of its body belongs to another rule, further out on the stack.
-/

namespace Peg

variable {α Id : Type}

namespace Effect

/-- Takes an earlier result over. -/
def replay (stop : Nat) (forest : List (Match Id)) (errors : List (SyntaxError Id)) : Effect Id :=
  ⟨stop, stop, forest, errors, []⟩

/-- The result of an effect once more, without how it came about. -/
def again (a : Effect Id) : Effect Id := replay a.stop a.forest a.errors

/-- The mode in which the result of an effect stands for a rule. -/
def mode (a : Effect Id) : Mode Id := .growing a.stop a.forest a.errors

/-- The effect of one more round of growth: what was accepted before is dropped, and the new round
begins where the rule was entered. -/
def retried (name : String) (pos k : Nat) (acc a : Effect Id) : Effect Id :=
  ((acc.note (.growing name pos (k + 1) acc.stop)).undo pos).andThen a

/-- The effect of an invocation, with its entry and exit in the log. -/
def framed (name : String) (pos : Nat) (v : Verdict) (a : Effect Id) : Effect Id :=
  (((jump pos).note (.enter name pos)).andThen a).note (.leave name pos v)

end Effect

section policy

variable (size rule : Nat) (name : String) (pos : Nat) (B : Body Id)

/-- The rounds of growth: `k` rounds were run before, and `acc` is what was accepted last. -/
inductive Growth : Nat → Effect Id → Verdict → Effect Id → Prop
  /-- Nothing is left that a further round could consume. -/
  | full {k : Nat} {acc : Effect Id} :
      size ≤ acc.stop → Growth k acc .ok ((acc.undo pos).andThen acc.again)
  /-- A round gets further, and its result is accepted. -/
  | further {k : Nat} {acc a b : Effect Id} {v : Verdict} :
      acc.stop < size → B acc.mode .ok a → acc.stop < a.stop →
      Growth (k + 1) (.retried name pos k acc a) v b → Growth k acc v b
  /-- A round does not get further, and what was accepted before is the result. -/
  | settled {k : Nat} {acc a : Effect Id} {v : Verdict} :
      acc.stop < size → B acc.mode v a → (v = .mismatch ∨ v = .ok ∧ a.stop ≤ acc.stop) →
      Growth k acc .ok (((Effect.retried name pos k acc a).undo pos).andThen acc.again)
  /-- A round runs into the left recursion of another rule. -/
  | signal {k q : Nat} {acc a : Effect Id} :
      acc.stop < size → B acc.mode (.leftRecursion q) a →
      Growth k acc (.leftRecursion q) ((Effect.retried name pos k acc a).undo pos)

/-- An invocation of a rule; `active` is the answer of its frame, if it is being parsed here. -/
inductive Invokes (active : Option (Mode Id)) : Verdict → Effect Id → Prop
  /-- The rule is reached again and has not answered yet. -/
  | signal : active = some .fresh →
      Invokes active (.leftRecursion rule) ((Effect.jump pos).note (.leftRecursion name pos))
  /-- The rule is reached again while it seeds. -/
  | refuse : active = some .seeding → Invokes active .mismatch (.jump pos)
  /-- The rule is reached again while it grows. -/
  | replay {stop : Nat} {forest : List (Match Id)} {errors : List (SyntaxError Id)} :
      active = some (.growing stop forest errors) →
      Invokes active .ok (.replay stop forest errors)
  /-- The body does not run into the rule itself. -/
  | once {v : Verdict} {a : Effect Id} :
      active = none → B .fresh v a → v ≠ .leftRecursion rule →
      Invokes active v (a.framed name pos v)
  /-- The body runs into the rule itself and gives no seed. -/
  | barren {v : Verdict} {a b : Effect Id} :
      active = none → B .fresh (.leftRecursion rule) a → B .seeding v b → v ≠ .ok →
      Invokes active v ((a.andThen b).framed name pos v)
  /-- The body runs into the rule itself, and a seed grows to its end. -/
  | grown {a b c : Effect Id} :
      active = none → B .fresh (.leftRecursion rule) a → B .seeding .ok b →
      Growth size name pos B 0 b .ok c →
      Invokes active .ok ((a.andThen (c.note (.grown name pos c.stop))).framed name pos .ok)
  /-- The body runs into the rule itself, and the growth of a seed is given up. -/
  | aborted {v : Verdict} {a b c : Effect Id} :
      active = none → B .fresh (.leftRecursion rule) a → B .seeding .ok b →
      Growth size name pos B 0 b v c → v ≠ .ok →
      Invokes active v ((a.andThen c).framed name pos v)

end policy

/-! ## The policy is lawful -/

namespace Effect

variable {s : Source α} {pos : Nat} {a b : Effect Id}

/-- A result that is taken over stays within the source. -/
theorem Within.again (ha : a.Within s pos) : a.again.Within s pos :=
  ⟨ha.le_stop, Nat.le_refl a.stop, ha.boundary.le_size, ha.boundary⟩

/-- The mode in which a result stands for a rule fits where the result began. -/
theorem Within.mode_fits (ha : a.Within s pos) : a.mode.Fits s pos := ⟨ha.boundary, ha.le_stop⟩

/-- A log entry does not move an effect. -/
theorem Within.note (ha : a.Within s pos) (e : Event) : (a.note e).Within s pos :=
  ⟨ha.le_stop, ha.stop_le_reach, ha.reach_le_size, ha.boundary⟩

/-- One more round of growth stays within the source. -/
theorem Within.retried (name : String) (k : Nat) (ha : a.Within s pos) (hb : b.Within s pos)
    (hpos : s.Boundary pos) : (Effect.retried name pos k a b).Within s pos :=
  ((ha.note _).undo_start hpos).andThen hb

end Effect

/-- A signal that comes out of the body of a rule that has a fresh frame no more, or that is not the
rule's own, was possible before the rule was entered. -/
theorem Frame.Signals.of_cons {i pos q : Nat} {m : Mode Id} {fs : List (Frame Id)}
    (h : Frame.Signals (⟨i, pos, m⟩ :: fs) q pos) (hm : m ≠ .fresh ∨ q ≠ i) :
    Frame.Signals fs q pos := by
  have hq : q ≠ i := by
    rcases hm with hm | hq
    · rintro rfl
      rw [Frame.Signals, Frame.answer?_cons_self] at h
      exact hm (Option.some.inj h)
    · exact hq
  rwa [Frame.Signals, Frame.answer?_cons_ne hq] at h

section lawful

variable {s : Source α} {i pos : Nat} {name : String} {B : Body Id} {fs : List (Frame Id)}

/-- An invocation conforms if the body that it enters does. -/
theorem Conforms.framed {t : Task α Id} {L : Nat → Nat → Prop} {v : Verdict} {a : Effect Id}
    (h : Conforms s L t pos v a) (hpos : s.Boundary pos) (ht : t.isSettled = true) :
    Conforms s L (.expr (.rule i)) pos v (a.framed name pos v) where
  toWithin := (((Effect.Within.jump hpos).note _).andThen h.toWithin).note _
  answer := h.answer
  silent := fun _ hv =>
    { (Effect.silent_jump pos).andThen (h.silent ht hv) with }
  signal := h.signal

/-- The growth of a rule conforms: what a round accepts moves forward, and what fails is taken
back. -/
theorem Growth.conforms (hB : B.Lawful s i pos fs) (hpos : s.Boundary pos) {k : Nat} {v : Verdict}
    {acc b : Effect Id} (hacc : acc.Within s pos) (h : Growth s.size name pos B k acc v b) :
    Conforms s (Frame.Signals fs) (.expr (.rule i) : Task α Id) pos v b := by
  induction h with
  | full _ => exact ⟨(hacc.undo_start hpos).andThen hacc.again, rfl, nofun, nofun⟩
  | further _ hbody _ _ ih =>
    exact ih (hacc.retried _ _ (hB _ _ _ hacc.mode_fits hbody).toWithin hpos)
  | settled _ hbody _ =>
    have ha := (hB _ _ _ hacc.mode_fits hbody).toWithin
    exact ⟨((hacc.retried _ _ ha hpos).undo_start hpos).andThen hacc.again, rfl, nofun, nofun⟩
  | signal _ hbody =>
    have ha := hB _ _ _ hacc.mode_fits hbody
    refine ⟨(hacc.retried _ _ ha.toWithin hpos).undo_start hpos, rfl,
      fun _ _ => Effect.silent_undo _ _, fun q hq => ?_⟩
    exact (ha.signal q hq).of_cons (Or.inl nofun)

/-- Growth ends because every accepted round leaves fewer elements. -/
theorem Growth.total (name : String) (hB : B.Lawful s i pos fs) (hT : B.Total s pos)
    (hpos : s.Boundary pos) {acc : Effect Id} (hacc : acc.Within s pos) (k : Nat) :
    ∃ v b, Growth s.size name pos B k acc v b := by
  induction hn : s.after acc.stop using Nat.strongRecOn generalizing acc k with
  | ind n ih =>
    by_cases hfull : s.size ≤ acc.stop
    · exact ⟨_, _, .full hfull⟩
    · have hlt := Nat.lt_of_not_le hfull
      obtain ⟨v, a, hbody⟩ := hT acc.mode hacc.mode_fits
      have ha := hB _ _ _ hacc.mode_fits hbody
      cases v with
      | ok =>
        by_cases hmore : acc.stop < a.stop
        · have hfewer := hacc.boundary.after_lt ha.boundary hmore
          obtain ⟨w, b, hrest⟩ := ih (s.after a.stop) (hn ▸ hfewer)
            (hacc.retried name k ha.toWithin hpos) (k + 1) rfl
          exact ⟨w, b, .further hlt hbody hmore hrest⟩
        · exact ⟨_, _, .settled hlt hbody (Or.inr ⟨rfl, Nat.le_of_not_lt hmore⟩)⟩
      | mismatch => exact ⟨_, _, .settled hlt hbody (Or.inl rfl)⟩
      | leftRecursion q => exact ⟨_, _, .signal hlt hbody⟩
      | fault => cases ha.answer
      | exhausted => cases ha.answer

/-- The engine's way of invoking rules keeps to the laws of runs and comes out somehow. -/
theorem invokes_lawful (s : Source α) : Policy.Lawful s (Invokes : Policy Id) where
  conforms := by
    intro n i pos name B fs v a hpos hfs hB h
    generalize hactive : Frame.answer? fs i pos = active at h hB
    cases h with
    | signal hfresh =>
      refine ⟨(Effect.Within.jump hpos).note _, rfl, fun _ _ => ⟨rfl, rfl, rfl⟩, fun q hq => ?_⟩
      cases hq
      exact hactive.trans hfresh
    | refuse _ => exact ⟨.jump hpos, rfl, fun _ _ => Effect.silent_jump pos, nofun⟩
    | replay hgrowing =>
      obtain ⟨hstop, hle⟩ := hfs.fits_of_answer? (hactive.trans hgrowing)
      exact ⟨⟨hle, Nat.le_refl _, hstop.le_size, hstop⟩, rfl, nofun, nofun⟩
    | once hnone hbody hother =>
      have ha := hB hnone .fresh _ _ trivial hbody
      refine Conforms.framed (t := .expr (.rule i)) ?_ hpos rfl
      refine { ha with signal := fun q hq => (ha.signal q hq).of_cons (Or.inr ?_) }
      rintro rfl
      exact hother hq
    | barren hnone hfirst hseed _ =>
      have ha := hB hnone .fresh _ _ trivial hfirst
      have hb := hB hnone .seeding _ _ trivial hseed
      have hsilent := ha.silent rfl rfl
      refine Conforms.framed (t := .expr (.rule i)) ?_ hpos rfl
      exact ⟨ha.toWithin.andThen (hsilent.stop_eq ▸ hb.toWithin), hb.answer,
        fun _ hv => hsilent.andThen (hb.silent rfl hv),
        fun q hq => (hb.signal q hq).of_cons (Or.inl nofun)⟩
    | grown hnone hfirst hseed hgrowth =>
      have ha := hB hnone .fresh _ _ trivial hfirst
      have hb := hB hnone .seeding _ _ trivial hseed
      have hc := Growth.conforms (hB hnone) hpos hb.toWithin hgrowth
      refine Conforms.framed (t := .expr (.rule i)) ?_ hpos rfl
      exact ⟨ha.toWithin.andThen ((ha.silent rfl rfl).stop_eq ▸ hc.toWithin.note _), rfl, nofun,
        nofun⟩
    | aborted hnone hfirst hseed hgrowth _ =>
      have ha := hB hnone .fresh _ _ trivial hfirst
      have hb := hB hnone .seeding _ _ trivial hseed
      have hc := Growth.conforms (hB hnone) hpos hb.toWithin hgrowth
      have hsilent := ha.silent rfl rfl
      refine Conforms.framed (t := .expr (.rule i)) ?_ hpos rfl
      exact ⟨ha.toWithin.andThen (hsilent.stop_eq ▸ hc.toWithin), hc.answer,
        fun _ hv => hsilent.andThen (hc.silent rfl hv), hc.signal⟩
  total := by
    intro n i pos B fs name hpos hfs hB
    cases hactive : Frame.answer? fs i pos with
    | some m =>
      cases m with
      | fresh => exact ⟨_, _, .signal rfl⟩
      | seeding => exact ⟨_, _, .refuse rfl⟩
      | growing stop forest errors => exact ⟨_, _, .replay rfl⟩
    | none =>
      obtain ⟨hlawful, htotal⟩ := hB hactive
      obtain ⟨v, a, hfirst⟩ := htotal .fresh trivial
      by_cases hv : v = .leftRecursion i
      · subst hv
        obtain ⟨w, b, hseed⟩ := htotal .seeding trivial
        by_cases hw : w = .ok
        · subst hw
          have hb := (hlawful .seeding _ _ trivial hseed).toWithin
          obtain ⟨u, c, hgrowth⟩ := Growth.total name hlawful htotal hpos hb 0
          by_cases hu : u = .ok
          · subst hu
            exact ⟨_, _, .grown rfl hfirst hseed hgrowth⟩
          · exact ⟨_, _, .aborted rfl hfirst hseed hgrowth hu⟩
        · exact ⟨_, _, .barren rfl hfirst hseed hw⟩
      · exact ⟨_, _, .once rfl hfirst hv⟩

end lawful

/-! ## The policy is what `Parser.invoke` does -/

/-- The state in which the body of a rule is parsed in the next round of growth. -/
def State.regrown (rule : Nat) (name : String) (start : Checkpoint) (iteration : Nat)
    (forest : List (Match Id)) (errors : List (SyntaxError Id)) (st : State Id) : State Id :=
  ((st.note (.growing name start.position (iteration + 1) st.position)).restore start).setMode rule
    (.growing st.position forest errors)

section realized

variable {s : Source α} {i pos : Nat} {name : String} {B : Body Id} {fs : List (Frame Id)}
  {p : Parser Id}

/-- What a run appended is what was recorded since it began. -/
theorem Effect.since?_on (a : Effect Id) (st : State Id) :
    (a.on st).since? st.checkpoint = some (a.forest, a.errors) := by
  simp [Effect.on, State.since?, State.checkpoint]

/-- Taking a result over is what the state does when a growing rule answers. -/
theorem Effect.replay_on (stop : Nat) (forest : List (Match Id)) (errors : List (SyntaxError Id))
    (st : State Id) :
    (Effect.replay stop forest errors).on st = st.replay stop forest errors := rfl

/-- The innermost frame gets its mode. -/
theorem State.At.setMode {st : State Id} {m : Mode Id} (hst : st.At (⟨i, pos, m⟩ :: fs) pos)
    (m' : Mode Id) : (st.setMode i m').At (⟨i, pos, m'⟩ :: fs) pos where
  position_eq := hst.position_eq
  frames_eq := by rw [State.setMode, hst.frames_eq, Frame.setMode_cons_self]
  le_furthest := hst.le_furthest

/-- The last mode that the innermost frame gets is the one it has. -/
theorem State.At.setMode_setMode {st : State Id} {m : Mode Id}
    (hst : st.At (⟨i, pos, m⟩ :: fs) pos) (m₁ m₂ : Mode Id) :
    (st.setMode i m₁).setMode i m₂ = st.setMode i m₂ := by
  simp only [State.setMode, hst.frames_eq, Frame.setMode_cons_self]

/-- Giving the innermost frame its own mode changes nothing. -/
theorem State.At.setMode_self {st : State Id} {m : Mode Id}
    (hst : st.At (⟨i, pos, m⟩ :: fs) pos) : st.setMode i m = st := by
  rw [State.setMode, hst.frames_eq, Frame.setMode_cons_self, ← hst.frames_eq]

/-- The state of the next round, said by the effect that was accepted last: it is taken back, and
the frame answers with it. -/
theorem State.regrown_on (acc : Effect Id) (st : State Id) (name : String) (k : Nat) :
    (acc.on st).regrown i name st.checkpoint k acc.forest acc.errors =
      ((acc.note (.growing name st.position (k + 1) acc.stop)).undo st.position).on
        (st.setMode i acc.mode) := by
  show ((((acc.note (.growing name st.position (k + 1) acc.stop)).on st).restore
    st.checkpoint).setMode i acc.mode) = _
  rw [Effect.on_restore]
  rfl

/-- A round of growth runs the body in the state in which the rule was entered, apart from the mode
of its frame, the furthest position and the log. -/
theorem Body.DoneBy.retried (name : String) (k : Nat) (hp : B.DoneBy s i pos fs p) {w : Verdict}
    {acc a : Effect Id} (hacc : acc.Within s pos) (hbody : B acc.mode w a) {m : Mode Id}
    {st : State Id} (hst : st.At (⟨i, pos, m⟩ :: fs) pos) :
    p ((acc.on st).regrown i name st.checkpoint k acc.forest acc.errors) =
      (w, (Effect.retried name pos k acc a).on (st.setMode i acc.mode)) := by
  rw [State.regrown_on, hst.position_eq, Effect.retried, Effect.andThen_on]
  refine hp _ _ _ hacc.mode_fits hbody _ ?_
  exact Effect.on_at (hst.setMode acc.mode) hacc.le_reach

/-- Before the end of the source, another round is run. -/
theorem Parser.growRounds_succ {k n : Nat} {start : Checkpoint} {st : State Id}
    {forest : List (Match Id)} {errors : List (SyntaxError Id)}
    (hsince : st.since? start = some (forest, errors)) (hlt : st.position < s.size) :
    Parser.growRounds s i name p start (n + 1) k st =
      match p (st.regrown i name start k forest errors) with
      | (.ok, st') =>
        if st.position < st'.position then Parser.growRounds s i name p start n (k + 1) st'
        else (.ok, (st'.restore start).replay st.position forest errors)
      | (.mismatch, st') => (.ok, (st'.restore start).replay st.position forest errors)
      | result => Parser.settle start result := by
  simp only [Parser.growRounds, hsince, if_neg (Nat.not_le.2 hlt)]
  rfl

/-- The rounds of growth, with the frame of the rule in some mode at the end. -/
theorem Growth.does (hB : B.Lawful s i pos fs) (hp : B.DoneBy s i pos fs p) (hpos : s.Boundary pos)
    {k : Nat} {v : Verdict} {acc b : Effect Id} (h : Growth s.size name pos B k acc v b)
    (hacc : acc.Within s pos) {n : Nat} (hn : s.after acc.stop < n) {m : Mode Id} {st : State Id}
    (hst : st.At (⟨i, pos, m⟩ :: fs) pos) :
    ∃ m', Parser.growRounds s i name p st.checkpoint n k (acc.on st) =
      (v, b.on (st.setMode i m')) := by
  have hstart : st.checkpoint.position = pos := hst.position_eq
  induction h generalizing n m st with
  | @full k acc hfull =>
    obtain ⟨n, rfl⟩ : ∃ n', n = n' + 1 := ⟨n - 1, by omega⟩
    refine ⟨m, ?_⟩
    simp only [Parser.growRounds, Effect.since?_on, Effect.on_position, if_pos hfull,
      Effect.on_restore, hst.position_eq, hst.setMode_self, Effect.andThen_on]
    rfl
  | @further k acc a b v hlt hbody hmore _ ih =>
    obtain ⟨n, rfl⟩ : ∃ n', n = n' + 1 := ⟨n - 1, by omega⟩
    have ha := (hB _ _ _ hacc.mode_fits hbody).toWithin
    have hfewer := hacc.boundary.after_lt ha.boundary hmore
    have hleft : s.after (Effect.retried name pos k acc a).stop < n := by
      show s.after a.stop < n
      omega
    obtain ⟨m', hrest⟩ := ih (hacc.retried name k ha hpos) hleft (hst.setMode acc.mode) hstart
    refine ⟨m', ?_⟩
    rw [hst.setMode_setMode] at hrest
    rw [← hrest, Parser.growRounds_succ (Effect.since?_on acc st) hlt,
      hp.retried name k hacc hbody hst]
    exact if_pos hmore
  | @settled k acc a v hlt hbody hno =>
    obtain ⟨n, rfl⟩ : ∃ n', n = n' + 1 := ⟨n - 1, by omega⟩
    refine ⟨acc.mode, ?_⟩
    have hback : (((Effect.retried name pos k acc a).on (st.setMode i acc.mode)).restore
        st.checkpoint).replay acc.stop acc.forest acc.errors =
        (((Effect.retried name pos k acc a).undo pos).andThen acc.again).on
          (st.setMode i acc.mode) := by
      rw [show st.checkpoint = (st.setMode i acc.mode).checkpoint from rfl, Effect.on_restore,
        (hst.setMode acc.mode).position_eq, Effect.andThen_on, Effect.again, Effect.replay_on]
    rw [← hback, Parser.growRounds_succ (Effect.since?_on acc st) hlt,
      hp.retried name k hacc hbody hst]
    rcases hno with rfl | ⟨rfl, hstay⟩
    · rfl
    · exact if_neg (Nat.not_lt.2 hstay)
  | @signal k q acc a hlt hbody =>
    obtain ⟨n, rfl⟩ : ∃ n', n = n' + 1 := ⟨n - 1, by omega⟩
    refine ⟨acc.mode, ?_⟩
    rw [Parser.growRounds_succ (Effect.since?_on acc st) hlt, hp.retried name k hacc hbody hst]
    have hsettle := Effect.settle_on (Effect.retried name pos k acc a) (st.setMode i acc.mode)
      (.leftRecursion q)
    rw [(hst.setMode acc.mode).position_eq] at hsettle
    exact hsettle

/-- A rule does not grow if seeding does not match. -/
theorem Parser.grow_barren (hp : B.DoneBy s i pos fs p) {v : Verdict} {b : Effect Id}
    (hseed : B .seeding v b) (hv : v ≠ .ok) {bound : Nat} {m : Mode Id} {st : State Id}
    (hst : st.At (⟨i, pos, m⟩ :: fs) pos) :
    Parser.grow s bound i name pos p st = (v, b.on (st.setMode i .seeding)) := by
  have hbody := hp .seeding v b trivial hseed _ (hst.setMode .seeding)
  simp only [Parser.grow, hst.position_eq, ne_eq, not_true_eq_false, if_false, hbody]
  cases v with
  | ok => exact absurd rfl hv
  | mismatch | leftRecursion | fault | exhausted => rfl

/-- After a seed, a rule does what its growth says, and only the mode of its frame differs. -/
theorem Parser.grow_growth (hB : B.Lawful s i pos fs) (hp : B.DoneBy s i pos fs p)
    (hpos : s.Boundary pos) {v : Verdict} {b c : Effect Id} (hseed : B .seeding .ok b)
    (hgrowth : Growth s.size name pos B 0 b v c) {bound : Nat} (hbound : s.size < bound)
    {m : Mode Id} {st : State Id} (hst : st.At (⟨i, pos, m⟩ :: fs) pos) :
    ∃ m', Parser.grow s bound i name pos p st =
      (v, (if v = .ok then c.note (.grown name pos c.stop) else c).on (st.setMode i m')) := by
  have hbody := hp .seeding .ok b trivial hseed _ (hst.setMode .seeding)
  have hb := (hB .seeding .ok b trivial hseed).toWithin
  have hafter := hb.boundary.after_add_le_size
  obtain ⟨m', hrounds⟩ := hgrowth.does (n := bound) hB hp hpos hb (by omega)
    (hst.setMode .seeding)
  rw [hst.setMode_setMode] at hrounds
  have hstart : (st.setMode i .seeding).checkpoint = st.checkpoint := rfl
  rw [hstart] at hrounds
  refine ⟨m', ?_⟩
  simp only [Parser.grow, hst.position_eq, ne_eq, not_true_eq_false, if_false, hbody, hrounds]
  cases v <;> rfl

/-- Leaving a rule: the stack is as it was, and entry and exit stand in the log. -/
theorem Effect.framed_on (a : Effect Id) (v : Verdict) (m : Mode Id) {st : State Id}
    (hst : st.At fs pos) :
    (((a.on (((st.pushFrame i).note (.enter name pos)).setMode i m)).popFrame i).note
      (.leave name pos v)) = (a.framed name pos v).on st := by
  have hmax : max st.furthest pos = st.furthest := Nat.max_eq_left hst.le_furthest
  simp [Effect.framed, Effect.on, Effect.note, Effect.andThen, Effect.jump, State.note,
    State.popFrame, State.setMode, State.pushFrame, Frame.setMode, ← Nat.max_assoc, hmax]

/-- Inside a rule that was just entered, the state is at the place where its body begins. -/
theorem State.At.entered {st : State Id} (hst : st.At fs pos) (e : Event) :
    ((st.pushFrame i).note e).At (⟨i, pos, .fresh⟩ :: fs) pos where
  position_eq := hst.position_eq
  frames_eq := by simp only [State.note, State.pushFrame, hst.frames_eq, hst.position_eq]
  le_furthest := hst.le_furthest

/-- A rule whose body does not signal it does what the body does, under a frame of its own. -/
theorem Parser.enter_once {v : Verdict} {a : Effect Id} {bound : Nat}
    (hbody : p.Does (⟨i, pos, .fresh⟩ :: fs) pos v a) (hv : v.isAnswer = true)
    (hother : v ≠ .leftRecursion i) :
    (Parser.enter s bound i name p).Does fs pos v (a.framed name pos v) := by
  intro st hst
  have hin := hst.entered (i := i) (.enter name pos)
  rw [← Effect.framed_on (i := i) a v .fresh hst, hin.setMode_self]
  simp only [Parser.enter, hst.position_eq, hbody _ hin]
  cases v with
  | leftRecursion q =>
    have hq : q ≠ i := fun h => hother (h ▸ rfl)
    simp only [if_neg hq, if_pos hv]
  | ok | mismatch => rfl
  | fault | exhausted => cases hv

/-- A rule whose body signals it, silently, goes on to grow. -/
theorem Parser.enter_grow {v : Verdict} {a c : Effect Id} {bound : Nat}
    (hbody : p.Does (⟨i, pos, .fresh⟩ :: fs) pos (.leftRecursion i) a) (ha : a.Silent pos)
    (hreach : pos ≤ a.reach)
    (hgrow : ∀ st, st.At (⟨i, pos, .fresh⟩ :: fs) pos →
      ∃ m, Parser.grow s bound i name pos p st = (v, c.on (st.setMode i m)))
    (hv : v.isAnswer = true) :
    (Parser.enter s bound i name p).Does fs pos v ((a.andThen c).framed name pos v) := by
  intro st hst
  have hin := hst.entered (i := i) (.enter name pos)
  have hback := Effect.on_at hin (ha.stop_eq ▸ hreach)
  rw [ha.stop_eq] at hback
  obtain ⟨m, hm⟩ := hgrow _ hback
  rw [← Effect.framed_on (i := i) _ v m hst, Effect.andThen_on]
  simp only [Parser.enter, hst.position_eq, hbody _ hin, if_true, hm, if_pos hv]
  rfl

/-- An invocation is decided by the answer of the rule's frame. -/
theorem Parser.invoke_eq {bound : Nat} {st : State Id} (hst : st.At fs pos) :
    Parser.invoke s bound i name p st =
      match Frame.answer? fs i pos with
      | none => Parser.enter s bound i name p st
      | some .fresh => (.leftRecursion i, st.note (.leftRecursion name pos))
      | some .seeding => (.mismatch, st)
      | some (.growing stop forest errors) => (.ok, st.replay stop forest errors) := by
  unfold Parser.invoke Frame.answer? State.frame?
  rw [hst.frames_eq, hst.position_eq]
  cases (fs.find? fun f => f.rule == i).filter fun f => f.position == pos with
  | none => rfl
  | some f =>
    simp only [Option.map_some]
    cases f.mode <;> rfl

/-- Staying at the cursor changes nothing. -/
theorem State.At.jump_on {st : State Id} (hst : st.At fs pos) : (Effect.jump pos).on st = st := by
  rw [← hst.position_eq]
  exact Effect.jump_on st (hst.position_eq ▸ hst.le_furthest)

/-- `Parser.invoke` does what the policy of the engine says, whatever the frames are. -/
theorem Invokes.does {v : Verdict} {a : Effect Id} {bound : Nat} (hpos : s.Boundary pos)
    (hbound : s.size < bound)
    (hB : Frame.answer? fs i pos = none → B.Lawful s i pos fs ∧ B.DoneBy s i pos fs p)
    (h : Invokes s.size i name pos B (Frame.answer? fs i pos) v a) :
    (Parser.invoke s bound i name p).Does fs pos v a := by
  intro st hst
  rw [Parser.invoke_eq hst]
  generalize Frame.answer? fs i pos = active at h hB
  cases h with
  | signal hfresh =>
    subst hfresh
    rw [Effect.note_on, hst.jump_on]
  | refuse hseeding =>
    subst hseeding
    rw [hst.jump_on]
  | @replay stop forest errors hgrowing =>
    subst hgrowing
    rw [Effect.replay_on]
  | once hnone hbody hother =>
    subst hnone
    obtain ⟨hlawful, hp⟩ := hB rfl
    have ha := hlawful .fresh _ _ trivial hbody
    exact Parser.enter_once (hp .fresh _ _ trivial hbody) ha.answer hother st hst
  | barren hnone hfirst hseed hv =>
    subst hnone
    obtain ⟨hlawful, hp⟩ := hB rfl
    have ha := hlawful .fresh _ _ trivial hfirst
    refine Parser.enter_grow (hp .fresh _ _ trivial hfirst) (ha.silent rfl rfl) ha.le_reach
      (fun st' hst' => ⟨.seeding, Parser.grow_barren hp hseed hv hst'⟩)
      (hlawful .seeding _ _ trivial hseed).answer st hst
  | grown hnone hfirst hseed hgrowth =>
    subst hnone
    obtain ⟨hlawful, hp⟩ := hB rfl
    have ha := hlawful .fresh _ _ trivial hfirst
    refine Parser.enter_grow (hp .fresh _ _ trivial hfirst) (ha.silent rfl rfl) ha.le_reach
      (fun st' hst' => ?_) rfl st hst
    exact Parser.grow_growth hlawful hp hpos hseed hgrowth hbound hst'
  | aborted hnone hfirst hseed hgrowth hv =>
    subst hnone
    obtain ⟨hlawful, hp⟩ := hB rfl
    have ha := hlawful .fresh _ _ trivial hfirst
    have hb := hlawful .seeding _ _ trivial hseed
    refine Parser.enter_grow (hp .fresh _ _ trivial hfirst) (ha.silent rfl rfl) ha.le_reach
      (fun st' hst' => ?_) (Growth.conforms hlawful hpos hb.toWithin hgrowth).answer st hst
    have hgrow := Parser.grow_growth hlawful hp hpos hseed hgrowth hbound hst'
    rwa [if_neg hv] at hgrow

/-- The protocol of the engine carries out what the rules of invocations say. -/
theorem invokes_realizedBy (s : Source α) :
    Policy.RealizedBy s (Invokes : Policy Id) Parser.invoke := by
  intro n i pos name B fs v a p bound hpos _ hbound hB h
  exact h.does hpos hbound hB

end realized

end Peg
