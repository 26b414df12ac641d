import Mathlib.Logic.Relation
import Peg.Proofs.Growth

/-!
# The calls of a parse

A parse is a tree of calls: an expression calls for its parts, a rule for its body, first, for a
seed and then round after round. `Calls` says which calls one call makes and in which states it
makes them, exactly as the parsers do; `Grammar.Arises` is what can be reached in this way from the
call with which a parse begins, and `Grammar.Context` are the states in which these calls are made
and those in which they come back.

The states that arise are not arbitrary. `State.Proper` collects what holds of all of them:

* the frames are a stack in the sense of `Peg.Proofs.Stack`, below the cursor;
* the cursor is on a boundary, not beyond the furthest position, which is not beyond the end;
* the bound leaves room for all rules that can still be nested.

One call preserves this (`Calls.sound`), so it holds of every call that arises (`Arises.sound`) and
of every context (`Context.proper`). In a proper state every plain expression comes out with an
answer and an effect that conforms (`State.Proper.run`), which is all that later modules need.
-/

namespace Peg

variable {α Id : Type}

/-! ## Calls -/

/-- A call made in the course of a parse, under a bound and in a state. -/
inductive Call (α Id : Type) where
  /-- Something is to be run. -/
  | task (bound : Nat) (t : Task α Id) (st : State Id)
  /-- A rule is to grow: it was entered at `start`, and the state holds the last accepted result,
  after the given number of rounds. -/
  | growth (bound rule : Nat) (body : Expr α Id) (start : Checkpoint) (iteration : Nat)
      (st : State Id)

namespace Call

/-- The state in which a call is made. -/
def state : Call α Id → State Id
  | task _ _ st => st
  | growth _ _ _ _ _ st => st

/-- What a call comes to, if its own loop may take the given number of rounds. -/
def run (g : Grammar α Id) (s : Source α) (rounds : Nat) : Call α Id → Verdict × State Id
  | task bound (.expr e) st => e.parser (g.setting s bound) st
  | task bound (.items es) st => Parser.inOrder (Expr.parsers (g.setting s bound) es) st
  | task bound (.loop e) st => Parser.rounds (e.parser (g.setting s bound)) st.checkpoint rounds st
  | task bound (.skip past e) st => Parser.skip s past (e.parser (g.setting s bound)) rounds st
  | growth bound rule body start iteration st =>
    Parser.growRounds s rule (g.name rule) (body.parser (g.setting s bound)) start rounds iteration
      st

end Call

/-- An expression that begins by parsing another one in the same state. -/
inductive Expr.Begins : Expr α Id → Expr α Id → Prop
  | group (e : Expr α Id) : Begins (.group e) e
  | plus (e : Expr α Id) : Begins (.plus e) e
  | optional (e : Expr α Id) : Begins (.optional e) e
  | ahead (e : Expr α Id) : Begins (.ahead e) e
  | notAhead (e : Expr α Id) : Begins (.notAhead e) e
  | tag (e : Expr α Id) (id : Id) : Begins (.tag e id) e

/-- The state in which the body of a rule is parsed at first. -/
def State.entered (rule : Nat) (name : String) (st : State Id) : State Id :=
  (st.pushFrame rule).note (.enter name st.position)

/-- One call makes another. -/
inductive Calls (g : Grammar α Id) (s : Source α) : Call α Id → Call α Id → Prop
  | begins {b : Nat} {e e' : Expr α Id} {st : State Id} :
      e.Begins e' → Calls g s (.task b (.expr e) st) (.task b (.expr e') st)
  | item {b : Nat} {before behind : List (Expr α Id)} {e : Expr α Id} {st st' : State Id} :
      (Expr.sequence before).parser (g.setting s b) st = (.ok, st') →
      Calls g s (.task b (.expr (.sequence (before ++ e :: behind))) st) (.task b (.expr e) st')
  | alternative {b : Nat} {before behind : List (Expr α Id)} {e : Expr α Id} {st st' : State Id} :
      (Expr.choice before).parser (g.setting s b) st = (.mismatch, st') →
      Calls g s (.task b (.expr (.choice (before ++ e :: behind))) st) (.task b (.expr e) st')
  | copy {b k n : Nat} {e : Expr α Id} {st st' : State Id} :
      k < n → (Expr.times e k).parser (g.setting s b) st = (.ok, st') →
      Calls g s (.task b (.expr (.times e n)) st) (.task b (.expr e) st')
  | star {b : Nat} {e : Expr α Id} {st : State Id} :
      Calls g s (.task b (.expr (.star e)) st) (.task b (.loop e) st)
  | plus {b : Nat} {e : Expr α Id} {st st' : State Id} :
      e.parser (g.setting s b) st = (.ok, st') → st'.position ≠ st.position →
      Calls g s (.task b (.expr (.plus e)) st) (.task b (.loop e) st')
  | round {b : Nat} {e : Expr α Id} {st : State Id} :
      Calls g s (.task b (.loop e) st) (.task b (.expr e) st)
  | nextRound {b : Nat} {e : Expr α Id} {st st' : State Id} :
      e.parser (g.setting s b) st = (.ok, st') → st'.position ≠ st.position →
      Calls g s (.task b (.loop e) st) (.task b (.loop e) st')
  | recoverAtEnd {b : Nat} {e f : Expr α Id} {id : Id} {st : State Id} :
      st.atEnd s = true → Calls g s (.task b (.expr (.recover e id f)) st) (.task b (.expr e) st)
  | recover {b : Nat} {e f : Expr α Id} {id : Id} {st : State Id} :
      st.atEnd s = false →
      Calls g s (.task b (.expr (.recover e id f)) st) (.task b (.expr e) st.resetFurthest)
  | fallback {b : Nat} {e f : Expr α Id} {id : Id} {st st' : State Id} :
      st.atEnd s = false → e.parser (g.setting s b) st.resetFurthest = (.mismatch, st') →
      Calls g s (.task b (.expr (.recover e id f)) st)
        (.task b (.expr f) ((st'.mergeFurthest st.furthest).restore st.checkpoint))
  | skipBefore {b : Nat} {e : Expr α Id} {st : State Id} :
      Calls g s (.task b (.expr (.skipBefore e)) st) (.task b (.skip false e) st)
  | skipPast {b : Nat} {e : Expr α Id} {st : State Id} :
      Calls g s (.task b (.expr (.skipPast e)) st) (.task b (.skip true e) st)
  | token {b : Nat} {past : Bool} {e : Expr α Id} {st : State Id} :
      st.atEnd s = false → Calls g s (.task b (.skip past e) st) (.task b (.expr e) st)
  | nextSkip {b : Nat} {past : Bool} {e : Expr α Id} {st st' : State Id} :
      st.atEnd s = false → e.parser (g.setting s b) st = (.mismatch, st') →
      Calls g s (.task b (.skip past e) st) (.task b (.skip past e) (st'.advance s 1))
  | body {b i : Nat} {e : Expr α Id} {st : State Id} :
      g.body? i = some e → Frame.answer? st.frames i st.position = none →
      Calls g s (.task (b + 1) (.expr (.rule i)) st)
        (.task b (.expr e) (st.entered i (g.name i)))
  | seed {b i : Nat} {e : Expr α Id} {st st' : State Id} :
      g.body? i = some e → Frame.answer? st.frames i st.position = none →
      e.parser (g.setting s b) (st.entered i (g.name i)) = (.leftRecursion i, st') →
      st'.position = st.position →
      Calls g s (.task (b + 1) (.expr (.rule i)) st) (.task b (.expr e) (st'.setMode i .seeding))
  | grow {b i : Nat} {e : Expr α Id} {st st' st'' : State Id} :
      g.body? i = some e → Frame.answer? st.frames i st.position = none →
      e.parser (g.setting s b) (st.entered i (g.name i)) = (.leftRecursion i, st') →
      st'.position = st.position →
      e.parser (g.setting s b) (st'.setMode i .seeding) = (.ok, st'') →
      Calls g s (.task (b + 1) (.expr (.rule i)) st) (.growth b i e st'.checkpoint 0 st'')
  | regrow {b i k : Nat} {e : Expr α Id} {start : Checkpoint} {st : State Id}
      {forest : List (Match Id)} {errors : List (SyntaxError Id)} :
      st.since? start = some (forest, errors) → st.position < s.size →
      Calls g s (.growth b i e start k st)
        (.task b (.expr e) (st.regrown i (g.name i) start k forest errors))
  | nextGrowth {b i k : Nat} {e : Expr α Id} {start : Checkpoint} {st st' : State Id}
      {forest : List (Match Id)} {errors : List (SyntaxError Id)} :
      st.since? start = some (forest, errors) → st.position < s.size →
      e.parser (g.setting s b) (st.regrown i (g.name i) start k forest errors) = (.ok, st') →
      st.position < st'.position →
      Calls g s (.growth b i e start k st) (.growth b i e start (k + 1) st')

namespace Grammar

/-- The call with which a parse begins. -/
def firstCall (g : Grammar α Id) (s : Source α) (start : Expr α Id) : Call α Id :=
  .task (g.enough s) (.expr start) (State.initial.note (.started g.size s.size))

/-- The calls that are made in a parse from the given expression. -/
def Arises (g : Grammar α Id) (s : Source α) (start : Expr α Id) : Call α Id → Prop :=
  Relation.ReflTransGen (Calls g s) (g.firstCall s start)

/-- The states, each with its bound, in which a call is made or comes back in a parse from the given
expression. -/
inductive Context (g : Grammar α Id) (s : Source α) (start : Expr α Id) : Nat → State Id → Prop
  | made {b : Nat} {t : Task α Id} {st : State Id} :
      g.Arises s start (.task b t st) → Context g s start b st
  | back {b : Nat} {e : Expr α Id} {st st' : State Id} {v : Verdict} :
      g.Arises s start (.task b (.expr e) st) → e.parser (g.setting s b) st = (v, st') →
      Context g s start b st'

end Grammar

/-! ## Proper states -/

/-- What holds of the states that arise in a parse. -/
structure State.Proper (g : Grammar α Id) (s : Source α) (b : Nat) (st : State Id) : Prop where
  stack : Stack s g.size st.position st.frames
  boundary : s.Boundary st.position
  le_furthest : st.position ≤ st.furthest
  furthest_le : st.furthest ≤ s.size
  room : g.need s ≤ b + st.frames.length

namespace State.Proper

variable {g : Grammar α Id} {s : Source α} {b : Nat} {st st' : State Id}

/-- A proper state is at its own position, under its own frames. -/
theorem at_self (h : st.Proper g s b) : st.At st.frames st.position := ⟨rfl, rfl, h.le_furthest⟩

/-- A proper state stays proper under an effect that moves forward within the source. -/
theorem on (h : st.Proper g s b) {a : Effect Id} (ha : a.Within s st.position) :
    (a.on st).Proper g s b where
  stack := h.stack.raise ha.le_stop
  boundary := ha.boundary
  le_furthest := Nat.le_trans ha.stop_le_reach (Nat.le_max_right _ _)
  furthest_le := Nat.max_le.2 ⟨h.furthest_le, ha.reach_le_size⟩
  room := h.room

/-- In a proper state every plain task comes out with an answer and an effect that conforms. -/
theorem run (h : st.Proper g s b) (hg : g.isPlain = true) {t : Task α Id} (ht : t.isPlain = true) :
    ∃ v a, Conforms s (Frame.Signals st.frames) t st.position v a ∧
      t.Done (g.setting s b) st.frames st.position v a := by
  obtain ⟨v, a, -, hconf, hdone⟩ := Grammar.exists_done (invokes_lawful s) (invokes_realizedBy s) hg
    ht h.stack h.boundary
  refine ⟨v, a, hconf, ?_⟩
  rw [Grammar.setting_eq_settingBy]
  exact hdone b h.room

/-- What an expression came back with in a proper state is an effect that conforms. -/
theorem exists_effect (h : st.Proper g s b) (hg : g.isPlain = true) {e : Expr α Id}
    (he : e.isPlain = true) {v : Verdict} (heq : e.parser (g.setting s b) st = (v, st')) :
    ∃ a, Conforms s (Frame.Signals st.frames) (.expr e) st.position v a ∧ st' = a.on st := by
  obtain ⟨w, a, hconf, hdone⟩ := h.run hg (t := .expr e) he
  have hrun := heq.symm.trans (hdone st h.at_self)
  cases hrun
  exact ⟨a, hconf, rfl⟩

/-- What is derivable in a nesting of any depth is what an expression comes back with. -/
theorem parser_eq (h : st.Proper g s b) (hg : g.isPlain = true) {e : Expr α Id}
    (he : e.isPlain = true) {d : Nat} {v : Verdict} {a : Effect Id}
    (hrun : Runs s (g.Derives Invokes s d st.frames) (.expr e) st.position v a) :
    e.parser (g.setting s b) st = (v, a.on st) := by
  obtain ⟨w, c, -, hconf, hdone⟩ := Grammar.exists_done (t := .expr e) (invokes_lawful s)
    (invokes_realizedBy s) hg he h.stack h.boundary
  -- under a bound that is large enough for both, the two are what the same parser does
  have hdeep := Grammar.runs_done (invokes_lawful s) (invokes_realizedBy s)
    (Nat.lt_succ_of_le (Nat.le_add_right (d + s.size) (g.need s))) h.stack h.boundary hrun
  have hreach := (hrun.conforms (Grammar.regular (invokes_lawful s) d h.stack) (Nat.le_refl _)
    h.boundary).le_reach
  obtain ⟨rfl, rfl⟩ := Parser.Does.unique hdeep (hdone _ (by omega)) hreach hconf.le_reach
  rw [Grammar.setting_eq_settingBy]
  exact hdone b h.room st h.at_self

/-- The state in which a plain expression answers is proper if it was asked in a proper one. -/
theorem after (h : st.Proper g s b) (hg : g.isPlain = true) {e : Expr α Id} (he : e.isPlain = true)
    {v : Verdict} (heq : e.parser (g.setting s b) st = (v, st')) : st'.Proper g s b := by
  obtain ⟨a, hconf, rfl⟩ := h.exists_effect hg he heq
  exact h.on hconf.toWithin

/-- A rule that is not being parsed at the cursor may be entered, for a smaller bound. -/
theorem push (h : st.Proper g s (b + 1)) {i : Nat} {e : Expr α Id} (hbody : g.body? i = some e)
    (hnone : Frame.answer? st.frames i st.position = none) {m : Mode Id}
    (hm : m.Fits s st.position) (hst' : st'.At (⟨i, st.position, m⟩ :: st.frames) st.position)
    (hfurthest : st'.furthest ≤ s.size) : st'.Proper g s b where
  stack := by
    rw [hst'.frames_eq, hst'.position_eq]
    exact h.stack.push (Nat.le_refl _) (Grammar.lt_size_of_body? hbody) hnone hm
  boundary := by
    rw [hst'.position_eq]
    exact h.boundary
  le_furthest := by
    rw [hst'.position_eq]
    exact hst'.le_furthest
  furthest_le := hfurthest
  room := by
    have := h.room
    rw [hst'.frames_eq, List.length_cons]
    omega

/-- A proper state stays proper when the innermost rule, invoked at the cursor, gets another mode
that fits there. -/
theorem setMode (h : st.Proper g s b) {i : Nat} {m m' : Mode Id} {fs : List (Frame Id)}
    (hframes : st.frames = ⟨i, st.position, m⟩ :: fs) (hm' : m'.Fits s st.position) :
    (st.setMode i m').Proper g s b where
  stack := by
    have hstack := h.stack
    rw [hframes] at hstack
    rw [State.setMode, hframes, Frame.setMode_cons_self]
    exact hstack.changeMode hm'
  boundary := h.boundary
  le_furthest := h.le_furthest
  furthest_le := h.furthest_le
  room := by
    have := h.room
    rw [State.setMode, hframes, Frame.setMode_cons_self]
    rwa [hframes] at this

/-- A proper state stays proper when the cursor advances. -/
theorem advance (h : st.Proper g s b) (n : Nat) : (st.advance s n).Proper g s b where
  stack := h.stack.raise (s.le_walk _ n)
  boundary := h.boundary.walk n
  le_furthest := Nat.le_max_right _ _
  furthest_le := Nat.max_le.2 ⟨h.furthest_le, (h.boundary.walk n).le_size⟩
  room := h.room

/-- A proper state stays proper when its mark is reset to the cursor. -/
theorem resetFurthest (h : st.Proper g s b) : st.resetFurthest.Proper g s b :=
  { h with le_furthest := Nat.le_refl _, furthest_le := h.boundary.le_size }

end State.Proper

/-- A rule that grows: the state holds what was accepted since the checkpoint, and every round so
far has used up at least one element. -/
def State.Growing (g : Grammar α Id) (s : Source α) (b i : Nat) (start : Checkpoint) (k : Nat)
    (st : State Id) : Prop :=
  ∃ (st₀ : State Id) (m : Mode Id) (fs : List (Frame Id)) (acc : Effect Id),
    st₀.Proper g s b ∧ st₀.frames = ⟨i, st₀.position, m⟩ :: fs ∧ acc.Within s st₀.position ∧
      start = st₀.checkpoint ∧ st = acc.on st₀ ∧ k + s.after acc.stop ≤ s.after st₀.position

/-- What holds of every call in a parse. -/
def Call.Sound (g : Grammar α Id) (s : Source α) : Call α Id → Prop
  | task b t st => t.isPlain = true ∧ st.Proper g s b
  | growth b i e start k st => e.isPlain = true ∧ st.Growing g s b i start k

/-! ## Calls preserve what is proper -/

section sound

variable {g : Grammar α Id} {s : Source α} {b i : Nat} {e e' : Expr α Id} {st st' : State Id}

/-- What a plain expression begins with is plain. -/
theorem Expr.Begins.isPlain (h : e.Begins e') (he : e.isPlain = true) : e'.isPlain = true := by
  cases h <;> exact he

/-- The state in which a rule parses its body is proper, with one less to go in the bound and one
more frame. -/
theorem State.Proper.entered (h : st.Proper g s (b + 1)) (hbody : g.body? i = some e)
    (hnone : Frame.answer? st.frames i st.position = none) :
    (st.entered i (g.name i)).Proper g s b :=
  h.push hbody hnone (m := .fresh) trivial (h.at_self.entered _) h.furthest_le

/-- After the body of a rule signalled the rule itself, the rule may seed. -/
theorem State.Proper.seeding (h : st.Proper g s (b + 1)) (hg : g.isPlain = true)
    (hbody : g.body? i = some e) (hnone : Frame.answer? st.frames i st.position = none)
    (heq : e.parser (g.setting s b) (st.entered i (g.name i)) = (.leftRecursion i, st')) :
    (st'.setMode i .seeding).Proper g s b ∧
      (st'.setMode i .seeding).At (⟨i, st.position, .seeding⟩ :: st.frames) st.position := by
  have hin := h.entered hbody hnone
  obtain ⟨a, hconf, rfl⟩ := hin.exists_effect hg (Grammar.isPlain_body hg hbody) heq
  have hstop : a.stop = st.position := (hconf.silent rfl rfl).stop_eq
  have hback := Effect.on_at (h.at_self.entered (i := i) (.enter (g.name i) st.position))
    hconf.stop_le_reach
  rw [hstop] at hback
  have hat := hback.setMode .seeding
  exact ⟨h.push hbody hnone (m := .seeding) trivial hat (hin.on hconf.toWithin).furthest_le, hat⟩

/-- The state in which a growing rule parses its body again is proper. -/
theorem State.Growing.regrown {k : Nat} {start : Checkpoint} {forest : List (Match Id)}
    {errors : List (SyntaxError Id)} (h : st.Growing g s b i start k) (name : String)
    (hsince : st.since? start = some (forest, errors)) :
    (st.regrown i name start k forest errors).Proper g s b := by
  obtain ⟨st₀, m, fs, acc, hproper, hframes, hacc, rfl, rfl, -⟩ := h
  rw [Effect.since?_on] at hsince
  cases hsince
  rw [State.regrown_on]
  have hback := (hacc.note (.growing name st₀.position (k + 1) acc.stop)).undo_start
    hproper.boundary
  exact (hproper.setMode hframes hacc.mode_fits).on hback

/-- A rule grows from one boundary to another. -/
theorem State.Growing.boundary {k : Nat} {start : Checkpoint} (h : st.Growing g s b i start k) :
    s.Boundary st.position := by
  obtain ⟨st₀, m, fs, acc, -, -, hacc, -, rfl, -⟩ := h
  exact hacc.boundary

/-- A further accepted round leaves fewer elements. -/
theorem State.Growing.next {k : Nat} {start : Checkpoint} {forest : List (Match Id)}
    {errors : List (SyntaxError Id)} (h : st.Growing g s b i start k) (hg : g.isPlain = true)
    (he : e.isPlain = true) (name : String) (hsince : st.since? start = some (forest, errors))
    (heq : e.parser (g.setting s b) (st.regrown i name start k forest errors) = (.ok, st'))
    (hfurther : st.position < st'.position) : st'.Growing g s b i start (k + 1) := by
  have hproper' := h.regrown name hsince
  obtain ⟨a, hconf, rfl⟩ := hproper'.exists_effect hg he heq
  obtain ⟨st₀, m, fs, acc, hproper, hframes, hacc, rfl, rfl, hleft⟩ := h
  rw [Effect.since?_on] at hsince
  cases hsince
  rw [State.regrown_on] at hconf ⊢
  have ha : a.Within s st₀.position := hconf.toWithin
  have hfewer := hacc.boundary.after_lt ha.boundary hfurther
  refine ⟨st₀.setMode i acc.mode, acc.mode, fs, .retried name st₀.position k acc a, ?_, ?_, ?_, rfl,
    ?_, ?_⟩
  · exact hproper.setMode hframes hacc.mode_fits
  · rw [State.setMode, hframes, Frame.setMode_cons_self]
  · exact hacc.retried name k ha hproper.boundary
  · rw [Effect.retried, Effect.andThen_on]
  · show k + 1 + s.after a.stop ≤ s.after st₀.position
    omega

/-- One call makes only sound calls, if it is sound itself. -/
theorem Calls.sound {c c' : Call α Id} (hg : g.isPlain = true) (h : Calls g s c c')
    (hc : c.Sound g s) : c'.Sound g s := by
  cases h with
  | begins hbegins => exact ⟨hbegins.isPlain hc.1, hc.2⟩
  | @item b before behind e st st' heq =>
    obtain ⟨hbefore, he⟩ := Expr.allPlain_split hc.1
    exact ⟨he, hc.2.after hg (e := .sequence before) hbefore heq⟩
  | @alternative b before behind e st st' heq =>
    obtain ⟨hbefore, he⟩ := Expr.allPlain_split hc.1
    exact ⟨he, hc.2.after hg (e := .choice before) hbefore heq⟩
  | @copy b k n e st st' hk heq =>
    obtain ⟨ht, hproper⟩ := hc
    have hcopies : (Expr.times e k).isPlain = true := ht
    exact ⟨ht, hproper.after hg hcopies heq⟩
  | star => exact hc
  | @plus b e st st' heq _ =>
    have he : e.isPlain = true := hc.1
    exact ⟨he, hc.2.after hg he heq⟩
  | round => exact hc
  | nextRound heq _ => exact ⟨hc.1, hc.2.after hg hc.1 heq⟩
  | recoverAtEnd _ => exact ⟨(Bool.and_eq_true_iff.1 hc.1).1, hc.2⟩
  | recover _ => exact ⟨(Bool.and_eq_true_iff.1 hc.1).1, hc.2.resetFurthest⟩
  | @fallback b e f id st st' _ heq =>
    obtain ⟨ht, hproper⟩ := hc
    obtain ⟨he, hf⟩ := Bool.and_eq_true_iff.1 ht
    obtain ⟨a, hconf, rfl⟩ := hproper.resetFurthest.exists_effect hg he heq
    rw [Parser.merge_on_reset hproper.at_self hconf.le_reach, Effect.on_restore]
    exact ⟨hf, hproper.on (hconf.toWithin.undo_start hproper.boundary)⟩
  | skipBefore => exact hc
  | skipPast => exact hc
  | token _ => exact hc
  | nextSkip _ heq => exact ⟨hc.1, (hc.2.after hg hc.1 heq).advance 1⟩
  | body hbody hnone =>
    exact ⟨Grammar.isPlain_body hg hbody, hc.2.entered hbody hnone⟩
  | seed hbody hnone heq _ =>
    exact ⟨Grammar.isPlain_body hg hbody, (hc.2.seeding hg hbody hnone heq).1⟩
  | @grow b i e st st' st'' hbody hnone heq _ hseed =>
    have he := Grammar.isPlain_body hg hbody
    obtain ⟨hproper, hat⟩ := hc.2.seeding hg hbody hnone heq
    obtain ⟨a, hconf, rfl⟩ := hproper.exists_effect hg he hseed
    refine ⟨he, st'.setMode i .seeding, .seeding, st.frames, a, hproper, ?_, hconf.toWithin, rfl,
      rfl, ?_⟩
    · rw [hat.frames_eq, hat.position_eq]
    · have := hproper.boundary.after_le hconf.boundary hconf.le_stop
      omega
  | regrow hsince _ => exact ⟨hc.1, hc.2.regrown _ hsince⟩
  | nextGrowth hsince _ heq hfurther =>
    exact ⟨hc.1, hc.2.next hg hc.1 _ hsince heq hfurther⟩

end sound

namespace Grammar

variable {g : Grammar α Id} {s : Source α} {start : Expr α Id}

/-- The first call of a parse is sound. -/
theorem firstCall_sound (hstart : start.isPlain = true) : (g.firstCall s start).Sound g s :=
  ⟨hstart, .nil s g.size 0, s.boundary_zero, Nat.le_refl 0, Nat.zero_le _,
    Nat.le_trans (Nat.le_add_right _ _) (Nat.le_add_right _ _)⟩

/-- Every call that arises in a parse is sound. -/
theorem Arises.sound {c : Call α Id} (h : g.Arises s start c) (hg : g.isPlain = true)
    (hstart : start.isPlain = true) : c.Sound g s := by
  induction h with
  | refl => exact firstCall_sound hstart
  | tail _ hstep ih => exact hstep.sound hg ih

/-- Every state in which a call is made or comes back in a parse is proper. -/
theorem Context.proper {b : Nat} {st : State Id} (h : g.Context s start b st)
    (hg : g.isPlain = true) (hstart : start.isPlain = true) : st.Proper g s b := by
  cases h with
  | made hcall => exact (hcall.sound hg hstart).2
  | back hcall heq =>
    obtain ⟨he, hproper⟩ := hcall.sound hg hstart
    exact hproper.after hg he heq

end Grammar

end Peg
