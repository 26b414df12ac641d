import Peg.Proofs.Law
import Peg.Proofs.Locality
import Peg.Proofs.Outcome

/-!
# Where syntax errors are recorded

The errors that a run appends lie between where it began and where it ended, each with the furthest
position of its failed part not before what was skipped, and they come in post-order: an error lies
behind the errors before it or around them (`SyntaxError.Placed`). This is an invariant in the sense
of `Peg.Proofs.Law`, so it holds in every state that arises in a parse and of every outcome.

That no error is beyond the furthest position is not an invariant, and it does not hold of every run
that is part of a parse. A rule that grows gives its last result again, errors included, and the
furthest position of that result is not part of it. Where the mark has been started anew for the
part of a grammar that is being tried, errors that are given again may lie beyond it;
`Grammar.errors_beyond_furthest` has a run that leaves the furthest position before an error that it
has appended. So the law for positions (`Effect.marked_law`) speaks of errors that are taken over
from frames as well, and `Growth.marked` says that an invocation of a rule as a whole does not need
this exception: whatever a round takes over, an earlier round of the same rule had reached.

`Grammar.errors_placed` has the results. For a run above frames that were made earlier, and for
every outcome, there is nothing to take over; in every other state that arises in a parse, the only
exception are errors that a rule growing at the cursor held before the run began.
-/

namespace Peg

variable {α Id : Type}

/-! ## Order -/

namespace SyntaxError

/-- Errors as they are appended by a run from `p` to `q`. -/
structure Placed (p q : Nat) (errors : List (SyntaxError Id)) : Prop where
  /-- What was skipped lies between the ends of the run. -/
  within : ∀ e ∈ errors,
    p ≤ e.skipped.start ∧ e.skipped.start ≤ e.skipped.stop ∧ e.skipped.stop ≤ q
  /-- The failed part did not end before it began. -/
  start_le_position : ∀ e ∈ errors, e.skipped.start ≤ e.position
  /-- A later error is behind an earlier one or around it. -/
  postorder : errors.Pairwise fun i j =>
    i.skipped.stop ≤ j.skipped.start ∨
      j.skipped.start ≤ i.skipped.start ∧ i.skipped.stop ≤ j.skipped.stop

namespace Placed

variable {p q r : Nat} {a b : List (SyntaxError Id)}

/-- A run that appends no errors has them in place. -/
theorem nil (p q : Nat) : Placed p q ([] : List (SyntaxError Id)) := ⟨nofun, nofun, .nil⟩

/-- The errors of two runs, one after the other. -/
theorem append (hpq : p ≤ q) (hqr : q ≤ r) (ha : Placed p q a) (hb : Placed q r b) :
    Placed p r (a ++ b) where
  within := by
    intro e he
    rcases List.mem_append.1 he with he | he
    · obtain ⟨hstart, hordered, hstop⟩ := ha.within e he
      exact ⟨hstart, hordered, Nat.le_trans hstop hqr⟩
    · obtain ⟨hstart, hordered, hstop⟩ := hb.within e he
      exact ⟨Nat.le_trans hpq hstart, hordered, hstop⟩
  start_le_position := by
    intro e he
    rcases List.mem_append.1 he with he | he
    · exact ha.start_le_position e he
    · exact hb.start_le_position e he
  postorder := by
    refine List.pairwise_append.2 ⟨ha.postorder, hb.postorder, fun i hi j hj => Or.inl ?_⟩
    exact Nat.le_trans (ha.within i hi).2.2 (hb.within j hj).1

/-- The errors of a fallback, and around them the error that it was called for. -/
theorem report {reached : Nat} (id : Id) (hpq : p ≤ q) (hreached : p ≤ reached)
    (ha : Placed p q a) : Placed p q (a ++ [.record id reached ⟨p, q⟩]) := by
  have hskipped : (SyntaxError.record id reached ⟨p, q⟩).skipped = ⟨p, q⟩ := by
    simp only [SyntaxError.record, Span.clamped, Nat.max_eq_right hpq]
  refine ⟨List.forall_mem_append.2 ⟨ha.within, ?_⟩,
    List.forall_mem_append.2 ⟨ha.start_le_position, ?_⟩, ?_⟩
  · rw [List.forall_mem_singleton, hskipped]
    exact ⟨Nat.le_refl p, hpq, Nat.le_refl q⟩
  · rw [List.forall_mem_singleton, hskipped]
    exact hreached
  · refine List.pairwise_append.2 ⟨ha.postorder, List.pairwise_singleton _ _, fun i hi j hj => ?_⟩
    rw [List.mem_singleton.1 hj, hskipped]
    exact Or.inr ⟨(ha.within i hi).1, (ha.within i hi).2.2⟩

end Placed

/-- The errors of a run are placed between its ends. -/
theorem placed_invariant (s : Source α) :
    Effect.Invariant s fun pos (a : Effect Id) => Placed pos a.stop a.errors where
  jump := by
    intro pos stop _ _ _
    exact .nil pos stop
  andThen := by
    intro pos a b ha hb h h'
    exact h.append ha.le_stop hb.le_stop h'
  undo := by
    intro pos stop a _ _ _ _ _ _
    exact .nil pos stop
  wrap := by
    intro pos a _ _ _ h
    exact h
  recovered := by
    intro pos a b id _ ha hb _ h'
    exact h'.report id hb.le_stop ha.le_reach
  note := by
    intro pos a _ h
    exact h
  again := by
    intro pos a _ h
    exact h

end SyntaxError

/-! ## Positions -/

/-- The errors that a frame in a mode answers with. -/
def Mode.errors : Mode Id → List (SyntaxError Id)
  | .fresh => []
  | .seeding => []
  | .growing _ _ errors => errors

/-- An error that a frame at or after a position answers with. -/
def Frame.Holds (fs : List (Frame Id)) (floor : Nat) (e : SyntaxError Id) : Prop :=
  ∃ f ∈ fs, floor ≤ f.position ∧ e ∈ f.mode.errors

/-- The errors of an effect are not beyond what it reached, apart from errors that are held. -/
def Effect.Marked (held : SyntaxError Id → Prop) (a : Effect Id) : Prop :=
  ∀ e ∈ a.errors, e.position ≤ a.reach ∨ held e

namespace Effect

variable {held held' : SyntaxError Id → Prop} {a b acc : Effect Id}

/-- More errors may be held. -/
theorem Marked.mono (hle : ∀ e, held e → held' e) (h : a.Marked held) : a.Marked held' :=
  fun e he => (h e he).imp_right (hle e)

/-- The same errors stay within what is reached if more is. -/
theorem Marked.of_errors_eq (h : a.Marked held) (herrors : b.errors = a.errors)
    (hreach : a.reach ≤ b.reach) : b.Marked held := by
  intro e he
  rw [herrors] at he
  exact (h e he).imp_left fun hle => Nat.le_trans hle hreach

/-- An effect without errors has none beyond what it reached. -/
theorem Marked.of_nil (herrors : a.errors = []) : a.Marked held := by
  intro e he
  rw [herrors] at he
  cases he

/-- The errors of two effects in a row are marked if those of each are. -/
theorem Marked.andThen (ha : a.Marked held) (hb : b.Marked held) : (a.andThen b).Marked held := by
  intro e he
  rcases List.mem_append.1 he with he | he
  · exact (ha e he).imp_left fun hle => Nat.le_trans hle (Nat.le_max_left _ _)
  · exact (hb e he).imp_left fun hle => Nat.le_trans hle (Nat.le_max_right _ _)

/-- No run that keeps to the combinators records an error beyond what it reached. -/
theorem marked_law (s : Source α) (held : SyntaxError Id → Prop) :
    Effect.Law s fun _ (a : Effect Id) => a.Marked held where
  jump := by
    intro pos stop _ _ _
    exact .of_nil rfl
  andThen := by
    intro pos a b _ _ ha hb
    exact ha.andThen hb
  undo := by
    intro pos stop a _ _ _ _ _ _
    exact .of_nil rfl
  wrap := by
    intro pos a _ _ _ h
    exact h
  recovered := by
    intro pos a b id _ _ _ _ hb e he
    rcases List.mem_append.1 he with he | he
    · exact (hb e he).imp_left fun hle => Nat.le_trans hle (Nat.le_max_right _ _)
    · rw [List.mem_singleton.1 he]
      exact Or.inl (Nat.le_max_left _ _)

/-- A round of growth may take over what was accepted before, which had been reached then. -/
theorem Marked.retried {name : String} {pos k : Nat} (hacc : acc.Marked held)
    (h : a.Marked fun e => e ∈ acc.errors ∨ held e) :
    (Effect.retried name pos k acc a).Marked held := by
  intro e he
  rcases h e he with hle | hold | hheld
  · exact Or.inl (Nat.le_trans hle (Nat.le_max_right _ _))
  · exact (hacc e hold).imp_left fun hle => Nat.le_trans hle (Nat.le_max_left _ _)
  · exact Or.inr hheld

/-- Entering and leaving a rule adds no errors and takes no reach away. -/
theorem Marked.framed {name : String} {pos : Nat} (v : Verdict) (h : a.Marked held) :
    (a.framed name pos v).Marked held :=
  h.of_errors_eq rfl (Nat.le_max_right _ _)

end Effect

section rules

variable {s : Source α} {i pos floor : Nat} {name : String} {B : Body Id}
  {fs : List (Frame Id)} {held : SyntaxError Id → Prop} {a b acc : Effect Id} {v : Verdict}

/-- The body of a rule records no error beyond what it reached, apart from those that its own frame
answers with and those that were held before. -/
def Body.Marked (s : Source α) (pos : Nat) (held : SyntaxError Id → Prop) (B : Body Id) : Prop :=
  ∀ m v a, m.Fits s pos → B m v a → a.Marked fun e => e ∈ m.errors ∨ held e

/-- The growth of a rule records no error beyond what it reached: what a round takes over was
reached by an earlier round. -/
theorem Growth.marked (hB : B.Lawful s i pos fs) (hM : B.Marked s pos held)
    (hpos : s.Boundary pos) {k : Nat} (hacc : acc.Within s pos) (h : acc.Marked held)
    (hgrowth : Growth s.size name pos B k acc v b) : b.Marked held := by
  induction hgrowth with
  | full _ => exact h.of_errors_eq rfl (Nat.le_max_left _ _)
  | further _ hbody _ _ ih =>
    have ha := (hB _ _ _ hacc.mode_fits hbody).toWithin
    exact ih (hacc.retried _ _ ha hpos) (h.retried (hM _ _ _ hacc.mode_fits hbody))
  | settled _ _ _ =>
    exact h.of_errors_eq rfl (Nat.le_trans (Nat.le_max_left _ _) (Nat.le_max_left _ _))
  | signal _ _ => exact .of_nil rfl

/-- An invocation records no error beyond what it reached, apart from those that are held: what a
frame answers with is held, and a body is entered only where no frame answers. -/
theorem Invokes.marked (hpos : s.Boundary pos) {active : Option (Mode Id)}
    (hactive : ∀ m, active = some m → ∀ e ∈ m.errors, held e)
    (hB : active = none → B.Lawful s i pos fs ∧ B.Marked s pos held)
    (h : Invokes s.size i name pos B active v a) : a.Marked held := by
  -- in its first two modes, the frame of the rule has nothing to answer with
  have hfresh : ∀ {w c}, active = none → B .fresh w c → c.Marked held := fun hnone hbody =>
    ((hB hnone).2 .fresh _ _ trivial hbody).mono fun e he => he.resolve_left nofun
  have hseeding : ∀ {w c}, active = none → B .seeding w c → c.Marked held := fun hnone hbody =>
    ((hB hnone).2 .seeding _ _ trivial hbody).mono fun e he => he.resolve_left nofun
  cases h with
  | signal _ => exact .of_nil rfl
  | refuse _ => exact .of_nil rfl
  | replay hgrowing => exact fun e he => Or.inr (hactive _ hgrowing e he)
  | once hnone hbody _ => exact (hfresh hnone hbody).framed _
  | barren hnone hbody hseed _ =>
    exact ((hfresh hnone hbody).andThen (hseeding hnone hseed)).framed _
  | @grown _ _ c hnone hbody hseed hgrowth =>
    obtain ⟨hlawful, hM⟩ := hB hnone
    have hb := (hlawful .seeding _ _ trivial hseed).toWithin
    have hc := hgrowth.marked hlawful hM hpos hb (hseeding hnone hseed)
    have hnoted : (c.note (.grown name pos c.stop)).Marked held := hc
    exact ((hfresh hnone hbody).andThen hnoted).framed .ok
  | aborted hnone hbody hseed hgrowth _ =>
    obtain ⟨hlawful, hM⟩ := hB hnone
    have hb := (hlawful .seeding _ _ trivial hseed).toWithin
    have hc := hgrowth.marked hlawful hM hpos hb (hseeding hnone hseed)
    exact ((hfresh hnone hbody).andThen hc).framed _

/-- A rule records no error beyond what it reached, apart from those that frames answer with. -/
theorem Grammar.derives_marked {g : Grammar α Id} (d : Nat) {p : Nat}
    (hfs : Stack s g.size floor fs) (hfloor : floor ≤ p) (hp : s.Boundary p)
    (h : g.Derives Invokes s d fs i p v a) : a.Marked (Frame.Holds fs floor) := by
  induction d generalizing fs floor i p v a with
  | zero => exact h.elim
  | succ d ih =>
    cases hbody : g.body? i with
    | none =>
      simp only [Derives, hbody] at h
      obtain ⟨rfl, rfl⟩ := h
      exact .of_nil rfl
    | some e =>
      simp only [Derives, hbody] at h
      refine Invokes.marked hp (fun m hm err herr => ?_) (fun hnone => ⟨body_lawful
        (invokes_lawful s) d hfs hfloor hp hbody hnone, fun m w b hm hrun => ?_⟩) h
      · obtain ⟨f, -, hf, -, rfl, rfl⟩ := Frame.exists_of_answer? hm
        exact ⟨f, hf, hfloor, herr⟩
      · have hpush := hfs.push hfloor (lt_size_of_body? hbody) hnone hm
        refine hrun.keeps (Effect.marked_law s _) (regular (invokes_lawful s) d hpush) ?_
          (Nat.le_refl p) hp
        intro j q u c hq hbq hj
        refine (ih hpush hq hbq hj).mono ?_
        rintro err ⟨f, hf, hle, herr⟩
        rcases List.mem_cons.1 hf with rfl | hf
        · exact Or.inl herr
        · exact Or.inr ⟨f, hf, Nat.le_trans hfloor hle, herr⟩

/-- The errors of a run are placed between its ends and not beyond what it reached, apart from those
that frames answer with. -/
theorem Grammar.runs_placed {g : Grammar α Id} {d : Nat} {t : Task α Id}
    (hfs : Stack s g.size pos fs)
    (hkeep : Frame.Keeps (fun p a => SyntaxError.Placed p a.stop a.errors) fs)
    (hpos : s.Boundary pos) (h : Runs s (g.Derives Invokes s d fs) t pos v a) :
    SyntaxError.Placed pos a.stop a.errors ∧ a.Marked (Frame.Holds fs pos) := by
  have hregular := regular (invokes_lawful s) d hfs
  constructor
  · refine h.keeps (SyntaxError.placed_invariant s).toLaw hregular ?_ (Nat.le_refl pos) hpos
    intro j q u c hq hbq hj
    exact derives_keeps (SyntaxError.placed_invariant s) d hfs hkeep hq hbq hj
  · refine h.keeps (Effect.marked_law s _) hregular ?_ (Nat.le_refl pos) hpos
    intro j q u c hq hbq hj
    exact derives_marked d hfs hq hbq hj

/-- Outside of all rules, there is nothing that frames could answer with. -/
theorem Effect.Marked.le_reach (h : a.Marked (Frame.Holds [] pos)) :
    ∀ err ∈ a.errors, err.position ≤ a.reach := by
  intro err herr
  refine (h err herr).resolve_right ?_
  rintro ⟨f, hf, -⟩
  cases hf

end rules

/-! ## Results -/

namespace Grammar

variable {g : Grammar α Id} {s : Source α} {start : Expr α Id}

/-- Runs with a grammar over a source record errors where they should. -/
structure ErrorsPlaced (g : Grammar α Id) (s : Source α) : Prop where
  /-- A match appends errors between where it began and where it ended, none beyond the furthest
  position afterwards. The state is any state on a boundary, not beyond its furthest position, with
  frames that were made earlier. -/
  appended : ∀ {b : Nat} {st st' : State Id} {e : Expr α Id}, e.isPlain = true →
    s.Boundary st.position → st.position ≤ st.furthest →
    (∀ f ∈ st.frames, f.position < st.position) → g.need s ≤ b →
    e.parser (g.setting s b) st = (.ok, st') →
    ∃ errors, st'.errors = st.errors ++ errors ∧
      SyntaxError.Placed st.position st'.position errors ∧
      ∀ err ∈ errors, err.position ≤ st'.furthest
  /-- In every state that arises in a parse it does so too, except that there may be a rule that
  grows at the cursor: the errors that it held before, and that it gives again, may lie beyond the
  furthest position afterwards. -/
  arising : ∀ {start : Expr α Id}, start.isPlain = true → ∀ {b : Nat} {st st' : State Id}
    {e : Expr α Id}, g.Context s start b st → e.isPlain = true →
    e.parser (g.setting s b) st = (.ok, st') →
    ∃ errors, st'.errors = st.errors ++ errors ∧
      SyntaxError.Placed st.position st'.position errors ∧
      ∀ err ∈ errors, err.position ≤ st'.furthest ∨ Frame.Holds st.frames st.position err
  /-- The errors of an outcome lie between the beginning of the source and where the parse stopped,
  none beyond the furthest position. -/
  outcome : ∀ {start : Expr α Id}, start.isPlain = true → ∀ {toEnd : Bool} {o : Outcome Id},
    (g.parseLogged s start toEnd).1 = .ok o →
    SyntaxError.Placed 0 o.stop o.errors ∧ ∀ err ∈ o.errors, err.position ≤ o.furthest

/-- In a state that arises in a parse, a run appends errors between its ends. None is beyond the
furthest position afterwards, unless it had been recorded before. -/
theorem Context.errors_after {b : Nat} {st st' : State Id} {e : Expr α Id} {v : Verdict}
    (hst : g.Context s start b st) (hg : g.isPlain = true) (hstart : start.isPlain = true)
    (he : e.isPlain = true) (heq : e.parser (g.setting s b) st = (v, st')) :
    ∃ errors, st'.errors = st.errors ++ errors ∧
      SyntaxError.Placed st.position st'.position errors ∧
      ∀ err ∈ errors, err.position ≤ st'.furthest ∨ Frame.Holds st.frames st.position err := by
  have hproper := hst.proper hg hstart
  obtain ⟨w, a, hrun, -, hdone⟩ := exists_done (t := .expr e) (invokes_lawful s)
    (invokes_realizedBy s) hg he hproper.stack hproper.boundary
  have hback : e.parser (g.setting s b) st = (w, a.on st) := by
    rw [setting_eq_settingBy]
    exact hdone b hproper.room st hproper.at_self
  rw [heq] at hback
  cases hback
  obtain ⟨hplaced, hmarked⟩ := runs_placed hproper.stack
    (hst.keeps (SyntaxError.placed_invariant s) hg hstart) hproper.boundary hrun
  refine ⟨a.errors, rfl, hplaced, fun err herr => ?_⟩
  exact (hmarked err herr).imp_left fun hle => Nat.le_trans hle (Nat.le_max_right _ _)

/-- Every error is recorded in its place. -/
theorem errors_placed (g : Grammar α Id) (s : Source α) (hg : g.isPlain = true) :
    g.ErrorsPlaced s where
  appended := by
    intro b st st' e he hpos hfurthest hframes hb heq
    have hnil : Stack s g.size st.position ([] : List (Frame Id)) := .nil s g.size st.position
    obtain ⟨v, a, hrun, -, -⟩ := exists_done (t := .expr e) (invokes_lawful s)
      (invokes_realizedBy s) hg he hnil hpos
    have hroom := depth_add_size_lt hnil hpos.le_size hb
    have hdone := runs_done_above hroom hnil hframes hpos hrun st ⟨rfl, rfl, hfurthest⟩
    have hback : e.parser (g.setting s b) st = (v, a.on st) := hdone
    rw [heq] at hback
    cases hback
    obtain ⟨hplaced, hmarked⟩ := runs_placed hnil nofun hpos hrun
    exact ⟨a.errors, rfl, hplaced, fun err herr =>
      Nat.le_trans (hmarked.le_reach err herr) (Nat.le_max_right _ _)⟩
  arising := by
    intro start hstart b st st' e hst he heq
    exact hst.errors_after hg hstart he heq
  outcome := by
    intro start hstart toEnd o ho
    obtain ⟨v, a, hrun, -, rfl⟩ := effect_of_outcome hg hstart ho
    obtain ⟨hplaced, hmarked⟩ := runs_placed (.nil s g.size 0) nofun s.boundary_zero hrun
    exact ⟨hplaced, hmarked.le_reach⟩

/-- A fallback that recovers itself, behind a character of two bytes: the inner error is recorded
before the one around it. -/
theorem errors_placed_entangled :
    let start : Expr Char Nat :=
      .sequence [.element 'é', .recover (.element 'x') 8 (.recover (.element 'z') 9
        (.skipBefore (.element 'y'))), .rule 0]
    entangled.isPlain = true ∧ start.isPlain = true ∧ entangled.ErrorsPlaced (.ofText "éééyxzx") ∧
      ∃ o, (entangled.parseLogged (.ofText "éééyxzx") start true).1 = .ok o ∧
        o.errors = [.record 9 2 ⟨2, 6⟩, .record 8 2 ⟨2, 6⟩] ∧ o.stop = 10 ∧
        SyntaxError.Placed 0 10 o.errors := by
  intro start
  have hplaced := errors_placed entangled (.ofText "éééyxzx") (by decide)
  have hstart : start.isPlain = true := by decide
  have hrun : ((entangled.parseLogged (.ofText "éééyxzx") start true).1.toOption.map
      fun o => (o.errors, o.stop)) =
        some ([.record 9 2 ⟨2, 6⟩, .record 8 2 ⟨2, 6⟩], 10) := by decide +kernel
  obtain ⟨o, ho⟩ | ⟨e, he, -⟩ :=
    parseLogged_ends (g := entangled) (by decide) hstart (.ofText "éééyxzx") true
  · rw [ho] at hrun
    obtain ⟨herrors, hstop⟩ : o.errors = [.record 9 2 ⟨2, 6⟩, .record 8 2 ⟨2, 6⟩] ∧
        o.stop = 10 := by simpa [Except.toOption] using hrun
    have hout := (hplaced.outcome hstart ho).1
    rw [hstop] at hout
    exact ⟨by decide, hstart, hplaced, o, ho, herrors, hstop, hout⟩
  · cases he

/-! ## An error that is given again -/

/-- A rule that has signalled itself and found a seed parses its body again. -/
theorem reaches_round {b i : Nat} {e : Expr α Id} {st st' st'' : State Id}
    {forest : List (Match Id)} {errors : List (SyntaxError Id)} (hbody : g.body? i = some e)
    (hnone : Frame.answer? st.frames i st.position = none)
    (hsignal : e.parser (g.setting s b) (st.entered i (g.name i)) = (.leftRecursion i, st'))
    (hpos : st'.position = st.position)
    (hseed : e.parser (g.setting s b) (st'.setMode i .seeding) = (.ok, st''))
    (hsince : st''.since? st'.checkpoint = some (forest, errors)) (hlt : st''.position < s.size) :
    Relation.ReflTransGen (Calls g s) (.task (b + 1) (.expr (.rule i)) st)
      (.task b (.expr e) (st''.regrown i (g.name i) st'.checkpoint 0 forest errors)) :=
  .head (.grow hbody hnone hsignal hpos hseed) (.single (.regrow hsince hlt))

/-- If the first alternative recovers, what is tried first in it runs with the furthest position
started anew. -/
theorem reaches_tried {b : Nat} {st : State Id} (e : Expr α Id) (items : List (Expr α Id)) (id : Id)
    (fallback : Expr α Id) (others : List (Expr α Id)) (h : st.atEnd s = false) :
    Relation.ReflTransGen (Calls g s)
      (.task b (.expr (.choice (.recover (.sequence (e :: items)) id fallback :: others))) st)
      (.task b (.expr e) st.resetFurthest) :=
  .head (@Calls.alternative α Id g s b [] others _ st st rfl)
    (.head (.recover h) (.single (@Calls.item α Id g s b [] items e _ st.resetFurthest rfl)))

/-- A rule that gives an error again. The seed comes from the second alternative, with an error that
stands two characters ahead. In the first round of growth the first alternative gives the seed again
and does not find `z`; its fallback gives the seed again and goes on with `b`. -/
def replaying : Grammar Char Nat where
  rules :=
    [⟨"item", some (.choice
      [.recover (.sequence [.rule 0, .element 'z']) 5 (.sequence [.rule 0, .element 'b']),
        .recover (.sequence [.element 'a', .element 'b', .element '!']) 7 (.element 'a')])⟩]

/-- In a parse with this grammar the rule runs where the furthest position was started anew, and
matches one character by giving its last result again. -/
theorem exists_replay : ∃ (b : Nat) (st st' : State Nat),
    replaying.Context (.ofText "ab") (.rule 0) b st ∧
      (Expr.rule 0).parser (replaying.setting (.ofText "ab") b) st = (.ok, st') ∧
      st.position = 0 ∧ st.furthest = 0 ∧ st.errors = [] ∧
      st'.position = 1 ∧ st'.furthest = 1 ∧ st'.errors = [.record 7 2 ⟨0, 1⟩] := by
  let s := Source.ofText "ab"
  let body : Expr Char Nat := .choice
    [.recover (.sequence [.rule 0, .element 'z']) 5 (.sequence [.rule 0, .element 'b']),
      .recover (.sequence [.element 'a', .element 'b', .element '!']) 7 (.element 'a')]
  let b := replaying.need s + (slack - 1)
  -- the body signals, finds a seed and is parsed again
  let signalled := body.parser (replaying.setting s b)
    ((State.initial.note (.started 1 2)).entered 0 "item")
  have hsignalled : signalled.1 = .leftRecursion 0 ∧ signalled.2.position = 0 := by decide +kernel
  have hsignal : signalled = (.leftRecursion 0, signalled.2) := by rw [← hsignalled.1]
  let seeded := body.parser (replaying.setting s b) (signalled.2.setMode 0 .seeding)
  have hseeded : seeded.1 = .ok ∧ seeded.2.position = 1 ∧
      seeded.2.since? signalled.2.checkpoint = some ([], [.record 7 2 ⟨0, 1⟩]) := by
    decide +kernel
  have hseed : seeded = (.ok, seeded.2) := by rw [← hseeded.1]
  have hlt : seeded.2.position < s.size := by
    rw [hseeded.2.1]
    decide
  have hround := reaches_round (g := replaying) rfl rfl hsignal hsignalled.2 hseed hseeded.2.2 hlt
  let again := seeded.2.regrown 0 "item" signalled.2.checkpoint 0 [] [.record 7 2 ⟨0, 1⟩]
  have hagain : again.position = 0 ∧ again.atEnd s = false ∧ again.errors = [] := by
    decide +kernel
  have htried := reaches_tried (g := replaying) (b := b) (.rule 0) [.element 'z'] 5
    (.sequence [.rule 0, .element 'b'])
    [.recover (.sequence [.element 'a', .element 'b', .element '!']) 7 (.element 'a')] hagain.2.1
  -- there the rule answers at once
  let replayed := (Expr.rule 0).parser (replaying.setting s b) again.resetFurthest
  have hreplayed : replayed.1 = .ok ∧ replayed.2.position = 1 ∧ replayed.2.furthest = 1 ∧
      replayed.2.errors = [.record 7 2 ⟨0, 1⟩] := by decide +kernel
  have hreplay : replayed = (.ok, replayed.2) := by rw [← hreplayed.1]
  exact ⟨b, again.resetFurthest, replayed.2, .made (hround.trans htried), hreplay, hagain.1,
    hagain.1, hagain.2.2, hreplayed.2⟩

/-- Not every run in a parse appends errors that are at or before the furthest position afterwards:
a rule gives an error again that stands at 2, while the furthest position is 1. The failed part that
it was run in is therefore reported at 1, also in the outcome. -/
theorem errors_beyond_furthest :
    replaying.isPlain = true ∧
      (∃ (b : Nat) (st st' : State Nat), replaying.Context (.ofText "ab") (.rule 0) b st ∧
        (Expr.rule 0).parser (replaying.setting (.ofText "ab") b) st = (.ok, st') ∧
        st'.errors = st.errors ++ [.record 7 2 ⟨0, 1⟩] ∧ st'.furthest = 1 ∧
        ¬ ∃ errors, st'.errors = st.errors ++ errors ∧
          ∀ err ∈ errors, err.position ≤ st'.furthest) ∧
      (replaying.parse (.ofText "ab") (.rule 0)).toOption.map (fun o => (o.errors, o.furthest)) =
        some ([.record 7 2 ⟨0, 1⟩, .record 5 1 ⟨0, 2⟩], 2) := by
  refine ⟨by decide, ?_, by decide +kernel⟩
  obtain ⟨b, st, st', hst, heq, -, -, hnone, -, hfurthest, hsome⟩ := exists_replay
  refine ⟨b, st, st', hst, heq, by rw [hnone, hsome]; rfl, hfurthest, ?_⟩
  rintro ⟨errors, happend, hle⟩
  rw [hnone, hsome, List.nil_append] at happend
  rw [← happend, List.forall_mem_singleton, hfurthest] at hle
  exact absurd hle (by decide)

end Grammar

end Peg
