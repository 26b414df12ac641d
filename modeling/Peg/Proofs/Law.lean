import Peg.Proofs.Calls

/-!
# Laws of effects

Much of what is to be said about a parse is said about the effects of its runs, one at a time: how
the new matches lie in the source, how the new errors do. A *law* is a property of effects that the
combinators preserve, and an *invariant* is a law that the growth of rules preserves as well.

A run can give back an old result as its own, when a rule that grows is reached again. So an
invariant of runs is an invariant of the frames too: `Mode.Keeps` says that what a frame answers
with has the property. With this, an invariant holds of

* every run of a task, if it holds of the rules (`Runs.keeps`);
* every rule, at every stack of frames that keeps it (`Grammar.derives_keeps`);
* every run that is begun in a state that arises in a parse (`Grammar.Context.exists_effect`), since
  the calls of a parse pass it on from frame to frame (`Calls.keeps`).

What is left to do for a particular property is to look at the handful of operations on effects.
-/

namespace Peg

variable {α Id : Type}

/-- A property of effects, by the position at which they begin, that the combinators preserve. -/
structure Effect.Law (s : Source α) (Q : Nat → Effect Id → Prop) : Prop where
  jump : ∀ {pos stop : Nat}, s.Boundary pos → s.Boundary stop → pos ≤ stop → Q pos (.jump stop)
  andThen : ∀ {pos : Nat} {a b : Effect Id}, a.Within s pos → b.Within s a.stop → Q pos a →
    Q a.stop b → Q pos (a.andThen b)
  undo : ∀ {pos stop : Nat} {a : Effect Id}, s.Boundary pos → s.Boundary stop → pos ≤ stop →
    stop ≤ a.stop → a.Within s pos → Q pos a → Q pos (a.undo stop)
  wrap : ∀ {pos : Nat} {a : Effect Id} (id : Id), s.Boundary pos → a.Within s pos → Q pos a →
    Q pos (a.wrap id pos)
  recovered : ∀ {pos : Nat} {a b : Effect Id} (id : Id), s.Boundary pos → a.Within s pos →
    b.Within s pos → Q pos a → Q pos b →
    Q pos ((((a.undo pos).andThen b).note (.recovered a.reach b.stop)).report
      (.record id a.reach ⟨pos, b.stop⟩))

/-- A law that says nothing about the log and holds of a result that is taken over. -/
structure Effect.Invariant (s : Source α) (Q : Nat → Effect Id → Prop) : Prop
    extends Effect.Law s Q where
  note : ∀ {pos : Nat} {a : Effect Id} (e : Event), Q pos a → Q pos (a.note e)
  again : ∀ {pos : Nat} {a : Effect Id}, a.Within s pos → Q pos a → Q pos a.again

/-! ## Runs -/

section runs

variable {s : Source α} {Q : Nat → Effect Id → Prop} {pos : Nat} {a b : Effect Id}

/-- Moving on before a run is part of the run. -/
theorem Effect.jump_andThen (h : pos ≤ b.reach) : (Effect.jump pos).andThen b = b := by
  simp [Effect.jump, Effect.andThen, Nat.max_eq_right h]

namespace Effect.Law

/-- A law is kept by taking an effect back to its start. -/
theorem undo_start (hQ : Effect.Law s Q) (hpos : s.Boundary pos) (ha : a.Within s pos)
    (h : Q pos a) : Q pos (a.undo pos) :=
  hQ.undo hpos hpos (Nat.le_refl pos) ha.le_stop ha h

/-- A law is kept by taking a failure back. -/
theorem settle (hQ : Effect.Law s Q) (hpos : s.Boundary pos) (ha : a.Within s pos) (h : Q pos a)
    (v : Verdict) : Q pos (a.settle v pos) := by
  unfold Effect.settle
  split
  · exact hQ.undo_start hpos ha h
  · exact h

/-- What is tried after a mismatch begins where that began. -/
theorem afterUndo (hQ : Effect.Law s Q) (hpos : s.Boundary pos) (ha : a.Within s pos)
    (hb : b.Within s pos) (h : Q pos a) (h' : Q pos b) : Q pos ((a.undo pos).andThen b) :=
  hQ.andThen (ha.undo_start hpos) hb (hQ.undo_start hpos ha h) h'

/-- A run after a step forward has the property from where the step began. -/
theorem afterStep {q : Nat} (hQ : Effect.Law s Q) (hpos : s.Boundary pos) (hq : s.Boundary q)
    (hle : pos ≤ q) (hb : b.Within s q) (h : Q q b) : Q pos b := by
  have hstep : Q pos ((Effect.jump q).andThen b) :=
    hQ.andThen (.jumpTo hle hq) hb (hQ.jump hpos hq hle) h
  rwa [Effect.jump_andThen hb.le_reach] at hstep

end Effect.Law

/-- If the rules of the grammar have a property that is a law, then so do all runs. -/
theorem Runs.keeps {L : Nat → Nat → Prop} {floor : Nat}
    {C : Nat → Nat → Verdict → Effect Id → Prop} (hQ : Effect.Law s Q) (hC : Regular s L floor C)
    (hcall : ∀ i p v a, floor ≤ p → s.Boundary p → C i p v a → Q p a) {t : Task α Id}
    {v : Verdict} (h : Runs s C t pos v a) (hfloor : floor ≤ pos) (hpos : s.Boundary pos) :
    Q pos a := by
  induction h with
  | reads hr =>
    have hjump := hr.jump_within hpos
    exact hQ.jump hpos hjump.boundary hjump.le_stop
  | misses _ => exact hQ.jump hpos hpos (Nat.le_refl _)
  | rule h => exact hcall _ _ _ _ hfloor hpos h
  | sequence h ih => exact hQ.settle hpos (h.conforms hC hfloor hpos).toWithin (ih hfloor hpos) _
  | choiceNil => exact hQ.jump hpos hpos (Nat.le_refl _)
  | choiceNext h₁ h₂ ih₁ ih₂ =>
    exact hQ.afterUndo hpos (h₁.conforms hC hfloor hpos).toWithin
      (h₂.conforms hC hfloor hpos).toWithin (ih₁ hfloor hpos) (ih₂ hfloor hpos)
  | choiceDone h _ ih =>
    exact hQ.settle hpos (h.conforms hC hfloor hpos).toWithin (ih hfloor hpos) _
  | group _ ih => exact ih hfloor hpos
  | star h ih => exact hQ.settle hpos (h.conforms hC hfloor hpos).toWithin (ih hfloor hpos) _
  | plusOnce h _ ih => exact hQ.settle hpos (h.conforms hC hfloor hpos).toWithin (ih hfloor hpos) _
  | plusMore h₁ _ h₂ ih₁ ih₂ =>
    have ha := (h₁.conforms hC hfloor hpos).toWithin
    have hfloor' := Nat.le_trans hfloor ha.le_stop
    have hb := (h₂.conforms hC hfloor' ha.boundary).toWithin
    exact hQ.settle hpos (ha.andThen hb)
      (hQ.andThen ha hb (ih₁ hfloor hpos) (ih₂ hfloor' ha.boundary)) _
  | optional h ih => exact hQ.settle hpos (h.conforms hC hfloor hpos).toWithin (ih hfloor hpos) _
  | ahead h ih => exact hQ.undo_start hpos (h.conforms hC hfloor hpos).toWithin (ih hfloor hpos)
  | notAhead h ih => exact hQ.undo_start hpos (h.conforms hC hfloor hpos).toWithin (ih hfloor hpos)
  | times h ih => exact hQ.settle hpos (h.conforms hC hfloor hpos).toWithin (ih hfloor hpos) _
  | tagOk h ih => exact hQ.wrap _ hpos (h.conforms hC hfloor hpos).toWithin (ih hfloor hpos)
  | tagFail h _ ih => exact hQ.settle hpos (h.conforms hC hfloor hpos).toWithin (ih hfloor hpos) _
  | recoverAtEnd _ _ ih => exact ih hfloor hpos
  | recoverPass _ _ _ ih => exact ih hfloor hpos
  | recoverOk _ h₁ h₂ ih₁ ih₂ =>
    exact hQ.recovered _ hpos (h₁.conforms hC hfloor hpos).toWithin
      (h₂.conforms hC hfloor hpos).toWithin (ih₁ hfloor hpos) (ih₂ hfloor hpos)
  | recoverFail _ h₁ h₂ _ ih₁ ih₂ =>
    have ha := (h₁.conforms hC hfloor hpos).toWithin
    have hb := (h₂.conforms hC hfloor hpos).toWithin
    exact hQ.settle hpos ((ha.undo_start hpos).andThen hb)
      (hQ.afterUndo hpos ha hb (ih₁ hfloor hpos) (ih₂ hfloor hpos)) _
  | skipBefore _ ih => exact ih hfloor hpos
  | skipPast _ ih => exact ih hfloor hpos
  | itemsNil => exact hQ.jump hpos hpos (Nat.le_refl _)
  | itemsCons h₁ h₂ ih₁ ih₂ =>
    have ha := (h₁.conforms hC hfloor hpos).toWithin
    have hfloor' := Nat.le_trans hfloor ha.le_stop
    exact hQ.andThen ha (h₂.conforms hC hfloor' ha.boundary).toWithin (ih₁ hfloor hpos)
      (ih₂ hfloor' ha.boundary)
  | itemsFail _ _ ih => exact ih hfloor hpos
  | loopEnd h ih => exact hQ.undo_start hpos (h.conforms hC hfloor hpos).toWithin (ih hfloor hpos)
  | loopStay _ _ ih => exact ih hfloor hpos
  | loopMore h₁ _ h₂ ih₁ ih₂ =>
    have ha := (h₁.conforms hC hfloor hpos).toWithin
    have hfloor' := Nat.le_trans hfloor ha.le_stop
    exact hQ.andThen ha (h₂.conforms hC hfloor' ha.boundary).toWithin (ih₁ hfloor hpos)
      (ih₂ hfloor' ha.boundary)
  | loopSignal _ ih => exact ih hfloor hpos
  | skipAtEnd _ => exact hQ.jump hpos hpos (Nat.le_refl _)
  | @skipFound pos past e a _ h ih =>
    have ha := (h.conforms hC hfloor hpos).toWithin
    cases past with
    | false => exact hQ.undo_start hpos ha (ih hfloor hpos)
    | true => exact hQ.undo hpos ha.boundary ha.le_stop (Nat.le_refl _) ha (ih hfloor hpos)
  | @skipNext pos past e v a b hlt h₁ h₂ ih₁ ih₂ =>
    have ha := h₁.conforms hC hfloor hpos
    have hstop := (ha.silent rfl rfl).stop_eq
    have hle := Nat.le_of_lt (hpos.lt_walk_one hlt)
    rw [hstop] at h₂ ih₂
    have hfloor' := Nat.le_trans hfloor hle
    have hb := (h₂.conforms hC hfloor' (hpos.walk 1)).toWithin
    have hb' : b.Within s a.stop :=
      hstop.symm ▸ ⟨Nat.le_trans hle hb.le_stop, hb.stop_le_reach, hb.reach_le_size, hb.boundary⟩
    have hkeep : Q pos b := hQ.afterStep hpos (hpos.walk 1) hle hb (ih₂ hfloor' (hpos.walk 1))
    exact hQ.andThen ha.toWithin hb' (ih₁ hfloor hpos) (hstop.symm ▸ hkeep)
  | skipSignal _ _ ih => exact ih hfloor hpos

end runs

/-! ## Rules -/

/-- What a frame answers with has the property. -/
def Mode.Keeps (Q : Nat → Effect Id → Prop) (pos : Nat) : Mode Id → Prop
  | .fresh => True
  | .seeding => True
  | .growing stop forest errors => Q pos (.replay stop forest errors)

/-- The frames of a stack have the property. -/
def Frame.Keeps (Q : Nat → Effect Id → Prop) (fs : List (Frame Id)) : Prop :=
  ∀ f ∈ fs, f.mode.Keeps Q f.position

/-- The body of a rule has the property in every mode that has it. -/
def Body.Keeps (s : Source α) (Q : Nat → Effect Id → Prop) (pos : Nat) (B : Body Id) : Prop :=
  ∀ m v a, m.Fits s pos → m.Keeps Q pos → B m v a → Q pos a

section rules

variable {s : Source α} {Q : Nat → Effect Id → Prop} {i pos : Nat} {name : String} {B : Body Id}
  {fs : List (Frame Id)} {a b acc : Effect Id}

/-- A frame may be added whose answer has the property. -/
theorem Frame.Keeps.cons {m : Mode Id} (hfs : Frame.Keeps Q fs) (hm : m.Keeps Q pos) :
    Frame.Keeps Q (⟨i, pos, m⟩ :: fs) :=
  List.forall_mem_cons.2 ⟨hm, hfs⟩

/-- What the frames answer with at a place has the property. -/
theorem Frame.Keeps.answer? {m : Mode Id} (hfs : Frame.Keeps Q fs)
    (h : Frame.answer? fs i pos = some m) : m.Keeps Q pos := by
  obtain ⟨f, -, hf, -, rfl, rfl⟩ := Frame.exists_of_answer? h
  exact hfs f hf

/-- An invariant is kept by one more round of growth. -/
theorem Effect.Invariant.retried (hQ : Effect.Invariant s Q) (hpos : s.Boundary pos) (k : Nat)
    (hacc : acc.Within s pos) (ha : a.Within s pos) (h : Q pos acc) (h' : Q pos a) :
    Q pos (Effect.retried name pos k acc a) :=
  hQ.afterUndo hpos (hacc.note _) ha (hQ.note _ h) h'

/-- An invariant is kept by entering and leaving a rule. -/
theorem Effect.Invariant.framed (hQ : Effect.Invariant s Q) (hpos : s.Boundary pos) (v : Verdict)
    (ha : a.Within s pos) (h : Q pos a) : Q pos (a.framed name pos v) := by
  have hjump : Q pos ((Effect.jump pos).note (.enter name pos)) :=
    hQ.note _ (hQ.jump hpos hpos (Nat.le_refl pos))
  exact hQ.note _ (hQ.andThen ((Effect.Within.jump hpos).note _) ha hjump h)

/-- A run that was given up leaves no records, so what follows it begins where it began. -/
theorem Effect.Invariant.afterSignal (hQ : Effect.Invariant s Q) (ha : a.Within s pos)
    (hb : b.Within s pos) (hsilent : a.Silent pos) (h : Q pos a) (h' : Q pos b) :
    Q pos (a.andThen b) :=
  hQ.andThen ha (hsilent.stop_eq.symm ▸ hb) h (hsilent.stop_eq.symm ▸ h')

/-- An invariant that holds of what was accepted and of what the body does holds of the growth. -/
theorem Growth.keeps (hQ : Effect.Invariant s Q) (hB : B.Lawful s i pos fs)
    (hK : B.Keeps s Q pos) (hpos : s.Boundary pos) {k : Nat} {v : Verdict}
    (hacc : acc.Within s pos) (h : Q pos acc) (hgrowth : Growth s.size name pos B k acc v b) :
    Q pos b := by
  induction hgrowth with
  | full _ => exact hQ.afterUndo hpos hacc hacc.again h (hQ.again hacc h)
  | further _ hbody _ _ ih =>
    have ha := (hB _ _ _ hacc.mode_fits hbody).toWithin
    have hkeep := hK _ _ _ hacc.mode_fits (hQ.again hacc h) hbody
    exact ih (hacc.retried _ _ ha hpos) (hQ.retried hpos _ hacc ha h hkeep)
  | settled _ hbody _ =>
    have ha := (hB _ _ _ hacc.mode_fits hbody).toWithin
    have hkeep := hK _ _ _ hacc.mode_fits (hQ.again hacc h) hbody
    exact hQ.afterUndo hpos (hacc.retried _ _ ha hpos) hacc.again
      (hQ.retried hpos _ hacc ha h hkeep) (hQ.again hacc h)
  | signal _ hbody =>
    have ha := (hB _ _ _ hacc.mode_fits hbody).toWithin
    have hkeep := hK _ _ _ hacc.mode_fits (hQ.again hacc h) hbody
    exact hQ.undo_start hpos (hacc.retried _ _ ha hpos) (hQ.retried hpos _ hacc ha h hkeep)

/-- An invariant that holds of what the frames answer with and of what the body does holds of an
invocation. -/
theorem Invokes.keeps (hQ : Effect.Invariant s Q) (hpos : s.Boundary pos)
    {active : Option (Mode Id)} (hactive : ∀ m, active = some m → m.Keeps Q pos)
    (hB : active = none → B.Lawful s i pos fs ∧ B.Keeps s Q pos) {v : Verdict}
    (h : Invokes s.size i name pos B active v a) : Q pos a := by
  have hjump : Q pos (Effect.jump pos) := hQ.jump hpos hpos (Nat.le_refl pos)
  cases h with
  | signal _ => exact hQ.note _ hjump
  | refuse _ => exact hjump
  | replay hgrowing => exact hactive _ hgrowing
  | once hnone hbody _ =>
    obtain ⟨hlawful, hK⟩ := hB hnone
    exact hQ.framed hpos _ (hlawful .fresh _ _ trivial hbody).toWithin
      (hK .fresh _ _ trivial trivial hbody)
  | barren hnone hfirst hseed _ =>
    obtain ⟨hlawful, hK⟩ := hB hnone
    have ha := hlawful .fresh _ _ trivial hfirst
    have hb := (hlawful .seeding _ _ trivial hseed).toWithin
    have hsilent := ha.silent rfl rfl
    refine hQ.framed hpos _ (ha.toWithin.andThen (hsilent.stop_eq ▸ hb)) ?_
    exact hQ.afterSignal ha.toWithin hb hsilent (hK .fresh _ _ trivial trivial hfirst)
      (hK .seeding _ _ trivial trivial hseed)
  | @grown _ _ c hnone hfirst hseed hgrowth =>
    obtain ⟨hlawful, hK⟩ := hB hnone
    have ha := hlawful .fresh _ _ trivial hfirst
    have hb := (hlawful .seeding _ _ trivial hseed).toWithin
    have hc := (Growth.conforms hlawful hpos hb hgrowth).toWithin.note (.grown name pos c.stop)
    have hsilent := ha.silent rfl rfl
    refine hQ.framed hpos _ (ha.toWithin.andThen (hsilent.stop_eq ▸ hc)) ?_
    have hkeep := Growth.keeps hQ hlawful hK hpos hb (hK .seeding _ _ trivial trivial hseed) hgrowth
    exact hQ.afterSignal ha.toWithin hc hsilent (hK .fresh _ _ trivial trivial hfirst)
      (hQ.note _ hkeep)
  | aborted hnone hfirst hseed hgrowth _ =>
    obtain ⟨hlawful, hK⟩ := hB hnone
    have ha := hlawful .fresh _ _ trivial hfirst
    have hb := (hlawful .seeding _ _ trivial hseed).toWithin
    have hc := (Growth.conforms hlawful hpos hb hgrowth).toWithin
    have hsilent := ha.silent rfl rfl
    refine hQ.framed hpos _ (ha.toWithin.andThen (hsilent.stop_eq ▸ hc)) ?_
    have hkeep := Growth.keeps hQ hlawful hK hpos hb (hK .seeding _ _ trivial trivial hseed) hgrowth
    exact hQ.afterSignal ha.toWithin hc hsilent (hK .fresh _ _ trivial trivial hfirst) hkeep

/-- Every rule has the property, at every stack of frames that has it. -/
theorem Grammar.derives_keeps {g : Grammar α Id} (hQ : Effect.Invariant s Q) (d : Nat)
    {floor p : Nat} (hfs : Stack s g.size floor fs) (hkeep : Frame.Keeps Q fs) {v : Verdict}
    (hfloor : floor ≤ p) (hp : s.Boundary p) (h : g.Derives Invokes s d fs i p v a) : Q p a := by
  induction d generalizing fs floor i p v a with
  | zero => exact h.elim
  | succ d ih =>
    cases hbody : g.body? i with
    | none =>
      simp only [Derives, hbody] at h
      obtain ⟨rfl, rfl⟩ := h
      exact hQ.jump hp hp (Nat.le_refl p)
    | some e =>
      simp only [Derives, hbody] at h
      refine Invokes.keeps hQ hp (fun m hm => hkeep.answer? hm) (fun hnone => ⟨body_lawful
        (invokes_lawful s) d hfs hfloor hp hbody hnone, fun m w b hm hmk hrun => ?_⟩) h
      have hpush := hfs.push hfloor (lt_size_of_body? hbody) hnone hm
      refine hrun.keeps hQ.toLaw (regular (invokes_lawful s) d hpush) ?_ (Nat.le_refl p) hp
      intro j q u c hq hbq hj
      exact ih hpush (hkeep.cons hmk) hq hbq hj

end rules

/-! ## Parses -/

/-- What an invariant says of a call: the frames have it, and so has what a growing rule accepted
last. -/
def Call.Keeps (Q : Nat → Effect Id → Prop) : Call α Id → Prop
  | task _ _ st => Frame.Keeps Q st.frames
  | growth _ _ _ start _ st => Frame.Keeps Q st.frames ∧
      ∀ forest errors, st.since? start = some (forest, errors) →
        Q start.position (.replay st.position forest errors)

section parses

variable {g : Grammar α Id} {s : Source α} {Q : Nat → Effect Id → Prop} {b i : Nat}
  {e : Expr α Id} {st st' : State Id}

/-- What an expression came back with in a proper state has the property, if the frames have it. -/
theorem State.Proper.exists_effect_keeps (h : st.Proper g s b) (hQ : Effect.Invariant s Q)
    (hg : g.isPlain = true) (he : e.isPlain = true) (hkeep : Frame.Keeps Q st.frames) {v : Verdict}
    (heq : e.parser (g.setting s b) st = (v, st')) :
    ∃ a, Conforms s (Frame.Signals st.frames) (.expr e) st.position v a ∧ Q st.position a ∧
      st' = a.on st := by
  obtain ⟨w, a, hrun, hconf, hdone⟩ := Grammar.exists_done (t := .expr e) (invokes_lawful s)
    (invokes_realizedBy s) hg he h.stack h.boundary
  have hback := (hdone b h.room) st h.at_self
  rw [← Grammar.setting_eq_settingBy, heq] at hback
  cases hback
  refine ⟨a, hconf, ?_, rfl⟩
  refine hrun.keeps hQ.toLaw (Grammar.regular (invokes_lawful s) _ h.stack) ?_ (Nat.le_refl _)
    h.boundary
  intro j q u c hq hbq hj
  exact Grammar.derives_keeps hQ _ h.stack hkeep hq hbq hj

/-- A plain expression leaves the frames as it found them. -/
theorem State.Proper.frames_after (h : st.Proper g s b) (hg : g.isPlain = true)
    (he : e.isPlain = true) {v : Verdict} (heq : e.parser (g.setting s b) st = (v, st')) :
    st'.frames = st.frames := by
  obtain ⟨a, -, rfl⟩ := h.exists_effect hg he heq
  rfl

/-- Seeding and growing change the mode of the innermost frame only. -/
theorem Frame.Keeps.setMode {pos : Nat} {m m' : Mode Id} {fs fs' : List (Frame Id)}
    (hfs : fs = ⟨i, pos, m⟩ :: fs') (hkeep : Frame.Keeps Q fs) (hm : m'.Keeps Q pos) :
    Frame.Keeps Q (Frame.setMode i m' fs) := by
  subst hfs
  obtain ⟨-, hrest⟩ := List.forall_mem_cons.1 hkeep
  rw [Frame.setMode_cons_self]
  exact Frame.Keeps.cons hrest hm

/-- A call passes an invariant on to the calls it makes. -/
theorem Calls.keeps {c c' : Call α Id} (hQ : Effect.Invariant s Q) (hg : g.isPlain = true)
    (h : Calls g s c c') (hc : c.Sound g s) (hkeep : c.Keeps Q) : c'.Keeps Q := by
  cases h with
  | begins _ => exact hkeep
  | @item b before behind e st st' heq =>
    have hframes := hc.2.frames_after hg (e := .sequence before) (Expr.allPlain_split hc.1).1 heq
    show Frame.Keeps Q st'.frames
    rwa [hframes]
  | @alternative b before behind e st st' heq =>
    have hframes := hc.2.frames_after hg (e := .choice before) (Expr.allPlain_split hc.1).1 heq
    show Frame.Keeps Q st'.frames
    rwa [hframes]
  | @copy b k n e st st' _ heq =>
    have hcopies : (Expr.times e k).isPlain = true := hc.1
    show Frame.Keeps Q st'.frames
    rwa [hc.2.frames_after hg hcopies heq]
  | star => exact hkeep
  | @plus b e st st' heq _ =>
    have he : e.isPlain = true := hc.1
    show Frame.Keeps Q st'.frames
    rwa [hc.2.frames_after hg he heq]
  | round => exact hkeep
  | @nextRound b e st st' heq _ =>
    show Frame.Keeps Q st'.frames
    rwa [hc.2.frames_after hg hc.1 heq]
  | recoverAtEnd _ => exact hkeep
  | recover _ => exact hkeep
  | @fallback b e f id st st' _ heq =>
    have he := (Bool.and_eq_true_iff.1 hc.1).1
    have hframes : st'.frames = st.frames := hc.2.resetFurthest.frames_after hg he heq
    show Frame.Keeps Q st'.frames
    rwa [hframes]
  | skipBefore => exact hkeep
  | skipPast => exact hkeep
  | token _ => exact hkeep
  | @nextSkip b past e st st' _ heq =>
    show Frame.Keeps Q st'.frames
    rwa [hc.2.frames_after hg hc.1 heq]
  | body _ _ => exact hkeep.cons (m := .fresh) trivial
  | seed hbody hnone heq _ =>
    show Frame.Keeps Q _
    rw [(hc.2.seeding hg hbody hnone heq).2.frames_eq]
    exact hkeep.cons (m := .seeding) trivial
  | @grow b i e st st' st'' hbody hnone heq _ hseed =>
    have he := Grammar.isPlain_body hg hbody
    obtain ⟨hproper, hat⟩ := hc.2.seeding hg hbody hnone heq
    have hframes : Frame.Keeps Q (st'.setMode i .seeding).frames := by
      rw [hat.frames_eq]
      exact hkeep.cons (m := .seeding) trivial
    obtain ⟨a, hconf, hseeded, rfl⟩ := hproper.exists_effect_keeps hQ hg he hframes hseed
    refine ⟨hframes, fun forest errors hsince => ?_⟩
    have hrecords : (a.on (st'.setMode i .seeding)).since? st'.checkpoint =
        some (a.forest, a.errors) := Effect.since?_on a (st'.setMode i .seeding)
    rw [hrecords] at hsince
    cases hsince
    exact hQ.again hconf.toWithin hseeded
  | @regrow b i k e start st forest errors hsince _ =>
    obtain ⟨hframes, haccepted⟩ := hkeep
    have hmode : (Mode.growing st.position forest errors).Keeps Q start.position :=
      haccepted forest errors hsince
    obtain ⟨-, st₀, m, fs, acc, -, hstack, -, rfl, rfl, -⟩ := hc
    exact Frame.Keeps.setMode hstack hframes hmode
  | @nextGrowth b i k e start st st' forest errors hsince hlt heq _ =>
    obtain ⟨hframes, haccepted⟩ := hkeep
    have hproper := hc.2.regrown (g.name i) hsince
    have hmode : (Mode.growing st.position forest errors).Keeps Q start.position :=
      haccepted forest errors hsince
    obtain ⟨he, st₀, m, fs, acc, -, hstack, -, rfl, rfl, -⟩ := hc
    have hregrown := Frame.Keeps.setMode hstack hframes hmode
    obtain ⟨a, hconf, hround, rfl⟩ := hproper.exists_effect_keeps hQ hg he hregrown heq
    refine ⟨hregrown, fun forest' errors' hsince' => ?_⟩
    -- going back to where the rule was entered, the lists are as long as they were then
    have hrecords : (a.on ((acc.on st₀).regrown i (g.name i) st₀.checkpoint k forest
        errors)).since? st₀.checkpoint = some (a.forest, a.errors) := by
      simp [State.since?, State.regrown, State.restore, State.checkpoint, State.note,
        State.setMode, Effect.on]
    rw [hrecords] at hsince'
    cases hsince'
    exact hQ.again hconf.toWithin hround

namespace Grammar

variable {start : Expr α Id}

/-- An invariant holds of all frames of a parse. -/
theorem Arises.keeps {c : Call α Id} (h : g.Arises s start c) (hQ : Effect.Invariant s Q)
    (hg : g.isPlain = true) (hstart : start.isPlain = true) : c.Keeps Q := by
  induction h with
  | refl => exact nofun
  | tail hbefore hstep ih => exact hstep.keeps hQ hg (Arises.sound hbefore hg hstart) ih

/-- In every state that arises in a parse, what the frames answer with has the property of an
invariant. -/
theorem Context.keeps (h : g.Context s start b st) (hQ : Effect.Invariant s Q)
    (hg : g.isPlain = true) (hstart : start.isPlain = true) : Frame.Keeps Q st.frames := by
  cases h with
  | made hcall => exact hcall.keeps hQ hg hstart
  | back hcall heq =>
    obtain ⟨he, hproper⟩ := hcall.sound hg hstart
    rw [hproper.frames_after hg he heq]
    exact hcall.keeps hQ hg hstart

/-- In every state that arises in a parse, what an expression comes back with has the property. -/
theorem Context.exists_effect (h : g.Context s start b st) (hQ : Effect.Invariant s Q)
    (hg : g.isPlain = true) (hstart : start.isPlain = true) (he : e.isPlain = true) {v : Verdict}
    (heq : e.parser (g.setting s b) st = (v, st')) :
    ∃ a, Conforms s (Frame.Signals st.frames) (.expr e) st.position v a ∧ Q st.position a ∧
      st' = a.on st :=
  (h.proper hg hstart).exists_effect_keeps hQ hg he (h.keeps hQ hg hstart) heq

end Grammar

end parses

end Peg
