import Peg.Proofs.Operators
import Peg.Proofs.Renaming

/-!
# Tags only observe

Without its tags, a grammar matches the same inputs in the same way: it stops at the same positions,
reaches as far and recovers from the same errors, and only the matches are missing. And with other
tags it finds the same matches, under these. Both are `Grammar.tags_only_observe`.

The number of recorded matches is part of every checkpoint, and a growing rule keeps matches along
with everything else that it accepted last, so that nothing of this leaks into the course of a run
has to be shown for each combinator. On effects it is short. To drop the tags of an expression
(`Expr.untagged`) is to drop the matches of its effects (`Effect.untagged`), log included, since the
log does not mention matches: `Runs.untagged` for tasks, `Grammar.derives_untagged` for rules. The
one case with an argument in it is a tagged expression that fails, which takes back what the
expression without the tag does not; but that expression left nothing to be taken back.

Other tags are a case of `Peg.Proofs.Renaming`.
-/

namespace Peg

variable {α Id Id' : Type}

/-! ## Dropping tags -/

mutual

/-- The expression without tags: each tagged part is replaced by what is tagged. -/
def Expr.untagged : Expr α Id → Expr α Id
  | .satisfy test => .satisfy test
  | .literal tests => .literal tests
  | .endOfInput => .endOfInput
  | .rule index => .rule index
  | .sequence items => .sequence (Expr.untaggedAll items)
  | .choice items => .choice (Expr.untaggedAll items)
  | .group e => .group e.untagged
  | .star e => .star e.untagged
  | .plus e => .plus e.untagged
  | .optional e => .optional e.untagged
  | .ahead e => .ahead e.untagged
  | .notAhead e => .notAhead e.untagged
  | .times e n => .times e.untagged n
  | .tag e _ => e.untagged
  | .recover e id fallback => .recover e.untagged id fallback.untagged
  | .skipBefore token => .skipBefore token.untagged
  | .skipPast token => .skipPast token.untagged
  | .script body => .script (Action.untaggedAll body)
termination_by structural e => e

/-- The expressions of a list without tags. -/
def Expr.untaggedAll : List (Expr α Id) → List (Expr α Id)
  | [] => []
  | e :: rest => e.untagged :: Expr.untaggedAll rest
termination_by structural items => items

/-- The action without tags. -/
def Action.untagged : Action α Id → Action α Id
  | .parse e => .parse e.untagged
  | .attempt body => .attempt (Action.untaggedAll body)
  | .lookahead body => .lookahead (Action.untaggedAll body)
  | action => action
termination_by structural action => action

/-- The actions of a list without tags. -/
def Action.untaggedAll : List (Action α Id) → List (Action α Id)
  | [] => []
  | action :: rest => action.untagged :: Action.untaggedAll rest
termination_by structural body => body

end

/-- The task without tags. -/
def Task.untagged : Task α Id → Task α Id
  | .expr e => .expr e.untagged
  | .items es => .items (Expr.untaggedAll es)
  | .loop e => .loop e.untagged
  | .skip past token => .skip past token.untagged

/-- The effect without matches. -/
def Effect.untagged (a : Effect Id) : Effect Id := { a with forest := [] }

/-- The answer of a rule without matches. -/
def Mode.untagged : Mode Id → Mode Id
  | .fresh => .fresh
  | .seeding => .seeding
  | .growing stop _ errors => .growing stop [] errors

/-- The frame without matches. -/
def Frame.untagged (f : Frame Id) : Frame Id := { f with mode := f.mode.untagged }

/-- The outcome without matches. -/
def Outcome.untagged (o : Outcome Id) : Outcome Id := { o with forest := [] }

section small

variable {s : Source α} {pos : Nat} {e : Expr α Id}

/-- Copies lose their tags copy by copy. -/
theorem Expr.untaggedAll_replicate (n : Nat) (e : Expr α Id) :
    Expr.untaggedAll (List.replicate n e) = List.replicate n e.untagged := by
  induction n with
  | zero => rfl
  | succ n ih => simp only [List.replicate_succ, untaggedAll, ih]

/-- Undoing an effect is the same with and without matches. -/
theorem Effect.untagged_undo (pos : Nat) (a : Effect Id) :
    (a.undo pos).untagged = a.untagged.undo pos := rfl

/-- Taking a failure back is the same with and without matches. -/
theorem Effect.untagged_settle (v : Verdict) (pos : Nat) (a : Effect Id) :
    (a.settle v pos).untagged = a.untagged.settle v pos := by
  unfold settle
  split
  · rfl
  · rfl

/-- An expression that looks at the source itself has no tags. -/
theorem Reads.untagged {r : Option Nat} (h : Reads s pos e r) : Reads s pos e.untagged r := by
  cases h with
  | satisfy test => exact .satisfy test
  | literal tests => exact .literal tests
  | endOfInput => exact .endOfInput

/-- Frames without matches answer as the frames do, without matches. -/
theorem Frame.answer?_untagged (fs : List (Frame Id)) (i p : Nat) :
    Frame.answer? (fs.map Frame.untagged) i p = (Frame.answer? fs i p).map Mode.untagged := by
  induction fs with
  | nil => rfl
  | cons f fs ih =>
    rw [List.map_cons, answer?_cons, answer?_cons, ih]
    show (if f.rule = i then if f.position = p then some f.mode.untagged else none else _) = _
    split
    · split
      · rfl
      · rfl
    · rfl

end small

/-! ## Runs -/

section runs

variable {s : Source α} {L : Nat → Nat → Prop} {floor : Nat}
  {C C' : Nat → Nat → Verdict → Effect Id → Prop}

/-- If the rules without tags do the same without matches, then so do all tasks. -/
theorem Runs.untagged (hC : Regular s L floor C)
    (hcall : ∀ i p v a, floor ≤ p → s.Boundary p → C i p v a → C' i p v a.untagged)
    {t : Task α Id} {pos : Nat} {v : Verdict} {a : Effect Id} (h : Runs s C t pos v a)
    (hfloor : floor ≤ pos) (hpos : s.Boundary pos) : Runs s C' t.untagged pos v a.untagged := by
  induction h with
  | reads hr => exact .reads hr.untagged
  | misses hr => exact .misses hr.untagged
  | rule h => exact .rule (hcall _ _ _ _ hfloor hpos h)
  | sequence _ ih =>
    rw [Effect.untagged_settle]
    exact .sequence (ih hfloor hpos)
  | choiceNil => exact .choiceNil
  | choiceNext _ _ ih₁ ih₂ => exact .choiceNext (ih₁ hfloor hpos) (ih₂ hfloor hpos)
  | choiceDone _ hv ih =>
    rw [Effect.untagged_settle]
    exact .choiceDone (ih hfloor hpos) hv
  | group _ ih => exact .group (ih hfloor hpos)
  | star _ ih =>
    rw [Effect.untagged_settle]
    exact .star (ih hfloor hpos)
  | plusOnce _ hstay ih =>
    rw [Effect.untagged_settle]
    exact .plusOnce (ih hfloor hpos) hstay
  | plusMore h₁ hmoved _ ih₁ ih₂ =>
    have ha := h₁.conforms hC hfloor hpos
    rw [Effect.untagged_settle]
    exact .plusMore (ih₁ hfloor hpos) hmoved (ih₂ (Nat.le_trans hfloor ha.le_stop) ha.boundary)
  | optional _ ih =>
    rw [Effect.untagged_settle]
    exact .optional (ih hfloor hpos)
  | ahead _ ih =>
    rw [Effect.untagged_undo]
    exact .ahead (ih hfloor hpos)
  | notAhead _ ih =>
    rw [Effect.untagged_undo]
    exact .notAhead (ih hfloor hpos)
  | times _ ih =>
    rw [Effect.untagged_settle]
    have hcopies := ih hfloor hpos
    rw [Task.untagged, Expr.untaggedAll_replicate] at hcopies
    exact .times hcopies
  | tagOk _ ih => exact ih hfloor hpos
  | tagFail h _ ih =>
    -- what the tag takes back on failure is what there is not
    rw [(h.conforms hC hfloor hpos).settle_eq]
    exact ih hfloor hpos
  | recoverAtEnd hend _ ih => exact .recoverAtEnd hend (ih hfloor hpos)
  | recoverPass hlt _ hv ih => exact .recoverPass hlt (ih hfloor hpos) hv
  | recoverOk hlt _ _ ih₁ ih₂ => exact .recoverOk hlt (ih₁ hfloor hpos) (ih₂ hfloor hpos)
  | recoverFail hlt _ _ hv ih₁ ih₂ =>
    rw [Effect.untagged_settle]
    exact .recoverFail hlt (ih₁ hfloor hpos) (ih₂ hfloor hpos) hv
  | skipBefore _ ih => exact .skipBefore (ih hfloor hpos)
  | skipPast _ ih => exact .skipPast (ih hfloor hpos)
  | itemsNil => exact .itemsNil
  | itemsCons h₁ _ ih₁ ih₂ =>
    have ha := h₁.conforms hC hfloor hpos
    exact .itemsCons (ih₁ hfloor hpos) (ih₂ (Nat.le_trans hfloor ha.le_stop) ha.boundary)
  | itemsFail _ hv ih => exact .itemsFail (ih hfloor hpos) hv
  | loopEnd _ ih =>
    rw [Effect.untagged_undo]
    exact .loopEnd (ih hfloor hpos)
  | loopStay _ hstay ih => exact .loopStay (ih hfloor hpos) hstay
  | loopMore h₁ hmoved _ ih₁ ih₂ =>
    have ha := h₁.conforms hC hfloor hpos
    exact .loopMore (ih₁ hfloor hpos) hmoved (ih₂ (Nat.le_trans hfloor ha.le_stop) ha.boundary)
  | loopSignal _ ih => exact .loopSignal (ih hfloor hpos)
  | skipAtEnd hend => exact .skipAtEnd hend
  | skipFound hlt _ ih =>
    exact .skipFound (a := Effect.untagged _) hlt (ih hfloor hpos)
  | skipNext hlt h₁ _ ih₁ ih₂ =>
    have ha := h₁.conforms hC hfloor hpos
    have hfloor' := Nat.le_trans (Nat.le_trans hfloor ha.le_stop) (s.le_walk _ 1)
    exact .skipNext hlt (ih₁ hfloor hpos) (ih₂ hfloor' (ha.boundary.walk 1))
  | skipSignal hlt _ ih => exact .skipSignal hlt (ih hfloor hpos)

end runs

/-! ## Rules -/

/-- A body that does what another one does, without matches. -/
def Body.Untags (s : Source α) (pos : Nat) (B B' : Body Id) : Prop :=
  ∀ m v a, m.Fits s pos → B m v a → B' m.untagged v a.untagged

section rules

variable {s : Source α} {i pos : Nat} {name : String} {B B' : Body Id} {fs : List (Frame Id)}
  {v : Verdict} {a b acc : Effect Id}

/-- A rule without tags grows as the rule does, without matches. -/
theorem Growth.untagged (hB : B.Lawful s i pos fs) (hBB' : B.Untags s pos B')
    (hpos : s.Boundary pos) {k : Nat} (h : Growth s.size name pos B k acc v b)
    (hacc : acc.Within s pos) : Growth s.size name pos B' k acc.untagged v b.untagged := by
  induction h with
  | full hfull => exact .full hfull
  | further hlt hbody hmore _ ih =>
    have ha := (hB _ _ _ hacc.mode_fits hbody).toWithin
    exact .further hlt (hBB' _ _ _ hacc.mode_fits hbody) hmore (ih (hacc.retried _ _ ha hpos))
  | settled hlt hbody hdone =>
    exact .settled (a := Effect.untagged _) hlt (hBB' _ _ _ hacc.mode_fits hbody) hdone
  | signal hlt hbody =>
    exact .signal (a := Effect.untagged _) hlt (hBB' _ _ _ hacc.mode_fits hbody)

/-- A rule without tags is invoked as the rule is, without matches. -/
theorem Invokes.untagged (hpos : s.Boundary pos) {active : Option (Mode Id)}
    (hB : active = none → B.Lawful s i pos fs ∧ B.Untags s pos B')
    (h : Invokes s.size i name pos B active v a) :
    Invokes s.size i name pos B' (active.map Mode.untagged) v a.untagged := by
  cases h with
  | signal hfresh =>
    subst hfresh
    exact .signal rfl
  | refuse hseeding =>
    subst hseeding
    exact .refuse rfl
  | replay hgrowing =>
    subst hgrowing
    exact .replay rfl
  | once hnone hbody hother =>
    subst hnone
    exact .once rfl ((hB rfl).2 .fresh _ _ trivial hbody) hother
  | barren hnone hfirst hseed hv =>
    subst hnone
    obtain ⟨-, hBB'⟩ := hB rfl
    exact .barren rfl (hBB' .fresh _ _ trivial hfirst) (hBB' .seeding _ _ trivial hseed) hv
  | grown hnone hfirst hseed hgrowth =>
    subst hnone
    obtain ⟨hlawful, hBB'⟩ := hB rfl
    have hb := (hlawful .seeding _ _ trivial hseed).toWithin
    exact .grown rfl (hBB' .fresh _ _ trivial hfirst) (hBB' .seeding _ _ trivial hseed)
      (hgrowth.untagged hlawful hBB' hpos hb)
  | aborted hnone hfirst hseed hgrowth hv =>
    subst hnone
    obtain ⟨hlawful, hBB'⟩ := hB rfl
    have hb := (hlawful .seeding _ _ trivial hseed).toWithin
    exact .aborted rfl (hBB' .fresh _ _ trivial hfirst) (hBB' .seeding _ _ trivial hseed)
      (hgrowth.untagged hlawful hBB' hpos hb) hv

end rules

/-! ## Grammars -/

namespace Grammar

/-- The grammar with other definitions in the places of its own, under the same names. -/
def mapBodies (f : Expr α Id → Expr α Id') (g : Grammar α Id) : Grammar α Id' where
  rules := g.rules.map fun rule => ⟨rule.name, rule.body.map f⟩

/-- The grammar without tags. -/
def untagged (g : Grammar α Id) : Grammar α Id := g.mapBodies Expr.untagged

/-- The grammar with other tags. -/
def retagged (tag : Id → Id') (g : Grammar α Id) : Grammar α Id' := g.mapBodies (Expr.rename id tag)

section mapBodies

variable (f : Expr α Id → Expr α Id') (g : Grammar α Id)

/-- Changing definitions adds no rules. -/
theorem size_mapBodies : (g.mapBodies f).size = g.size := List.length_map _

/-- The definitions are the changed ones. -/
theorem body?_mapBodies (i : Nat) : (g.mapBodies f).body? i = (g.body? i).map f := by
  rw [body?, body?, mapBodies, List.getElem?_map]
  cases g.rules[i]? with
  | none => rfl
  | some rule => rfl

/-- Changing definitions changes no names. -/
theorem name_mapBodies (i : Nat) : (g.mapBodies f).name i = g.name i := by
  rw [name, name, mapBodies, List.getElem?_map]
  cases g.rules[i]? with
  | none => rfl
  | some rule => rfl

/-- Both grammars are accepted, or both are refused for the same reason. -/
theorem validate_mapBodies : (g.mapBodies f).validate = g.validate := by
  have hundefined : (fun rule : Rule α Id' => rule.body.isNone) ∘
      (fun rule : Rule α Id => (⟨rule.name, rule.body.map f⟩ : Rule α Id')) =
        fun rule => rule.body.isNone := funext fun rule => Option.isNone_map
  rw [validate, validate, mapBodies, List.find?_map, hundefined]
  cases g.rules.find? (·.body.isNone) with
  | none => rfl
  | some rule => rfl

end mapBodies

/-- Without tags, every rule does the same without matches. -/
theorem derives_untagged {g : Grammar α Id} {s : Source α} (d : Nat) {floor i p : Nat}
    {fs : List (Frame Id)} {v : Verdict} {a : Effect Id} (hfs : Stack s g.size floor fs)
    (hfloor : floor ≤ p) (hp : s.Boundary p) (h : g.Derives Invokes s d fs i p v a) :
    g.untagged.Derives Invokes s d (fs.map Frame.untagged) i p v a.untagged := by
  induction d generalizing floor fs i p v a with
  | zero => exact h.elim
  | succ d ih =>
    have hbody' : g.untagged.body? i = (g.body? i).map Expr.untagged := body?_mapBodies _ g i
    have hname : g.untagged.name i = g.name i := name_mapBodies _ g i
    cases hbody : g.body? i with
    | none =>
      rw [hbody, Option.map_none] at hbody'
      simp only [Derives, hbody] at h
      obtain ⟨rfl, rfl⟩ := h
      simp only [Derives, hbody']
      exact ⟨trivial, rfl⟩
    | some e =>
      rw [hbody, Option.map_some] at hbody'
      simp only [Derives, hbody] at h
      simp only [Derives, hbody', hname, Frame.answer?_untagged]
      refine h.untagged hp fun hnone => ⟨body_lawful (invokes_lawful s) d hfs hfloor hp hbody hnone,
        fun m w b hm hrun => ?_⟩
      have hpush := hfs.push hfloor (lt_size_of_body? hbody) hnone hm
      refine hrun.untagged (regular (invokes_lawful s) d hpush) ?_ (Nat.le_refl p) hp
      intro j q u c hq hbq hderives
      exact ih hpush hq hbq hderives

/-- A parse without tags has the outcome without matches. -/
theorem parseLogged_untagged {g : Grammar α Id} {start : Expr α Id} (hg : g.isPlain = true)
    (hstart : start.isPlain = true) (hvalid : g.validate = .ok ()) (s : Source α) (toEnd : Bool) :
    (g.untagged.parseLogged s start.untagged toEnd).1 =
      (g.parseLogged s start toEnd).1.map Outcome.untagged := by
  obtain ⟨v, a, hv, hrun, hconf, hout⟩ := exists_outcome hg hstart hvalid s
  have hnil : Stack s g.size 0 ([] : List (Frame Id)) := .nil s g.size 0
  have hrun' : Runs s (g.untagged.Derives Invokes s (g.depth s []) []) (.expr start.untagged) 0 v
      a.untagged := by
    refine hrun.untagged (regular (invokes_lawful s) _ hnil) ?_ (Nat.le_refl 0) s.boundary_zero
    intro i p w b hp hbp hi
    exact derives_untagged _ hnil hp hbp hi
  have hsize : g.size ≤ g.untagged.size := Nat.le_of_eq (size_mapBodies _ g).symm
  have hvalid' : g.untagged.validate = .ok () := (validate_mapBodies _ g).trans hvalid
  rw [parseLogged_of_runs hvalid' (depth_add_size_lt_enough hsize s) hv hrun' toEnd, hout toEnd]
  rfl

/-- A parse with other tags has the outcome with these tags. -/
theorem parseLogged_retagged {g : Grammar α Id} {start : Expr α Id} (hg : g.isPlain = true)
    (hstart : start.isPlain = true) (hvalid : g.validate = .ok ()) (tag : Id → Id') (s : Source α)
    (toEnd : Bool) :
    ((g.retagged tag).parseLogged s (start.rename id tag) toEnd).1 =
      (g.parseLogged s start toEnd).1.map (Renaming.named (.refl Nat) tag).outcome := by
  have htranslated : ∀ e : Expr α Id, e.isPlain = true →
      e.Translates (.named (.refl Nat) tag) (fun _ => True) (e.rename id tag) := fun e he =>
    Expr.translates_rename (τ := .named (.refl Nat) tag) rfl (fun _ _ => rfl) e he
      fun _ _ => trivial
  have hbodies : ∀ i, True →
      Option.Rel (Expr.Translates (.named (.refl Nat) tag) fun _ => True) (g.body? i)
        ((g.retagged tag).body? ((.refl Nat : Nat ↪ Nat) i)) := by
    intro i _
    rw [retagged, Function.Embedding.refl_apply, body?_mapBodies]
    cases hbody : g.body? i with
    | none => exact .none
    | some e => exact .some (htranslated e (isPlain_body hg hbody))
  obtain ⟨o, ho, ho'⟩ := parseLogged_named hbodies (htranslated start hstart)
    (Nat.le_of_eq (size_mapBodies _ g).symm) hg hstart hvalid
    ((validate_mapBodies _ g).trans hvalid) s toEnd
  rw [ho, ho']
  rfl

/-- Tags only observe. Without its tags, a grammar is refused for the same reason or matches the
same: every outcome has the same success, the same end, the same furthest position and the same
errors, and no matches. With other tags, every outcome is the same with these tags. -/
theorem tags_only_observe (g : Grammar α Id) (start : Expr α Id) (hg : g.isPlain = true)
    (hstart : start.isPlain = true) (s : Source α) (toEnd : Bool) :
    (g.untagged.parseLogged s start.untagged toEnd).1 =
        (g.parseLogged s start toEnd).1.map Outcome.untagged ∧
      ∀ {Id' : Type} (tag : Id → Id'),
        ((g.retagged tag).parseLogged s (start.rename id tag) toEnd).1 =
          (g.parseLogged s start toEnd).1.map (Renaming.named (.refl Nat) tag).outcome := by
  cases hvalid : g.validate with
  | ok _ =>
    exact ⟨parseLogged_untagged hg hstart hvalid s toEnd,
      fun tag => parseLogged_retagged hg hstart hvalid tag s toEnd⟩
  | error e =>
    have hrefused : ∀ {Id' : Type} (f : Expr α Id → Expr α Id') (start' : Expr α Id'),
        ((g.mapBodies f).parseLogged s start' toEnd).1 = .error (.error e) := fun f start' =>
      parseLogged_refused ((validate_mapBodies f g).trans hvalid) s start' toEnd
    rw [parseLogged_refused hvalid]
    exact ⟨hrefused _ _, fun tag => hrefused _ _⟩

/-- Both rules grow at once behind a recovery, and leave three matches and an error. -/
theorem tags_only_observe_entangled :
    let start : Expr Char Nat :=
      .sequence [.recover (.element 'x') 8 (.skipBefore (.element 'y')), .rule 0]
    entangled.isPlain = true ∧ start.isPlain = true ∧
      ∃ o, (entangled.parseLogged (.ofText "zyxzx") start true).1 = .ok o ∧
        o.errors = [.record 8 0 ⟨0, 1⟩] ∧ Match.countAll o.forest = 3 ∧
        (entangled.untagged.parseLogged (.ofText "zyxzx") start.untagged true).1 =
          .ok o.untagged ∧
        ((entangled.retagged (· + 10)).parseLogged (.ofText "zyxzx") (start.rename id (· + 10))
          true).1 = .ok ((Renaming.named (.refl Nat) (· + 10)).outcome o) := by
  intro start
  have hstart : start.isPlain = true := by decide
  obtain ⟨huntagged, hretagged⟩ :=
    tags_only_observe entangled start (by decide) hstart (.ofText "zyxzx") true
  have hrun : ((entangled.parseLogged (.ofText "zyxzx") start true).1.toOption.map
      fun o => (o.errors, Match.countAll o.forest)) = some ([.record 8 0 ⟨0, 1⟩], 3) := by
    decide +kernel
  obtain ⟨o, ho⟩ | ⟨e, he, -⟩ :=
    parseLogged_ends (g := entangled) (by decide) hstart (.ofText "zyxzx") true
  · have hretagged := hretagged (· + 10)
    rw [ho] at hrun huntagged hretagged
    obtain ⟨herrors, hcount⟩ : o.errors = [.record 8 0 ⟨0, 1⟩] ∧ Match.countAll o.forest = 3 := by
      simpa [Except.toOption] using hrun
    exact ⟨by decide, hstart, o, ho, herrors, hcount, huntagged, hretagged⟩
  · cases he

end Grammar

end Peg
