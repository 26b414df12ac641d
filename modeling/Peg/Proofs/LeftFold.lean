import Mathlib.Logic.Relation
import Peg.Proofs.Operators
import Peg.Proofs.Translation

/-!
# Left recursion is iteration folded to the left

A rule `r` that is `r op x` under a tag, or else `x`, where neither `op` nor `x` leads back to `r`,
matches an `x` and then `op x` as often as possible, and its matches are nested to the left:
`Grammar.left_recursion_folds` compares it with the expression `x (op x)*`.

The engine gets there by starting the whole body over in every round, with what was accepted so far
standing for `r`. A round in which `op x` matches behind it is one step of the fold. In the last
round `op x` does not match, so the body falls back to its second alternative, which gets no further
than the very first `x` did. If the source is used up, there is no last round, and none is missed,
since `op x` cannot match there.

* `Repeats`: the rounds of `op x` from a position on, as the effects of the single rounds together
  with the effect of all of them. They are the rounds of a loop (`Repeats.loop`), and they are the
  rounds of growth (`Repeats.growth`).
* `Body.Folds`: what the body of `r` does, said by what `x` and `op x` do outside of `r`. This is
  where the frame of `r` is shown to make no difference to them (`LeftRecursive.folds`).
-/

namespace Peg

variable {α Id : Type}

/-! ## Definitions -/

/-- The rule, an operator and an operand, under a tag, or else an operand. -/
def Expr.leftRecursive (r : Nat) (tag : Id) (op x : Expr α Id) : Expr α Id :=
  ((((Expr.rule r).andThen op).andThen x).tag tag).orElse x

/-- An operand, and then an operator and an operand as often as possible. -/
def Expr.iteration (op x : Expr α Id) : Expr α Id := x.andThen (.star (op.andThen x))

namespace Grammar

/-- The definition of a rule refers to another rule. -/
def Refers (g : Grammar α Id) (i j : Nat) : Prop := ∃ e, g.body? i = some e ∧ j ∈ e.references

/-- An expression leads to a rule, by its own references and those of the definitions behind
them. -/
def Reaches (g : Grammar α Id) (e : Expr α Id) (r : Nat) : Prop :=
  ∃ i ∈ e.references, Relation.ReflTransGen g.Refers i r

/-- A rule with such a definition, where neither the operator nor the operand leads back to the
rule. -/
structure LeftRecursive (g : Grammar α Id) (r : Nat) (tag : Id) (op x : Expr α Id) : Prop where
  body_eq : g.body? r = some (.leftRecursive r tag op x)
  op_plain : op.isPlain = true
  x_plain : x.isPlain = true
  op_apart : ¬ g.Reaches op r
  x_apart : ¬ g.Reaches x r

/-- An expression that gets further whenever it matches, from a fresh state anywhere in the
source. -/
def Consumes (g : Grammar α Id) (s : Source α) (e : Expr α Id) : Prop :=
  ∀ (q : Nat) (st' : State Id), s.Boundary q →
    e.parser (g.setting s (g.enough s)) { position := q, furthest := q } = (.ok, st') →
    q < st'.position

end Grammar

/-- The repetitions of an expression from a state on, up to the first time that it does not match:
where each of them ends, and the matches that it adds. -/
inductive Expr.Repeated (env : Setting α Id) (e : Expr α Id) :
    State Id → List (Nat × List (Match Id)) → Prop
  | done {st : State Id} : (e.parser env st).1 ≠ .ok → Repeated env e st []
  | more {st st' : State Id} {rounds : List (Nat × List (Match Id))} :
      e.parser env st = (.ok, st') → Repeated env e st' rounds →
      Repeated env e st ((st'.position, st'.forest.drop st.forest.length) :: rounds)

/-- Matches nested to the left: each round puts a match around what there is and what it adds. -/
def Match.nestLeft (tag : Id) (pos : Nat) (seed : List (Match Id))
    (rounds : List (Nat × List (Match Id))) : List (Match Id) :=
  rounds.foldl (fun inner round => [⟨tag, ⟨pos, round.1⟩, inner ++ round.2⟩]) seed

/-- In a parse from the given expression, the rule matches as iteration does, and nests to the left
what iteration puts in a row. -/
structure Grammar.FoldsLeft (g : Grammar α Id) (s : Source α) (start : Expr α Id) (r : Nat)
    (tag : Id) (op x : Expr α Id) : Prop where
  /-- In every state that arises, with no rule being parsed at the cursor, the rule and the
  iteration come out alike, apart from the matches. -/
  same : ∀ {b : Nat} {st : State Id}, g.Context s start b st →
    (∀ f ∈ st.frames, f.position ≠ st.position) →
    ∃ v st₁ st₂, (v = .ok ∨ v = .mismatch) ∧
      (Expr.rule r).parser (g.setting s b) st = (v, st₁) ∧
      (Expr.iteration op x).parser (g.setting s b) st = (v, st₂) ∧
      st₁.position = st₂.position ∧ st₁.errors = st₂.errors ∧ st₁.furthest = st₂.furthest
  /-- If the operand matches, it is followed by some number of repetitions. -/
  repeated : ∀ {b : Nat} {st st₀ : State Id}, g.Context s start b st →
    (∀ f ∈ st.frames, f.position ≠ st.position) →
    x.parser (g.setting s b) st = (.ok, st₀) →
    ∃ rounds, (op.andThen x).Repeated (g.setting s b) st₀ rounds
  /-- The matches of the rule are those of the first operand, nested to the left by the
  repetitions that follow it. -/
  nested : ∀ {b : Nat} {st st₀ : State Id} {rounds : List (Nat × List (Match Id))},
    g.Context s start b st → (∀ f ∈ st.frames, f.position ≠ st.position) →
    x.parser (g.setting s b) st = (.ok, st₀) →
    (op.andThen x).Repeated (g.setting s b) st₀ rounds →
    ∃ st₁, (Expr.rule r).parser (g.setting s b) st = (.ok, st₁) ∧
      st₁.forest = st.forest ++
        Match.nestLeft tag st.position (st₀.forest.drop st.forest.length) rounds

/-! ## Rounds -/

/-- The rounds of something that does `R`: the effects of those that match, and the effect of all of
them together with the last one, which does not. -/
inductive Repeats (R : Nat → Verdict → Effect Id → Prop) : Nat → List (Effect Id) → Effect Id → Prop
  | done {q : Nat} {a : Effect Id} : R q .mismatch a → Repeats R q [] a
  | more {q : Nat} {a b : Effect Id} {rounds : List (Effect Id)} :
      R q .ok a → q < a.stop → Repeats R a.stop rounds b → Repeats R q (a :: rounds) (a.andThen b)

/-- What a round shows: where it ends, and the matches that it adds. -/
def Effect.round (a : Effect Id) : Nat × List (Match Id) := (a.stop, a.forest)

section rounds

variable {s : Source α} {L : Nat → Nat → Prop} {floor q : Nat}
  {C : Nat → Nat → Verdict → Effect Id → Prop} {e : Expr α Id} {rounds : List (Effect Id)}
  {total : Effect Id}

/-- Rounds that match by getting further are the rounds of a loop. -/
theorem Repeats.loop (hC : Regular s L floor C)
    (h : Repeats (Runs s C (.expr e)) q rounds total) (hfloor : floor ≤ q) (hq : s.Boundary q) :
    Runs s C (.loop e) q .ok total := by
  induction h with
  | done hlast =>
    have hsilent := (hlast.conforms hC hfloor hq).silent rfl rfl
    have hend := Runs.loopEnd hlast
    rwa [hsilent.undo_eq] at hend
  | more hround hfurther _ ih =>
    have ha := hround.conforms hC hfloor hq
    exact .loopMore hround (Nat.ne_of_gt hfurther) (ih (Nat.le_trans hfloor ha.le_stop) ha.boundary)

/-- There are rounds up to one that does not match, if every round that matches gets further. -/
theorem Repeats.exists_of_runnable (hC : Regular s L floor C)
    (he : (Task.expr e).Runnable s C floor) (hL : ∀ i p, floor ≤ p → ¬ L i p)
    (hfurther : ∀ p a, floor ≤ p → s.Boundary p → Runs s C (.expr e) p .ok a → p < a.stop)
    (hfloor : floor ≤ q) (hq : s.Boundary q) :
    ∃ rounds total, Repeats (Runs s C (.expr e)) q rounds total := by
  induction hn : s.after q using Nat.strongRecOn generalizing q with
  | ind n ih =>
    obtain ⟨v, a, hrun⟩ := he q hfloor hq
    have ha := hrun.conforms hC hfloor hq
    rcases ha.matches_or_not (fun i => hL i q hfloor) with rfl | rfl
    · have hlt := hfurther q a hfloor hq hrun
      obtain ⟨rounds, total, hrest⟩ := ih (s.after a.stop) (hn ▸ hq.after_lt ha.boundary hlt)
        (Nat.le_trans hfloor ha.le_stop) ha.boundary rfl
      exact ⟨a :: rounds, a.andThen total, .more hrun hlt hrest⟩
    · exact ⟨[], a, .done hrun⟩

end rounds

/-! ## Growth -/

/-- What the body of a left-recursive rule does in each mode of its frame, said by what the operand
does, which is `v` and `ax`, and by what the operator and an operand do, which is `R`. -/
structure Body.Folds (s : Source α) (R : Nat → Verdict → Effect Id → Prop) (r p : Nat) (tag : Id)
    (v : Verdict) (ax : Effect Id) (B : Body Id) : Prop where
  signal : ∃ l, B .fresh (.leftRecursion r) ((Effect.jump p).logged l)
  seed : ∃ l, B .seeding v (ax.logged l)
  further : ∀ {q : Nat} {a : Effect Id} (forest : List (Match Id)) (errors : List (SyntaxError Id)),
    p ≤ q → s.Boundary q → R q .ok a →
    ∃ l, B (.growing q forest errors) .ok
      ((((Effect.replay q forest errors).andThen a).wrap tag p).logged l)
  fallback : ∀ {q : Nat} {a : Effect Id} (forest : List (Match Id))
    (errors : List (SyntaxError Id)), p ≤ q → s.Boundary q → R q .mismatch a →
    ∃ l, B (.growing q forest errors) v
      ⟨ax.stop, max (max q a.reach) ax.reach, ax.forest, ax.errors, l⟩

/-- What was accepted last, with the given rounds folded into it. -/
def Effect.folded (tag : Id) (p : Nat) (acc : Effect Id) (rounds : List (Effect Id))
    (total : Effect Id) : Effect Id where
  stop := total.stop
  reach := max acc.reach total.reach
  forest := Match.nestLeft tag p acc.forest (rounds.map Effect.round)
  errors := acc.errors ++ total.errors
  events := []

/-- What holds of an effect holds of every other one that is the same but for its log, with some
log. -/
theorem Effect.exists_logged {Q : Effect Id → Prop} {a c : Effect Id} (h : Q c)
    (hstop : c.stop = a.stop) (hreach : c.reach = a.reach) (hforest : c.forest = a.forest)
    (herrors : c.errors = a.errors) : ∃ l, Q (a.logged l) := by
  refine ⟨c.events, ?_⟩
  rwa [Effect.logged, ← hstop, ← hreach, ← hforest, ← herrors]

section growth

variable {s : Source α} {R : Nat → Verdict → Effect Id → Prop} {r p q : Nat} {tag : Id}
  {ax : Effect Id} {B : Body Id} {fs : List (Frame Id)} {L : Nat → Nat → Prop}
  {rounds : List (Effect Id)} {total : Effect Id}

/-- The rounds are the rounds of growth, which folds them into what was accepted last. -/
theorem Repeats.growth (name : String) (hfold : Body.Folds s R r p tag .ok ax B)
    (hB : B.Lawful s r p fs) (hp : s.Boundary p)
    (hR : ∀ {q v a}, p ≤ q → s.Boundary q → R q v a →
      Conforms s L (.expr (.rule r) : Task α Id) q v a)
    (h : Repeats R q rounds total) (k : Nat) {acc : Effect Id} (hacc : acc.Within s p)
    (hstop : acc.stop = q) (hx : ax.stop ≤ q) (hreach : ax.reach ≤ acc.reach) :
    ∃ l, Growth s.size name p B k acc .ok ((Effect.folded tag p acc rounds total).logged l) := by
  have haccReach := hacc.stop_le_reach
  induction h generalizing k acc with
  | @done q a hlast =>
    subst hstop
    have ha := hR hacc.le_stop hacc.boundary hlast
    have hsilent := ha.silent rfl rfl
    have herrors : acc.errors = acc.errors ++ a.errors := by
      rw [hsilent.errors_eq, List.append_nil]
    by_cases hfull : s.size ≤ acc.stop
    · refine Effect.exists_logged (Q := Growth s.size name p B k acc .ok) (.full hfull)
        hsilent.stop_eq.symm ?_ rfl herrors
      have := ha.reach_le_size
      show max acc.reach acc.stop = max acc.reach a.reach
      omega
    · obtain ⟨l, hround⟩ := hfold.fallback acc.forest acc.errors hacc.le_stop hacc.boundary hlast
      refine Effect.exists_logged (Q := Growth s.size name p B k acc .ok)
        (.settled (Nat.lt_of_not_le hfull) hround (Or.inr ⟨rfl, hx⟩)) hsilent.stop_eq.symm ?_ rfl
        herrors
      show max (max acc.reach (max (max acc.stop a.reach) ax.reach)) acc.stop =
        max acc.reach a.reach
      omega
  | @more q a b rounds hround hfurther _ ih =>
    subst hstop
    have ha := hR hacc.le_stop hacc.boundary hround
    obtain ⟨l, hbody⟩ := hfold.further acc.forest acc.errors hacc.le_stop hacc.boundary hround
    have haround := (hB _ _ _ hacc.mode_fits hbody).toWithin
    have hacc' := hacc.retried name k haround hp
    obtain ⟨l', hgrowth⟩ := ih (k + 1) hacc' rfl (Nat.le_trans hx (Nat.le_of_lt hfurther))
      (Nat.le_trans hreach (Nat.le_max_left _ _)) hacc'.stop_le_reach
    have hlt : acc.stop < s.size := Nat.lt_of_lt_of_le hfurther ha.boundary.le_size
    refine Effect.exists_logged (Q := Growth s.size name p B k acc .ok)
      (.further hlt hbody hfurther hgrowth) rfl ?_ rfl
      (List.append_assoc acc.errors a.errors b.errors)
    show max (max acc.reach (max acc.stop a.reach)) b.reach = max acc.reach (max a.reach b.reach)
    omega

end growth

/-! ## The body of the rule -/

section body

variable {s : Source α} {C : Nat → Nat → Verdict → Effect Id → Prop} {items xs : List (Expr α Id)}
  {tag : Id} {p q : Nat} {v : Verdict} {a b : Effect Id}

/-- A tagged first alternative whose items match decides the choice. -/
theorem Runs.tagged_ok (h : Runs s C (.items items) p .ok a) :
    Runs s C (.expr (.choice (.tag (.sequence items) tag :: xs))) p .ok (a.wrap tag p) :=
  .choiceDone (.tagOk (.sequence h)) nofun

/-- A tagged first alternative whose items signal decides the choice, and is taken back. -/
theorem Runs.tagged_signal (h : Runs s C (.items items) p (.leftRecursion q) a) :
    Runs s C (.expr (.choice (.tag (.sequence items) tag :: xs))) p (.leftRecursion q)
      (a.undo p) := by
  have htag : Runs s C (.expr (.tag (.sequence items) tag)) p (.leftRecursion q) _ :=
    .tagFail (.sequence h) nofun
  have hchoice : Runs s C (.expr (.choice (.tag (.sequence items) tag :: xs))) p
      (.leftRecursion q) _ := .choiceDone htag nofun
  exact hchoice

/-- After a tagged first alternative that does not match, the others decide. -/
theorem Runs.tagged_mismatch (h : Runs s C (.items items) p .mismatch a)
    (hxs : Runs s C (.expr (.choice xs)) p v b) :
    Runs s C (.expr (.choice (.tag (.sequence items) tag :: xs))) p v ((a.undo p).andThen b) := by
  have htag : Runs s C (.expr (.tag (.sequence items) tag)) p .mismatch _ :=
    .tagFail (.sequence h) nofun
  have hchoice := Runs.choiceNext htag hxs
  exact hchoice

/-- What holds of every run says nothing about the log. -/
theorem Conforms.logged {L : Nat → Nat → Prop} {t : Task α Id} (h : Conforms s L t p v a)
    (l : List Event) : Conforms s L t p v (a.logged l) :=
  ⟨⟨h.le_stop, h.stop_le_reach, h.reach_le_size, h.boundary⟩, h.answer,
    fun ht hv => { h.silent ht hv with }, h.signal⟩

end body

/-! ### References and plainness of chains -/

section chains

variable {e : Expr α Id} {es es' : List (Expr α Id)}

/-- The references of two lists are those of the one and those of the other. -/
theorem Expr.allReferences_append :
    Expr.allReferences (es ++ es') = Expr.allReferences es ++ Expr.allReferences es' := by
  induction es with
  | nil => rfl
  | cons e es ih => simp [Expr.allReferences, ih]

/-- An expression and its items in a row refer to the same rules. -/
theorem Expr.allReferences_sequenceItems : Expr.allReferences e.sequenceItems = e.references := by
  cases e with
  | sequence items => rfl
  | _ => exact List.append_nil _

/-- Two expressions one after the other refer to what each refers to. -/
theorem Expr.references_andThen (a b : Expr α Id) :
    (a.andThen b).references = a.references ++ b.references := by
  rw [andThen, references, allReferences_append, allReferences_sequenceItems,
    allReferences_sequenceItems]

end chains

namespace Grammar

variable {g : Grammar α Id} {s : Source α} {r p q d : Nat} {tag : Id} {op x e : Expr α Id}
  {fs : List (Frame Id)} {v : Verdict} {a ax : Effect Id}

/-- What an expression does as the body of a rule that was entered at a position. -/
def inside (g : Grammar α Id) (s : Source α) (d : Nat) (fs : List (Frame Id)) (r p : Nat)
    (e : Expr α Id) : Body Id :=
  fun m => Runs s (g.Derives Invokes s d (⟨r, p, m⟩ :: fs)) (.expr e) p

/-- An invocation where no frame answers is derived from what the body does. -/
theorem derives_entered (hbody : g.body? r = some e) (hnone : Frame.answer? fs r p = none)
    (h : Invokes s.size r (g.name r) p (g.inside s d fs r p e) none v a) :
    g.Derives Invokes s (d + 1) fs r p v a := by
  simp only [Derives, hbody, hnone]
  exact h

/-- A rule from which no definition leads to the given one. -/
def Apart (g : Grammar α Id) (r i : Nat) : Prop := ¬ Relation.ReflTransGen g.Refers i r

/-- Definitions lead from rules apart from a rule to rules apart from it only. -/
theorem closed_apart (g : Grammar α Id) (r : Nat) : g.Closed (g.Apart r) := by
  intro i e hi hbody j hj hleads
  exact hi (.head ⟨e, hbody, hj⟩ hleads)

/-- The frame of a rule makes no difference to an expression that does not lead to the rule. -/
theorem runs_inside (hg : g.isPlain = true) (he : e.isPlain = true) (hapart : ¬ g.Reaches e r)
    (hfs : Stack s g.size q fs) (hq : s.Boundary q)
    (h : Runs s (g.Derives Invokes s d fs) (.expr e) q v a) (p : Nat) (m : Mode Id) :
    ∃ l, Runs s (g.Derives Invokes s d (⟨r, p, m⟩ :: fs)) (.expr e) q v (a.logged l) := by
  refine runs_relog hg (closed_apart g r) hfs (fun i p' hi _ => ?_) he
    (fun i hi hleads => hapart ⟨i, hi, hleads⟩) hq h
  have hne : i ≠ r := by
    rintro rfl
    exact hi .refl
  exact Frame.answer?_cons_ne hne p p' m fs

namespace LeftRecursive

variable (hr : g.LeftRecursive r tag op x)

include hr

/-- The operator and an operand in a row are plain. -/
theorem plain : (op.andThen x).isPlain = true := Expr.isPlain_andThen hr.op_plain hr.x_plain

/-- The operator and an operand in a row do not lead back to the rule. -/
theorem apart : ¬ g.Reaches (op.andThen x) r := by
  rintro ⟨i, hi, hleads⟩
  rw [Expr.references_andThen] at hi
  rcases List.mem_append.1 hi with hi | hi
  · exact hr.op_apart ⟨i, hi, hleads⟩
  · exact hr.x_apart ⟨i, hi, hleads⟩

/-- Inside its own frame, the rule answers as the frame says. -/
theorem answers (d : Nat) (fs : List (Frame Id)) {m : Mode Id}
    (h : ∀ B : Body Id, Invokes s.size r (g.name r) p B (some m) v a) :
    g.Derives Invokes s (d + 1) (⟨r, p, m⟩ :: fs) r p v a := by
  simp only [Derives, hr.body_eq, Frame.answer?_cons_self]
  exact h _

/-- While the rule grows, its first alternative goes on from the last accepted result as the
operator and an operand do outside of the rule. -/
theorem replayed (hg : g.isPlain = true) (hfs : Stack s g.size p fs)
    (forest : List (Match Id)) (errors : List (SyntaxError Id)) (hq : p ≤ q) (hbq : s.Boundary q)
    (h : Runs s (g.Derives Invokes s (d + 1) fs) (.expr (op.andThen x)) q v a) :
    ∃ l a', Runs s (g.Derives Invokes s (d + 1) (⟨r, p, .growing q forest errors⟩ :: fs))
        (.items (.rule r :: (op.andThen x).sequenceItems)) p v
        ((Effect.replay q forest errors).andThen a') ∧
      a'.settle v q = a.logged l := by
  have hrule := hr.answers (s := s) (p := p) d fs (m := .growing q forest errors)
    fun _ => .replay rfl
  have hconf := h.conforms (regular (invokes_lawful s) _ hfs) hq hbq
  obtain ⟨l, hl⟩ := runs_inside hg hr.plain hr.apart (hfs.raise hq) hbq h p
    (.growing q forest errors)
  obtain ⟨a', hitems, hsettle⟩ := hl.sequenceItems (hconf.logged l)
  exact ⟨l, a', .itemsCons (.rule hrule) hitems, hsettle⟩

/-- The body does what is said of it, by what operand and operator do outside of the rule. -/
theorem folds (hg : g.isPlain = true) (hfs : Stack s g.size p fs) (hp : s.Boundary p)
    (hx : Runs s (g.Derives Invokes s (d + 1) fs) (.expr x) p v ax) :
    Body.Folds s (Runs s (g.Derives Invokes s (d + 1) fs) (.expr (op.andThen x))) r p tag v ax
      (g.inside s (d + 1) fs r p (.leftRecursive r tag op x)) := by
  have hconf := hx.conforms (regular (invokes_lawful s) _ hfs) (Nat.le_refl p) hp
  -- the second alternative of the body is the operand
  have hoperand : ∀ m, ∃ l, Runs s (g.Derives Invokes s (d + 1) (⟨r, p, m⟩ :: fs))
      (.expr (.choice x.choiceItems)) p v (ax.logged l) := by
    intro m
    obtain ⟨l, hl⟩ := runs_inside hg hr.x_plain hr.x_apart hfs hp hx p m
    exact ⟨l, hl.choiceItems (hconf.logged l)⟩
  let B := g.inside s (d + 1) fs r p (.leftRecursive r tag op x)
  constructor
  case signal =>
    have hrule := hr.answers (s := s) (p := p) d fs (m := .fresh) fun _ => .signal rfl
    have hbody : B .fresh (.leftRecursion r) _ := .tagged_signal (.itemsFail (.rule hrule) nofun)
    exact Effect.exists_logged (Q := B .fresh (.leftRecursion r)) hbody rfl rfl rfl rfl
  case seed =>
    have hrule := hr.answers (s := s) (p := p) d fs (m := .seeding) fun _ => .refuse rfl
    obtain ⟨l, hl⟩ := hoperand .seeding
    have hbody : B .seeding v _ := .tagged_mismatch (.itemsFail (.rule hrule) nofun) hl
    exact Effect.exists_logged (Q := B .seeding v) hbody rfl (Nat.max_eq_right hconf.le_reach) rfl
      rfl
  case further =>
    intro q a forest errors hq hbq hrep
    obtain ⟨l, a', hitems, hsame⟩ := hr.replayed hg hfs forest errors hq hbq hrep
    obtain rfl : a' = a.logged l := hsame
    have hbody : B (.growing q forest errors) .ok _ := .tagged_ok hitems
    exact Effect.exists_logged (Q := B (.growing q forest errors) .ok) hbody rfl rfl rfl rfl
  case fallback =>
    intro q a forest errors hq hbq hrep
    obtain ⟨l, a', hitems, hsettle⟩ := hr.replayed hg hfs forest errors hq hbq hrep
    obtain ⟨l', hl'⟩ := hoperand (.growing q forest errors)
    have hbody : B (.growing q forest errors) v _ := .tagged_mismatch hitems hl'
    have hreach : a'.reach = a.reach := by
      rw [← Effect.settle_reach .mismatch q a', hsettle]
      rfl
    refine Effect.exists_logged (Q := B (.growing q forest errors) v)
      (a := ⟨ax.stop, max (max q a.reach) ax.reach, ax.forest, ax.errors, []⟩) hbody rfl ?_ rfl rfl
    rw [← hreach]
    rfl

/-- Where the operand does not match, the rule does not match either. -/
theorem derives_mismatch (hg : g.isPlain = true) (hfs : Stack s g.size p fs) (hp : s.Boundary p)
    (hnone : Frame.answer? fs r p = none)
    (hx : Runs s (g.Derives Invokes s (d + 1) fs) (.expr x) p .mismatch ax) :
    ∃ l, g.Derives Invokes s (d + 2) fs r p .mismatch (ax.logged l) := by
  have hreach := (hx.conforms (regular (invokes_lawful s) _ hfs) (Nat.le_refl p) hp).le_reach
  have hfold := hr.folds hg hfs hp hx
  obtain ⟨l₁, hfirst⟩ := hfold.signal
  obtain ⟨l₂, hseed⟩ := hfold.seed
  have hderives := derives_entered hr.body_eq hnone (.barren rfl hfirst hseed nofun)
  refine Effect.exists_logged (Q := g.Derives Invokes s (d + 2) fs r p .mismatch) hderives rfl ?_
    rfl rfl
  show max p (max p ax.reach) = ax.reach
  omega

/-- Where the operand matches, the rule matches too, with the rounds that follow folded into it. -/
theorem derives_ok (hg : g.isPlain = true) (hfs : Stack s g.size p fs) (hp : s.Boundary p)
    (hnone : Frame.answer? fs r p = none)
    (hx : Runs s (g.Derives Invokes s (d + 1) fs) (.expr x) p .ok ax) {rounds : List (Effect Id)}
    {total : Effect Id}
    (hrounds : Repeats (Runs s (g.Derives Invokes s (d + 1) fs) (.expr (op.andThen x))) ax.stop
      rounds total) :
    ∃ l, g.Derives Invokes s (d + 2) fs r p .ok
      ((Effect.folded tag p ax rounds total).logged l) := by
  have hregular := regular (g := g) (invokes_lawful s) (d + 1) hfs
  have hconf := hx.conforms hregular (Nat.le_refl p) hp
  have hreach := hconf.le_reach
  have hfold := hr.folds hg hfs hp hx
  have hlawful := body_lawful (invokes_lawful s) (d + 1) hfs (Nat.le_refl p) hp hr.body_eq hnone
  obtain ⟨l₁, hfirst⟩ := hfold.signal
  obtain ⟨l₂, hseed⟩ := hfold.seed
  obtain ⟨l₃, hgrowth⟩ := hrounds.growth (g.name r) hfold hlawful hp
    (fun hq hbq hrun => { hrun.conforms hregular hq hbq with }) 0 (hconf.logged l₂).toWithin rfl
    (Nat.le_refl _) (Nat.le_refl _)
  have hderives := derives_entered hr.body_eq hnone (.grown rfl hfirst hseed hgrowth)
  refine Effect.exists_logged (Q := g.Derives Invokes s (d + 2) fs r p .ok) hderives rfl ?_ rfl rfl
  show max p (max p (max ax.reach total.reach)) = max ax.reach total.reach
  omega

end LeftRecursive

/-! ## Iteration -/

/-- Iteration does not match where the operand does not. -/
theorem iteration_mismatch (hfs : Stack s g.size p fs) (hp : s.Boundary p)
    (hx : Runs s (g.Derives Invokes s d fs) (.expr x) p .mismatch ax) :
    Runs s (g.Derives Invokes s d fs) (.expr (.iteration op x)) p .mismatch ax := by
  have hconf := hx.conforms (regular (invokes_lawful s) d hfs) (Nat.le_refl p) hp
  obtain ⟨a, hitems, rfl⟩ := hx.sequenceItems hconf
  exact .sequence (hitems.items_append_fail nofun)

/-- Iteration does what the operand does and then all the rounds. -/
theorem iteration_ok (hfs : Stack s g.size p fs) (hp : s.Boundary p)
    (hx : Runs s (g.Derives Invokes s d fs) (.expr x) p .ok ax) {rounds : List (Effect Id)}
    {total : Effect Id}
    (hrounds : Repeats (Runs s (g.Derives Invokes s d fs) (.expr (op.andThen x))) ax.stop rounds
      total) :
    Runs s (g.Derives Invokes s d fs) (.expr (.iteration op x)) p .ok (ax.andThen total) := by
  have hregular := regular (g := g) (invokes_lawful s) d hfs
  have hconf := hx.conforms hregular (Nat.le_refl p) hp
  have hloop := hrounds.loop hregular hconf.le_stop hconf.boundary
  have hconf' := hloop.conforms hregular hconf.le_stop hconf.boundary
  obtain ⟨a, hitems, rfl⟩ := hx.sequenceItems hconf
  have hstar : Runs s (g.Derives Invokes s d fs) (.items [.star (op.andThen x)]) a.stop .ok
      (total.andThen (.jump total.stop)) := .itemsCons (.star hloop) .itemsNil
  rw [Effect.andThen_jump hconf'.stop_le_reach] at hstar
  exact .sequence (hitems.items_append hstar hconf'.le_reach)

/-- An expression that consumes gets further above every stack of frames that were made earlier. -/
theorem Consumes.lt_stop (hconsumes : g.Consumes s e) (hg : g.isPlain = true)
    (he : e.isPlain = true) (hfs : Stack s g.size q fs) (hearlier : ∀ f ∈ fs, f.position < q)
    (hq : s.Boundary q) (h : Runs s (g.Derives Invokes s d fs) (.expr e) q .ok a) : q < a.stop := by
  have hclosed : g.Closed fun _ => True := fun _ _ _ _ _ _ => trivial
  have hsame : ∀ i p, True → q ≤ p → Frame.answer? [] i p = Frame.answer? fs i p := fun i p _ hp =>
    (Frame.answer?_eq_none fun f hf => Nat.ne_of_lt (Nat.lt_of_lt_of_le (hearlier f hf) hp)).symm
  obtain ⟨l, hl⟩ := runs_relog hg hclosed hfs hsame he (fun _ _ => trivial) hq h
  have hproper : State.Proper g s (g.enough s) { position := q, furthest := q } :=
    ⟨.nil s g.size q, hq, Nat.le_refl q, hq.le_size, Nat.le_add_right _ _⟩
  exact hconsumes q _ hq (hproper.parser_eq hg he hl)

end Grammar

/-! ## In a parse -/

/-- There is one way to repeat an expression from a state on. -/
theorem Expr.Repeated.unique {env : Setting α Id} {e : Expr α Id} {st : State Id}
    {rounds rounds' : List (Nat × List (Match Id))} (h : e.Repeated env st rounds)
    (h' : e.Repeated env st rounds') : rounds = rounds' := by
  induction h generalizing rounds' with
  | done hlast =>
    cases h' with
    | done _ => rfl
    | more heq _ => exact absurd (congrArg Prod.fst heq) hlast
  | more heq _ ih =>
    cases h' with
    | done hlast => exact absurd (congrArg Prod.fst heq) hlast
    | more heq' hrest =>
      rw [heq] at heq'
      cases heq'
      rw [ih hrest]

section parse

variable {g : Grammar α Id} {s : Source α} {r d q b : Nat} {tag : Id} {op x e : Expr α Id}
  {fs : List (Frame Id)} {st : State Id} {rounds : List (Effect Id)} {total : Effect Id}

/-- Rounds that are derivable are rounds of the parser. -/
theorem Repeats.repeated (hg : g.isPlain = true) (he : e.isPlain = true)
    (h : Repeats (Runs s (g.Derives Invokes s d fs) (.expr e)) q rounds total)
    (hst : st.Proper g s b) (hposition : st.position = q) (hframes : st.frames = fs) :
    e.Repeated (g.setting s b) st (rounds.map Effect.round) := by
  induction h generalizing st with
  | done hlast =>
    subst hposition hframes
    have heq := hst.parser_eq hg he hlast
    exact .done (by rw [heq]; exact nofun)
  | @more q a total rounds hround _ _ ih =>
    subst hposition hframes
    have heq := hst.parser_eq hg he hround
    have ha := hround.conforms (Grammar.regular (invokes_lawful s) d hst.stack) (Nat.le_refl _)
      hst.boundary
    have hrest := Expr.Repeated.more heq (ih (hst.on ha.toWithin) rfl rfl)
    have hround : ((a.on st).position, (a.on st).forest.drop st.forest.length) = a.round :=
      Prod.ext rfl List.drop_left
    rwa [hround] at hrest

namespace Grammar

/-- How the operand, the rule and the iteration come out in a proper state with no rule being parsed
at the cursor. -/
theorem LeftRecursive.outcome (hr : g.LeftRecursive r tag op x) (hg : g.isPlain = true)
    (hconsumes : g.Consumes s (op.andThen x)) (hst : st.Proper g s b)
    (hidle : ∀ f ∈ st.frames, f.position ≠ st.position) :
    (∃ (ax : Effect Id) (l : List Event), x.parser (g.setting s b) st = (.mismatch, ax.on st) ∧
      (Expr.rule r).parser (g.setting s b) st = (.mismatch, (ax.logged l).on st) ∧
      (Expr.iteration op x).parser (g.setting s b) st = (.mismatch, ax.on st)) ∨
    (∃ (ax : Effect Id) (rounds : List (Effect Id)) (total : Effect Id) (l : List Event),
      x.parser (g.setting s b) st = (.ok, ax.on st) ∧
      (op.andThen x).Repeated (g.setting s b) (ax.on st) (rounds.map Effect.round) ∧
      (Expr.rule r).parser (g.setting s b) st =
        (.ok, ((Effect.folded tag st.position ax rounds total).logged l).on st) ∧
      (Expr.iteration op x).parser (g.setting s b) st = (.ok, (ax.andThen total).on st)) := by
  have hplain : (Expr.iteration op x).isPlain = true := Expr.isPlain_andThen hr.x_plain hr.plain
  have hearlier : ∀ f ∈ st.frames, f.position < st.position := fun f hf =>
    Nat.lt_of_le_of_ne (hst.stack.position_le f hf) (hidle f hf)
  have hnone : Frame.answer? st.frames r st.position = none := Frame.answer?_eq_none hidle
  -- a depth in which everything has a run
  let d := g.size * (s.size + 1)
  have hregular := regular (g := g) (invokes_lawful s) (d + 1) hst.stack
  obtain ⟨v, ax, hx⟩ := exists_runs (t := .expr x) (d := d + 1) (invokes_lawful s) hg hr.x_plain
    hst.stack (by omega) hst.boundary
  have hconf := hx.conforms hregular (Nat.le_refl _) hst.boundary
  have hquiet : ∀ i q, st.position ≤ q → ¬ Frame.Signals st.frames i q := by
    intro i q hq hsignal
    have hanswer : Frame.answer? st.frames i q = none :=
      Frame.answer?_eq_none fun f hf => Nat.ne_of_lt (Nat.lt_of_lt_of_le (hearlier f hf) hq)
    rw [Frame.Signals, hanswer] at hsignal
    cases hsignal
  rcases hconf.matches_or_not (fun i => hquiet i _ (Nat.le_refl _)) with rfl | rfl
  · right
    have hrunnable := Task.runnable_of_isPlain hregular
      (runnable (invokes_lawful s) hg (d + 1) hst.stack hst.boundary.le_size (by omega))
      (.expr (op.andThen x)) hr.plain
    obtain ⟨rounds, total, hrounds⟩ := Repeats.exists_of_runnable hregular hrunnable hquiet
      (fun p a hp hbp hrun => hconsumes.lt_stop hg hr.plain (hst.stack.raise hp)
        (fun f hf => Nat.lt_of_lt_of_le (hearlier f hf) hp) hbp hrun) hconf.le_stop hconf.boundary
    obtain ⟨l, hl⟩ := hr.derives_ok hg hst.stack hst.boundary hnone hx hrounds
    exact ⟨ax, rounds, total, l, hst.parser_eq hg hr.x_plain hx,
      hrounds.repeated hg hr.plain (hst.on hconf.toWithin) rfl rfl,
      hst.parser_eq hg rfl (.rule hl),
      hst.parser_eq hg hplain (iteration_ok hst.stack hst.boundary hx hrounds)⟩
  · left
    obtain ⟨l, hl⟩ := hr.derives_mismatch hg hst.stack hst.boundary hnone hx
    exact ⟨ax, l, hst.parser_eq hg hr.x_plain hx, hst.parser_eq hg rfl (.rule hl),
      hst.parser_eq hg hplain (iteration_mismatch hst.stack hst.boundary hx)⟩

/-- A left-recursive rule folds iteration to the left. Nothing is asked of the operator and the
operand but that they do not lead back to the rule and that together they get further; they may be
recursive, tagged or recovering themselves. -/
theorem left_recursion_folds (g : Grammar α Id) (s : Source α) (start : Expr α Id) (r : Nat)
    (tag : Id) (op x : Expr α Id) (hg : g.isPlain = true) (hstart : start.isPlain = true)
    (hr : g.LeftRecursive r tag op x) (hconsumes : g.Consumes s (op.andThen x)) :
    g.FoldsLeft s start r tag op x where
  same := by
    intro b st hst hidle
    rcases hr.outcome hg hconsumes (hst.proper hg hstart) hidle with
      ⟨ax, l, -, hrule, hiteration⟩ | ⟨ax, rounds, total, l, -, -, hrule, hiteration⟩
    · exact ⟨.mismatch, _, _, Or.inr rfl, hrule, hiteration, rfl, rfl, rfl⟩
    · exact ⟨.ok, _, _, Or.inl rfl, hrule, hiteration, rfl, rfl, rfl⟩
  repeated := by
    intro b st st₀ hst hidle hx
    rcases hr.outcome hg hconsumes (hst.proper hg hstart) hidle with
      ⟨ax, l, hx', -, -⟩ | ⟨ax, rounds, total, l, hx', hrounds, -, -⟩
    · rw [hx] at hx'
      cases hx'
    · rw [hx] at hx'
      cases hx'
      exact ⟨_, hrounds⟩
  nested := by
    intro b st st₀ rounds hst hidle hx hrounds
    rcases hr.outcome hg hconsumes (hst.proper hg hstart) hidle with
      ⟨ax, l, hx', -, -⟩ | ⟨ax, rounds', total, l, hx', hrounds', hrule, -⟩
    · rw [hx] at hx'
      cases hx'
    · rw [hx] at hx'
      cases hx'
      have hseed : (ax.on st).forest.drop st.forest.length = ax.forest := List.drop_left
      refine ⟨_, hrule, ?_⟩
      rw [hrounds.unique hrounds', hseed]
      rfl

end Grammar

end parse

namespace Grammar

/-- A `sum` is built from plus signs and `term`s, and a `term` refers to `term`s only. -/
theorem sums_leftRecursive : sums.LeftRecursive 0 0 (.element '+') (.rule 1) where
  body_eq := rfl
  op_plain := rfl
  x_plain := rfl
  op_apart := by
    rintro ⟨i, hi, -⟩
    cases hi
  x_apart := by
    rintro ⟨i, hi, hleads⟩
    have hterm : ∀ j, Relation.ReflTransGen sums.Refers 1 j → j = 1 := by
      intro j h
      induction h with
      | refl => rfl
      | tail _ hstep ih =>
        subst ih
        obtain ⟨e, hbody, hj⟩ := hstep
        cases hbody
        exact List.mem_singleton.1 hj
    rw [List.mem_singleton.1 hi] at hleads
    cases hterm 0 hleads

/-- Two plus signs make two matches, the first inside the second. -/
theorem left_recursion_folds_sums :
    let s : Source Char := .ofList "1+(2)+3".toList
    sums.isPlain = true ∧ (Expr.rule 0 : Expr Char Nat).isPlain = true ∧
      sums.LeftRecursive 0 0 (.element '+') (.rule 1) ∧
      sums.Consumes s ((Expr.element '+').andThen (.rule 1)) ∧
      sums.FoldsLeft s (.rule 0) 0 0 (.element '+') (.rule 1) ∧
      ∃ (b : Nat) (st st₀ st₁ : State Nat) (rounds : List (Nat × List (Match Nat))),
        sums.Context s (.rule 0) b st ∧
        (Expr.rule 1).parser (sums.setting s b) st = (.ok, st₀) ∧
        ((Expr.element '+').andThen (.rule 1)).Repeated (sums.setting s b) st₀ rounds ∧
        (Expr.rule 0).parser (sums.setting s b) st = (.ok, st₁) ∧
        st₁.forest = Match.nestLeft 0 0 st₀.forest rounds ∧
        st₁.forest = [⟨0, ⟨0, 7⟩, [⟨0, ⟨0, 5⟩, [⟨1, ⟨2, 5⟩, []⟩]⟩]⟩] := by
  intro s
  let rep : Expr Char Nat := (Expr.element '+').andThen (.rule 1)
  let result (e : Expr Char Nat) (b q : Nat) :=
    e.parser (sums.setting s b) { position := q, furthest := q }
  have hrep : ∀ q ≤ s.size, (result rep (sums.enough s) q).1 = .ok →
      q < (result rep (sums.enough s) q).2.position := by decide +kernel
  have hconsumes : sums.Consumes s rep := by
    intro q st' hq heq
    have hlt := hrep q hq.le_size (congrArg Prod.fst heq)
    rwa [show result rep (sums.enough s) q = (.ok, st') from heq] at hlt
  have hfolds := left_recursion_folds sums s (.rule 0) 0 0 (.element '+') (.rule 1) (by decide) rfl
    sums_leftRecursive hconsumes
  let st : State Nat := State.initial.note (.started 2 7)
  have hst : sums.Context s (.rule 0) (sums.enough s) st := .made .refl
  have hrun : ((Expr.rule 1).parser (sums.setting s (sums.enough s)) st).1 = .ok ∧
      ((Expr.rule 0).parser (sums.setting s (sums.enough s)) st).2.forest =
        [⟨0, ⟨0, 7⟩, [⟨0, ⟨0, 5⟩, [⟨1, ⟨2, 5⟩, []⟩]⟩]⟩] := by decide +kernel
  -- from here on the bound is some number, so that nothing is evaluated again
  generalize sums.enough s = b at hst hrun
  obtain ⟨st₀, hx⟩ : ∃ st₀, (Expr.rule 1).parser (sums.setting s b) st = (.ok, st₀) :=
    ⟨_, Prod.ext hrun.1 rfl⟩
  obtain ⟨rounds, hrounds⟩ := hfolds.repeated hst nofun hx
  obtain ⟨st₁, hrule, hforest⟩ := hfolds.nested hst nofun hx hrounds
  rw [hrule] at hrun
  exact ⟨by decide, rfl, sums_leftRecursive, hconsumes, hfolds, b, st, st₀, st₁, rounds, hst, hx,
    hrounds, hrule, hforest, hrun.2⟩

end Grammar

end Peg
