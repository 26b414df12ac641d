import Mathlib.Data.List.Forall2
import Mathlib.Order.Hom.Basic
import Peg.Proofs.Growth

/-!
# Translations of parses

The engine knows elements only through tests, positions only through their order and the walk over
elements, tags not at all, and rules by being equal or not. So a parse can be read as a parse of
something else: at other positions, with other tags, with the rules numbered differently.

A `Translation` says how to read each of these, and a `Renaming` is the part of it by which the
records are read. If a source lies in another one accordingly (`Translation.Embeds`), expressions
are translated (`Expr.Translates`), and the rules that are used have translated definitions and
answer alike at the stacks of frames of the two parses (`Translation.Agrees`), then whatever a run
of one does, the translated run does the translated thing: `Runs.translate` for tasks,
`Grammar.derives_translate` for rules. Only the log is left out, since it speaks of rules by name.

The rules that are used are those of a set that is closed under reference. Frames of other rules may
be on one stack and not on the other, and so may frames at positions that are left behind. If
nothing is read differently, what is left to say is that such frames change the log at most
(`Grammar.runs_relog`).
-/

namespace Peg

variable {α β Id Id' : Type}

/-- A way to read the records of a parse as those of another one. -/
structure Renaming (Id Id' : Type) where
  /-- Where a position of the first source lies in the second. -/
  position : Nat →o Nat
  /-- The tag that stands for a tag. -/
  tag : Id → Id'
  /-- The rule that stands for a rule. -/
  rule : Nat ↪ Nat

/-- A way to read a parse as another one. -/
structure Translation (α β Id Id' : Type) extends Renaming Id Id' where
  /-- The element that an element of the second source is read as. -/
  element : β → α

/-! ## Reading data -/

namespace Renaming

variable (ρ : Renaming Id Id')

/-- The stretch that stands for a stretch. -/
def span (s : Span) : Span := ⟨ρ.position s.start, ρ.position s.stop⟩

/-- The syntax error that stands for a syntax error. -/
def error (e : SyntaxError Id) : SyntaxError Id' :=
  ⟨ρ.tag e.id, ρ.position e.position, ρ.span e.skipped, ρ.position.mono e.ordered⟩

mutual

/-- The match that stands for a match, read at every depth. -/
def tree : Match Id → Match Id'
  | ⟨id, span, children⟩ => ⟨ρ.tag id, ρ.span span, trees children⟩

/-- The forest that stands for a forest. -/
def trees : List (Match Id) → List (Match Id')
  | [] => []
  | m :: rest => tree m :: trees rest

end

/-- The verdict that stands for a verdict. -/
def verdict : Verdict → Verdict
  | .leftRecursion q => .leftRecursion (ρ.rule q)
  | v => v

/-- The answer that stands for an answer. -/
def mode : Mode Id → Mode Id'
  | .fresh => .fresh
  | .seeding => .seeding
  | .growing stop forest errors =>
    .growing (ρ.position stop) (ρ.trees forest) (errors.map ρ.error)

/-- Reading positions differently, and nothing else. -/
def along (φ : Nat →o Nat) : Renaming Id Id where
  position := φ
  tag id := id
  rule := .refl Nat

/-- Two forests are read one after the other. -/
theorem trees_append (a b : List (Match Id)) : ρ.trees (a ++ b) = ρ.trees a ++ ρ.trees b := by
  induction a with
  | nil => rfl
  | cons m rest ih => simp only [List.cons_append, trees, ih]

/-- An error is read as the error that is recorded at the places read. -/
theorem error_record (id : Id) (p : Nat) (skipped : Span) :
    ρ.error (.record id p skipped) = .record (ρ.tag id) (ρ.position p) (ρ.span skipped) := by
  have hmax : ρ.position (max skipped.start skipped.stop) =
      max (ρ.position skipped.start) (ρ.position skipped.stop) := ρ.position.mono.map_max
  simp only [SyntaxError.record, error, span, Span.clamped, hmax]

section verdict

variable {v : Verdict}

/-- Tolerating a mismatch means the same however verdicts are read. -/
@[simp] theorem verdict_tolerated (v : Verdict) :
    ρ.verdict v.tolerated = (ρ.verdict v).tolerated := by
  cases v <;> rfl

/-- Turning an answer around means the same however verdicts are read. -/
@[simp] theorem verdict_negated (v : Verdict) : ρ.verdict v.negated = (ρ.verdict v).negated := by
  cases v <;> rfl

/-- Only a match is read as a match. -/
@[simp] theorem verdict_eq_ok_iff : ρ.verdict v = .ok ↔ v = .ok := by
  cases v <;> simp [verdict]

/-- Only a mismatch is read as a mismatch. -/
@[simp] theorem verdict_eq_mismatch_iff : ρ.verdict v = .mismatch ↔ v = .mismatch := by
  cases v <;> simp [verdict]

/-- Only the signal of a rule is read as the signal of the rule that stands for it. -/
@[simp] theorem verdict_eq_signal_iff {i : Nat} :
    ρ.verdict v = .leftRecursion (ρ.rule i) ↔ v = .leftRecursion i := by
  cases v <;> simp [verdict]

/-- Only failures are read as failures. -/
@[simp] theorem isFailure_verdict : (ρ.verdict v).isFailure = v.isFailure := by
  cases v <;> rfl

/-- Reading positions differently does not change a verdict. -/
@[simp] theorem verdict_along (φ : Nat →o Nat) (v : Verdict) :
    (along φ : Renaming Id Id).verdict v = v := by
  cases v <;> rfl

end verdict

end Renaming

/-! ## Reading effects -/

/-- An effect that is another one, read by a renaming; the log is left out. -/
structure Effect.Renamed (ρ : Renaming Id Id') (a : Effect Id) (a' : Effect Id') :
    Prop where
  stop_eq : a'.stop = ρ.position a.stop
  reach_eq : a'.reach = ρ.position a.reach
  forest_eq : a'.forest = ρ.trees a.forest
  errors_eq : a'.errors = a.errors.map ρ.error

namespace Effect.Renamed

variable {ρ : Renaming Id Id'} {a b : Effect Id} {a' b' : Effect Id'} {pos : Nat}

/-- Staying or moving is read as moving to the place that stands for the stop. -/
theorem jump (p : Nat) :
    (Effect.jump p : Effect Id).Renamed ρ (.jump (ρ.position p) : Effect Id') :=
  ⟨rfl, rfl, rfl, rfl⟩

/-- Two effects in a row are read one after the other. -/
theorem andThen (ha : a.Renamed ρ a') (hb : b.Renamed ρ b') :
    (a.andThen b).Renamed ρ (a'.andThen b') where
  stop_eq := hb.stop_eq
  reach_eq := by
    simp only [Effect.andThen]
    rw [ha.reach_eq, hb.reach_eq, ρ.position.mono.map_max]
  forest_eq := by
    simp only [Effect.andThen]
    rw [ha.forest_eq, hb.forest_eq, ρ.trees_append]
  errors_eq := by
    simp only [Effect.andThen]
    rw [ha.errors_eq, hb.errors_eq, List.map_append]

/-- Undoing an effect is read as undoing it. -/
theorem undo (ha : a.Renamed ρ a') (p : Nat) :
    (a.undo p).Renamed ρ (a'.undo (ρ.position p)) :=
  ⟨rfl, ha.reach_eq, rfl, rfl⟩

/-- Taking a failure back is read as taking it back. -/
theorem settle (ha : a.Renamed ρ a') (v : Verdict) (p : Nat) :
    (a.settle v p).Renamed ρ (a'.settle (ρ.verdict v) (ρ.position p)) := by
  unfold Effect.settle
  rw [ρ.isFailure_verdict]
  split
  · exact ha.undo p
  · exact ha

/-- Messages are left out. -/
theorem note (ha : a.Renamed ρ a') (e e' : Event) : (a.note e).Renamed ρ (a'.note e') :=
  ⟨ha.stop_eq, ha.reach_eq, ha.forest_eq, ha.errors_eq⟩

/-- Putting matches under a node is read as putting them under the node that stands for it. -/
theorem wrap (ha : a.Renamed ρ a') (id : Id) (p : Nat) :
    (a.wrap id p).Renamed ρ (a'.wrap (ρ.tag id) (ρ.position p)) where
  stop_eq := ha.stop_eq
  reach_eq := ha.reach_eq
  forest_eq := by
    simp only [Effect.wrap, Renaming.trees, Renaming.tree, Renaming.span]
    rw [ha.stop_eq, ha.forest_eq]
  errors_eq := ha.errors_eq

/-- Reporting an error is read as reporting the error that stands for it. -/
theorem report (ha : a.Renamed ρ a') (e : SyntaxError Id) :
    (a.report e).Renamed ρ (a'.report (ρ.error e)) where
  stop_eq := ha.stop_eq
  reach_eq := ha.reach_eq
  forest_eq := ha.forest_eq
  errors_eq := by
    simp only [Effect.report]
    rw [ha.errors_eq, List.map_append]
    rfl

/-- Taking a result over is read as taking it over. -/
theorem again (ha : a.Renamed ρ a') : a.again.Renamed ρ a'.again :=
  ⟨ha.stop_eq, ha.stop_eq, ha.forest_eq, ha.errors_eq⟩

/-- What a result answers with is read as the answer of the result that stands for it. -/
theorem mode_eq (ha : a.Renamed ρ a') : a'.mode = ρ.mode a.mode := by
  simp only [Effect.mode, Renaming.mode]
  rw [ha.stop_eq, ha.forest_eq, ha.errors_eq]

/-- One more round of growth is read as one more round. -/
theorem retried {name name' : String} (k : Nat) (ha : a.Renamed ρ a')
    (hb : b.Renamed ρ b') :
    (Effect.retried name pos k a b).Renamed ρ
      (Effect.retried name' (ρ.position pos) k a' b') :=
  ((ha.note _ _).undo pos).andThen hb

/-- An invocation is read as an invocation, whatever the names and verdicts in the log. -/
theorem framed {name name' : String} (ha : a.Renamed ρ a') (v v' : Verdict) :
    (a.framed name pos v).Renamed ρ (a'.framed name' (ρ.position pos) v') :=
  (((Effect.Renamed.jump pos).note _ _).andThen ha).note _ _

end Effect.Renamed

/-! ## Reading sources and expressions -/

/-- Reading positions differently, and nothing else. -/
def Translation.along (φ : Nat →o Nat) : Translation α α Id Id where
  toRenaming := .along φ
  element a := a

/-- A source lies in another one: the same elements follow each other from the position that stands
for its beginning, up to the end of both. -/
structure Translation.Embeds (τ : Translation α β Id Id') (s : Source α) (s' : Source β) :
    Prop where
  lt_of_lt : ∀ {p q : Nat}, s.Boundary p → s.Boundary q → p < q → τ.position p < τ.position q
  size_eq : τ.position s.size = s'.size
  some_element : ∀ {p w : Nat} {a : α}, s.Boundary p → s.elementAt p = some (a, w) →
    ∃ b w', s'.elementAt (τ.position p) = some (b, w') ∧ τ.element b = a ∧
      τ.position p + w' = τ.position (p + w)
  no_element : ∀ {p : Nat}, s.Boundary p → s.elementAt p = none →
    s'.elementAt (τ.position p) = none

/-- An expression that is another one, read by a translation. Both are plain, and refer to rules of
the given set. -/
inductive Expr.Translates (τ : Translation α β Id Id') (P : Nat → Prop) :
    Expr α Id → Expr β Id' → Prop
  | satisfy (test : α → Bool) : Translates τ P (.satisfy test) (.satisfy (test ∘ τ.element))
  | literal (tests : List (α → Bool)) :
      Translates τ P (.literal tests) (.literal (tests.map (· ∘ τ.element)))
  | endOfInput : Translates τ P .endOfInput .endOfInput
  | rule {i : Nat} : P i → Translates τ P (.rule i) (.rule (τ.rule i))
  | sequence {es : List (Expr α Id)} {es' : List (Expr β Id')} :
      List.Forall₂ (Translates τ P) es es' → Translates τ P (.sequence es) (.sequence es')
  | choice {es : List (Expr α Id)} {es' : List (Expr β Id')} :
      List.Forall₂ (Translates τ P) es es' → Translates τ P (.choice es) (.choice es')
  | group {e : Expr α Id} {e' : Expr β Id'} :
      Translates τ P e e' → Translates τ P (.group e) (.group e')
  | star {e : Expr α Id} {e' : Expr β Id'} :
      Translates τ P e e' → Translates τ P (.star e) (.star e')
  | plus {e : Expr α Id} {e' : Expr β Id'} :
      Translates τ P e e' → Translates τ P (.plus e) (.plus e')
  | optional {e : Expr α Id} {e' : Expr β Id'} :
      Translates τ P e e' → Translates τ P (.optional e) (.optional e')
  | ahead {e : Expr α Id} {e' : Expr β Id'} :
      Translates τ P e e' → Translates τ P (.ahead e) (.ahead e')
  | notAhead {e : Expr α Id} {e' : Expr β Id'} :
      Translates τ P e e' → Translates τ P (.notAhead e) (.notAhead e')
  | times {e : Expr α Id} {e' : Expr β Id'} (n : Nat) :
      Translates τ P e e' → Translates τ P (.times e n) (.times e' n)
  | tag {e : Expr α Id} {e' : Expr β Id'} (id : Id) :
      Translates τ P e e' → Translates τ P (.tag e id) (.tag e' (τ.tag id))
  | recover {e f : Expr α Id} {e' f' : Expr β Id'} (id : Id) :
      Translates τ P e e' → Translates τ P f f' →
      Translates τ P (.recover e id f) (.recover e' (τ.tag id) f')
  | skipBefore {e : Expr α Id} {e' : Expr β Id'} :
      Translates τ P e e' → Translates τ P (.skipBefore e) (.skipBefore e')
  | skipPast {e : Expr α Id} {e' : Expr β Id'} :
      Translates τ P e e' → Translates τ P (.skipPast e) (.skipPast e')

/-- Copies are translated copy by copy. -/
theorem Expr.Translates.replicate {τ : Translation α β Id Id'} {P : Nat → Prop} {e : Expr α Id}
    {e' : Expr β Id'} (he : e.Translates τ P e') (n : Nat) :
    List.Forall₂ (Expr.Translates τ P) (List.replicate n e) (List.replicate n e') := by
  induction n with
  | zero => exact .nil
  | succ n ih => exact .cons he ih

/-- A task that is another one, read by a translation. -/
inductive Task.Translates (τ : Translation α β Id Id') (P : Nat → Prop) :
    Task α Id → Task β Id' → Prop
  | expr {e : Expr α Id} {e' : Expr β Id'} :
      e.Translates τ P e' → Translates τ P (.expr e) (.expr e')
  | items {es : List (Expr α Id)} {es' : List (Expr β Id')} :
      List.Forall₂ (Expr.Translates τ P) es es' → Translates τ P (.items es) (.items es')
  | loop {e : Expr α Id} {e' : Expr β Id'} :
      e.Translates τ P e' → Translates τ P (.loop e) (.loop e')
  | skip {e : Expr α Id} {e' : Expr β Id'} (past : Bool) :
      e.Translates τ P e' → Translates τ P (.skip past e) (.skip past e')

namespace Translation.Embeds

variable {τ : Translation α β Id Id'} {s : Source α} {s' : Source β} {pos : Nat}

/-- Different boundaries lie in different places. -/
theorem eq_iff (hτ : τ.Embeds s s') {p q : Nat} (hp : s.Boundary p) (hq : s.Boundary q) :
    τ.position p = τ.position q ↔ p = q := by
  constructor
  · intro h
    rcases Nat.lt_trichotomy p q with hlt | heq | hlt
    · exact absurd h (Nat.ne_of_lt (hτ.lt_of_lt hp hq hlt))
    · exact heq
    · exact absurd h (Nat.ne_of_gt (hτ.lt_of_lt hq hp hlt))
  · exact congrArg τ.position

/-- The ends of the two sources are in the same place. -/
theorem size_le_iff (hτ : τ.Embeds s s') (hpos : s.Boundary pos) :
    s'.size ≤ τ.position pos ↔ s.size ≤ pos := by
  rw [← hτ.size_eq]
  constructor
  · intro h
    refine Nat.le_of_not_lt fun hlt => ?_
    have := hτ.lt_of_lt hpos s.boundary_size hlt
    omega
  · exact fun h => τ.position.mono h

/-- What is before the end of one source is before the end of the other. -/
theorem lt_size_iff (hτ : τ.Embeds s s') (hpos : s.Boundary pos) :
    τ.position pos < s'.size ↔ pos < s.size := by
  rw [← Nat.not_le, ← Nat.not_le, hτ.size_le_iff hpos]

/-- Walking over elements leads to the same places. -/
theorem walk_eq (hτ : τ.Embeds s s') (hpos : s.Boundary pos) (n : Nat) :
    s'.walk (τ.position pos) n = τ.position (s.walk pos n) := by
  induction n generalizing pos with
  | zero => rfl
  | succ n ih =>
    cases hat : s.elementAt pos with
    | none => simp only [Source.walk, hat, hτ.no_element hpos hat]
    | some x =>
      obtain ⟨b, w', hb, -, hnext⟩ := hτ.some_element hpos hat
      simp only [Source.walk, hat, hb, hnext]
      exact ih (hpos.add_width hat)

/-- Elements pass the translated tests as the elements they are read as pass the tests. -/
theorem passes_eq (hτ : τ.Embeds s s') (hpos : s.Boundary pos) (tests : List (α → Bool)) :
    s'.passes (τ.position pos) (tests.map (· ∘ τ.element)) = s.passes pos tests := by
  induction tests generalizing pos with
  | nil => rfl
  | cons test tests ih =>
    cases hat : s.elementAt pos with
    | none => simp only [List.map_cons, Source.passes, hat, hτ.no_element hpos hat]
    | some x =>
      obtain ⟨a, w⟩ := x
      obtain ⟨b, w', hb, rfl, hnext⟩ := hτ.some_element hpos hat
      simp only [List.map_cons, Source.passes, hat, hb, hnext, ih (hpos.add_width hat)]
      rfl

/-- The element at a boundary passes a translated test if the one it is read as passes the test.
-/
theorem any_elementAt_eq (hτ : τ.Embeds s s') (hpos : s.Boundary pos) (test : α → Bool) :
    (s'.elementAt (τ.position pos)).any (fun x => (test ∘ τ.element) x.1) =
      (s.elementAt pos).any fun x => test x.1 := by
  cases hat : s.elementAt pos with
  | none => rw [hτ.no_element hpos hat]; rfl
  | some x =>
    obtain ⟨a, w⟩ := x
    obtain ⟨b, w', hb, rfl, -⟩ := hτ.some_element hpos hat
    rw [hb]
    rfl

/-- Expressions that look at the source come out alike. -/
theorem reads (hτ : τ.Embeds s s') {P : Nat → Prop} (hpos : s.Boundary pos) {e : Expr α Id}
    {e' : Expr β Id'} (he : e.Translates τ P e') {r : Option Nat} (h : Reads s pos e r) :
    Reads s' (τ.position pos) e' (r.map τ.position) := by
  cases h with
  | satisfy test =>
    cases he
    have hread : Reads s' (τ.position pos) (.satisfy (test ∘ τ.element) : Expr β Id') _ :=
      .satisfy _
    rw [hτ.any_elementAt_eq hpos, hτ.walk_eq hpos] at hread
    rwa [apply_ite (Option.map τ.position), Option.map_some, Option.map_none]
  | literal tests =>
    cases he
    have hread : Reads s' (τ.position pos)
        (.literal (tests.map (· ∘ τ.element)) : Expr β Id') _ := .literal _
    rw [hτ.passes_eq hpos, hτ.walk_eq hpos, List.length_map] at hread
    rwa [apply_ite (Option.map τ.position), Option.map_some, Option.map_none]
  | endOfInput =>
    cases he
    have hread : Reads s' (τ.position pos) (.endOfInput : Expr β Id') _ := .endOfInput
    simp only [hτ.size_le_iff hpos] at hread
    rwa [apply_ite (Option.map τ.position), Option.map_some, Option.map_none]

end Translation.Embeds

/-! ## Reading runs -/

section runs

variable {τ : Translation α β Id Id'} {s : Source α} {s' : Source β} {P : Nat → Prop}
  {L : Nat → Nat → Prop} {floor : Nat} {C : Nat → Nat → Verdict → Effect Id → Prop}
  {C' : Nat → Nat → Verdict → Effect Id' → Prop}

/-- If the rules of the set do what they should when they are read by a translation, then so do all
tasks that refer to no other rules. -/
theorem Runs.translate (hτ : τ.Embeds s s') (hC : Regular s L floor C)
    (hcall : ∀ i p v a, P i → floor ≤ p → s.Boundary p → C i p v a →
      ∃ a', C' (τ.rule i) (τ.position p) (τ.verdict v) a' ∧ a.Renamed τ.toRenaming a')
    {t : Task α Id} {t' : Task β Id'} (ht : t.Translates τ P t') {pos : Nat} {v : Verdict}
    {a : Effect Id} (h : Runs s C t pos v a) (hfloor : floor ≤ pos) (hpos : s.Boundary pos) :
    ∃ a', Runs s' C' t' (τ.position pos) (τ.verdict v) a' ∧ a.Renamed τ.toRenaming a' := by
  induction h generalizing t' with
  | reads hr =>
    cases ht with | expr he =>
    exact ⟨_, .reads (hτ.reads hpos he hr), .jump _⟩
  | misses hr =>
    cases ht with | expr he =>
    exact ⟨_, .misses (hτ.reads hpos he hr), .jump _⟩
  | rule h =>
    cases ht with | expr hexpr =>
    cases hexpr with | rule hi =>
    obtain ⟨a', ha', htr⟩ := hcall _ _ _ _ hi hfloor hpos h
    exact ⟨a', .rule ha', htr⟩
  | sequence _ ih =>
    cases ht with | expr hexpr =>
    cases hexpr with | sequence hes =>
    obtain ⟨a', ha', htr⟩ := ih (.items hes) hfloor hpos
    exact ⟨_, .sequence ha', htr.settle _ _⟩
  | choiceNil =>
    cases ht with | expr hchoice =>
    cases hchoice with | choice hnil =>
    cases hnil
    exact ⟨_, .choiceNil, .jump _⟩
  | choiceNext _ _ ih₁ ih₂ =>
    cases ht with | expr hchoice =>
    cases hchoice with | choice hall =>
    cases hall with | cons he hes =>
    obtain ⟨a', ha', htr⟩ := ih₁ (.expr he) hfloor hpos
    obtain ⟨b', hb', htr'⟩ := ih₂ (.expr (.choice hes)) hfloor hpos
    exact ⟨_, .choiceNext ha' hb', (htr.undo _).andThen htr'⟩
  | choiceDone _ hv ih =>
    cases ht with | expr hchoice =>
    cases hchoice with | choice hall =>
    cases hall with | cons he hes =>
    obtain ⟨a', ha', htr⟩ := ih (.expr he) hfloor hpos
    exact ⟨_, .choiceDone ha' (mt τ.verdict_eq_mismatch_iff.1 hv), htr.settle _ _⟩
  | group _ ih =>
    cases ht with | expr hexpr =>
    cases hexpr with | group he =>
    obtain ⟨a', ha', htr⟩ := ih (.expr he) hfloor hpos
    exact ⟨_, .group ha', htr⟩
  | star _ ih =>
    cases ht with | expr hexpr =>
    cases hexpr with | star he =>
    obtain ⟨a', ha', htr⟩ := ih (.loop he) hfloor hpos
    exact ⟨_, .star ha', htr.settle _ _⟩
  | plusOnce _ hstay ih =>
    cases ht with | expr hexpr =>
    cases hexpr with | plus he =>
    obtain ⟨a', ha', htr⟩ := ih (.expr he) hfloor hpos
    refine ⟨_, .plusOnce ha' fun hok => ?_, htr.settle _ _⟩
    rw [htr.stop_eq, hstay (τ.verdict_eq_ok_iff.1 hok)]
  | plusMore h₁ hmoved _ ih₁ ih₂ =>
    cases ht with | expr hexpr =>
    cases hexpr with | plus he =>
    have ha := h₁.conforms hC hfloor hpos
    obtain ⟨a', ha', htr⟩ := ih₁ (.expr he) hfloor hpos
    obtain ⟨b', hb', htr'⟩ := ih₂ (.loop he) (Nat.le_trans hfloor ha.le_stop) ha.boundary
    have hmoved' : a'.stop ≠ τ.position _ := htr.stop_eq ▸ mt (hτ.eq_iff ha.boundary hpos).1 hmoved
    rw [← htr.stop_eq] at hb'
    exact ⟨_, .plusMore ha' hmoved' hb', (htr.andThen htr').settle _ _⟩
  | optional _ ih =>
    cases ht with | expr hexpr =>
    cases hexpr with | optional he =>
    obtain ⟨a', ha', htr⟩ := ih (.expr he) hfloor hpos
    rw [τ.verdict_tolerated]
    exact ⟨_, .optional ha', htr.settle _ _⟩
  | ahead _ ih =>
    cases ht with | expr hexpr =>
    cases hexpr with | ahead he =>
    obtain ⟨a', ha', htr⟩ := ih (.expr he) hfloor hpos
    exact ⟨_, .ahead ha', htr.undo _⟩
  | notAhead _ ih =>
    cases ht with | expr hexpr =>
    cases hexpr with | notAhead he =>
    obtain ⟨a', ha', htr⟩ := ih (.expr he) hfloor hpos
    rw [τ.verdict_negated]
    exact ⟨_, .notAhead ha', htr.undo _⟩
  | @times pos n e v a _ ih =>
    cases ht with | expr hexpr =>
    cases hexpr with | times _ he =>
    obtain ⟨a', ha', htr⟩ := ih (.items (he.replicate n)) hfloor hpos
    exact ⟨_, .times ha', htr.settle _ _⟩
  | tagOk _ ih =>
    cases ht with | expr hexpr =>
    cases hexpr with | tag _ he =>
    obtain ⟨a', ha', htr⟩ := ih (.expr he) hfloor hpos
    exact ⟨_, .tagOk ha', htr.wrap _ _⟩
  | tagFail _ hv ih =>
    cases ht with | expr hexpr =>
    cases hexpr with | tag _ he =>
    obtain ⟨a', ha', htr⟩ := ih (.expr he) hfloor hpos
    exact ⟨_, .tagFail ha' (mt τ.verdict_eq_ok_iff.1 hv), htr.settle _ _⟩
  | recoverAtEnd hend _ ih =>
    cases ht with | expr hexpr =>
    cases hexpr with | recover _ he hf =>
    obtain ⟨a', ha', htr⟩ := ih (.expr he) hfloor hpos
    exact ⟨_, .recoverAtEnd ((hτ.size_le_iff hpos).2 hend) ha', htr⟩
  | recoverPass hlt _ hv ih =>
    cases ht with | expr hexpr =>
    cases hexpr with | recover _ he hf =>
    obtain ⟨a', ha', htr⟩ := ih (.expr he) hfloor hpos
    exact ⟨_, .recoverPass ((hτ.lt_size_iff hpos).2 hlt) ha' (mt τ.verdict_eq_mismatch_iff.1 hv),
      htr⟩
  | @recoverOk pos e f id a b hlt _ _ ih₁ ih₂ =>
    cases ht with | expr hexpr =>
    cases hexpr with | recover _ he hf =>
    obtain ⟨a', ha', htr⟩ := ih₁ (.expr he) hfloor hpos
    obtain ⟨b', hb', htr'⟩ := ih₂ (.expr hf) hfloor hpos
    have herror : SyntaxError.record (τ.tag id) a'.reach ⟨τ.position pos, b'.stop⟩ =
        τ.error (.record id a.reach ⟨pos, b.stop⟩) := by
      rw [τ.error_record, htr.reach_eq, htr'.stop_eq]
      rfl
    refine ⟨_, .recoverOk ((hτ.lt_size_iff hpos).2 hlt) ha' hb', ?_⟩
    rw [herror]
    exact (((htr.undo _).andThen htr').note _ _).report _
  | recoverFail hlt _ _ hv ih₁ ih₂ =>
    cases ht with | expr hexpr =>
    cases hexpr with | recover _ he hf =>
    obtain ⟨a', ha', htr⟩ := ih₁ (.expr he) hfloor hpos
    obtain ⟨b', hb', htr'⟩ := ih₂ (.expr hf) hfloor hpos
    exact ⟨_, .recoverFail ((hτ.lt_size_iff hpos).2 hlt) ha' hb' (mt τ.verdict_eq_ok_iff.1 hv),
      ((htr.undo _).andThen htr').settle _ _⟩
  | skipBefore _ ih =>
    cases ht with | expr hexpr =>
    cases hexpr with | skipBefore he =>
    obtain ⟨a', ha', htr⟩ := ih (.skip false he) hfloor hpos
    exact ⟨_, .skipBefore ha', htr⟩
  | skipPast _ ih =>
    cases ht with | expr hexpr =>
    cases hexpr with | skipPast he =>
    obtain ⟨a', ha', htr⟩ := ih (.skip true he) hfloor hpos
    exact ⟨_, .skipPast ha', htr⟩
  | itemsNil =>
    cases ht with | items hnil =>
    cases hnil
    exact ⟨_, .itemsNil, .jump _⟩
  | itemsCons h₁ _ ih₁ ih₂ =>
    cases ht with | items hall =>
    cases hall with | cons he hes =>
    have ha := h₁.conforms hC hfloor hpos
    obtain ⟨a', ha', htr⟩ := ih₁ (.expr he) hfloor hpos
    obtain ⟨b', hb', htr'⟩ := ih₂ (.items hes) (Nat.le_trans hfloor ha.le_stop) ha.boundary
    rw [← htr.stop_eq] at hb'
    exact ⟨_, .itemsCons ha' hb', htr.andThen htr'⟩
  | itemsFail _ hv ih =>
    cases ht with | items hall =>
    cases hall with | cons he hes =>
    obtain ⟨a', ha', htr⟩ := ih (.expr he) hfloor hpos
    exact ⟨_, .itemsFail ha' (mt τ.verdict_eq_ok_iff.1 hv), htr⟩
  | loopEnd _ ih =>
    cases ht with | loop he =>
    obtain ⟨a', ha', htr⟩ := ih (.expr he) hfloor hpos
    exact ⟨_, .loopEnd ha', htr.undo _⟩
  | loopStay _ hstay ih =>
    cases ht with | loop he =>
    obtain ⟨a', ha', htr⟩ := ih (.expr he) hfloor hpos
    exact ⟨_, .loopStay ha' (by rw [htr.stop_eq, hstay]), htr⟩
  | loopMore h₁ hmoved _ ih₁ ih₂ =>
    cases ht with | loop he =>
    have ha := h₁.conforms hC hfloor hpos
    obtain ⟨a', ha', htr⟩ := ih₁ (.expr he) hfloor hpos
    obtain ⟨b', hb', htr'⟩ := ih₂ (.loop he) (Nat.le_trans hfloor ha.le_stop) ha.boundary
    have hmoved' : a'.stop ≠ τ.position _ := htr.stop_eq ▸ mt (hτ.eq_iff ha.boundary hpos).1 hmoved
    rw [← htr.stop_eq] at hb'
    exact ⟨_, .loopMore ha' hmoved' hb', htr.andThen htr'⟩
  | loopSignal _ ih =>
    cases ht with | loop he =>
    obtain ⟨a', ha', htr⟩ := ih (.expr he) hfloor hpos
    exact ⟨_, .loopSignal ha', htr⟩
  | skipAtEnd hend =>
    cases ht with | skip _ he =>
    exact ⟨_, .skipAtEnd ((hτ.size_le_iff hpos).2 hend), .jump _⟩
  | @skipFound pos past e a hlt _ ih =>
    cases ht with | skip _ he =>
    obtain ⟨a', ha', htr⟩ := ih (.expr he) hfloor hpos
    refine ⟨_, .skipFound ((hτ.lt_size_iff hpos).2 hlt) ha', ?_⟩
    cases past with
    | false => exact htr.undo pos
    | true =>
      simp only [if_true, htr.stop_eq]
      exact htr.undo a.stop
  | skipNext hlt h₁ _ ih₁ ih₂ =>
    cases ht with | skip _ he =>
    have hstop := ((h₁.conforms hC hfloor hpos).silent rfl rfl).stop_eq
    rw [hstop] at ih₂
    obtain ⟨a', ha', htr⟩ := ih₁ (.expr he) hfloor hpos
    obtain ⟨b', hb', htr'⟩ := ih₂ (.skip _ he) (Nat.le_trans hfloor (s.le_walk _ 1)) (hpos.walk 1)
    rw [← hτ.walk_eq hpos, ← hstop, ← htr.stop_eq] at hb'
    exact ⟨_, .skipNext ((hτ.lt_size_iff hpos).2 hlt) ha' hb', htr.andThen htr'⟩
  | skipSignal hlt _ ih =>
    cases ht with | skip _ he =>
    obtain ⟨a', ha', htr⟩ := ih (.expr he) hfloor hpos
    exact ⟨_, .skipSignal ((hτ.lt_size_iff hpos).2 hlt) ha', htr⟩

end runs

/-! ## Reading rules -/

/-- A body that does what another one does, read by a translation. -/
def Body.Translates (τ : Translation α β Id Id') (s : Source α) (pos : Nat) (B : Body Id)
    (B' : Body Id') : Prop :=
  ∀ m v a, m.Fits s pos → B m v a →
    ∃ a', B' (τ.mode m) (τ.verdict v) a' ∧ a.Renamed τ.toRenaming a'

/-- Rules of the set answer alike from a position on at two stacks of frames. -/
def Translation.Agrees (τ : Translation α β Id Id') (P : Nat → Prop) (s : Source α) (floor : Nat)
    (fs : List (Frame Id)) (fs' : List (Frame Id')) : Prop :=
  ∀ i p, P i → floor ≤ p → s.Boundary p →
    Frame.answer? fs' (τ.rule i) (τ.position p) = (Frame.answer? fs i p).map τ.mode

section rules

variable {τ : Translation α β Id Id'} {s : Source α} {s' : Source β} {P : Nat → Prop}
  {i pos floor : Nat} {name name' : String} {B : Body Id} {B' : Body Id'} {fs : List (Frame Id)}
  {fs' : List (Frame Id')} {v : Verdict}

/-- Entering a rule on both sides keeps the stacks in agreement. -/
theorem Translation.Agrees.push (hagree : τ.Agrees P s floor fs fs') (hτ : τ.Embeds s s')
    (hfloor : floor ≤ pos) (hpos : s.Boundary pos) (m : Mode Id) :
    τ.Agrees P s pos (⟨i, pos, m⟩ :: fs) (⟨τ.rule i, τ.position pos, τ.mode m⟩ :: fs') := by
  intro j p hj hle hp
  rw [Frame.answer?_cons, Frame.answer?_cons]
  by_cases hrule : i = j
  · subst hrule
    by_cases hplace : pos = p
    · simp [hplace]
    · have hplace' : τ.position pos ≠ τ.position p := mt (hτ.eq_iff hpos hp).1 hplace
      simp [hplace, hplace']
  · simp only [if_neg hrule, if_neg (mt (τ.rule.injective.eq_iff).1 hrule)]
    exact hagree j p hj (Nat.le_trans hfloor hle) hp

/-- The growth of a rule is read as the growth of the rule that stands for it. -/
theorem Growth.translate (hτ : τ.Embeds s s') (hB : B.Lawful s i pos fs)
    (hBB' : B.Translates τ s pos B') (hpos : s.Boundary pos) {k : Nat} {acc b : Effect Id}
    {acc' : Effect Id'} (h : Growth s.size name pos B k acc v b) (hacc : acc.Within s pos)
    (htr : acc.Renamed τ.toRenaming acc') :
    ∃ b', Growth s'.size name' (τ.position pos) B' k acc' (τ.verdict v) b' ∧
      b.Renamed τ.toRenaming b' := by
  induction h generalizing acc' with
  | full hfull =>
    refine ⟨_, .full ?_, (htr.undo pos).andThen htr.again⟩
    rw [htr.stop_eq]
    exact (hτ.size_le_iff hacc.boundary).2 hfull
  | further hlt hbody hmore _ ih =>
    have ha := (hB _ _ _ hacc.mode_fits hbody).toWithin
    obtain ⟨a', hbody', htr'⟩ := hBB' _ _ _ hacc.mode_fits hbody
    obtain ⟨b', hrest, htrb⟩ := ih (hacc.retried _ _ ha hpos) (htr.retried _ htr')
    refine ⟨b', .further ?_ (htr.mode_eq ▸ hbody') ?_ hrest, htrb⟩
    · rw [htr.stop_eq]
      exact (hτ.lt_size_iff hacc.boundary).2 hlt
    · rw [htr.stop_eq, htr'.stop_eq]
      exact hτ.lt_of_lt hacc.boundary ha.boundary hmore
  | settled hlt hbody hdone =>
    obtain ⟨a', hbody', htr'⟩ := hBB' _ _ _ hacc.mode_fits hbody
    refine ⟨_, .settled ?_ (htr.mode_eq ▸ hbody') ?_, ((htr.retried _ htr').undo pos).andThen
      htr.again⟩
    · rw [htr.stop_eq]
      exact (hτ.lt_size_iff hacc.boundary).2 hlt
    · rw [htr.stop_eq, htr'.stop_eq, τ.verdict_eq_mismatch_iff, τ.verdict_eq_ok_iff]
      exact hdone.imp_right fun hstop => ⟨hstop.1, τ.position.mono hstop.2⟩
  | signal hlt hbody =>
    obtain ⟨a', hbody', htr'⟩ := hBB' _ _ _ hacc.mode_fits hbody
    refine ⟨_, .signal ?_ (htr.mode_eq ▸ hbody'), (htr.retried _ htr').undo pos⟩
    rw [htr.stop_eq]
    exact (hτ.lt_size_iff hacc.boundary).2 hlt

/-- An invocation of a rule is read as one of the rule that stands for it. -/
theorem Invokes.translate (name' : String) (hτ : τ.Embeds s s') (hpos : s.Boundary pos)
    {active : Option (Mode Id)}
    (hB : active = none → B.Lawful s i pos fs ∧ B.Translates τ s pos B') {a : Effect Id}
    (h : Invokes s.size i name pos B active v a) :
    ∃ a', Invokes s'.size (τ.rule i) name' (τ.position pos) B' (active.map τ.mode) (τ.verdict v)
      a' ∧ a.Renamed τ.toRenaming a' := by
  cases h with
  | signal hfresh =>
    subst hfresh
    exact ⟨_, .signal rfl, (Effect.Renamed.jump pos).note _ _⟩
  | refuse hseeding =>
    subst hseeding
    exact ⟨_, .refuse rfl, .jump pos⟩
  | replay hgrowing =>
    subst hgrowing
    exact ⟨_, .replay rfl, ⟨rfl, rfl, rfl, rfl⟩⟩
  | once hnone hbody hother =>
    subst hnone
    obtain ⟨a', hbody', htr⟩ := (hB rfl).2 .fresh _ _ trivial hbody
    exact ⟨_, .once rfl hbody' (mt τ.verdict_eq_signal_iff.1 hother), htr.framed _ _⟩
  | barren hnone hfirst hseed hv =>
    subst hnone
    obtain ⟨a', hfirst', htr⟩ := (hB rfl).2 .fresh _ _ trivial hfirst
    obtain ⟨b', hseed', htr'⟩ := (hB rfl).2 .seeding _ _ trivial hseed
    exact ⟨_, .barren rfl hfirst' hseed' (mt τ.verdict_eq_ok_iff.1 hv),
      (htr.andThen htr').framed _ _⟩
  | grown hnone hfirst hseed hgrowth =>
    subst hnone
    obtain ⟨hlawful, hBB'⟩ := hB rfl
    obtain ⟨a', hfirst', htr⟩ := hBB' .fresh _ _ trivial hfirst
    obtain ⟨b', hseed', htr'⟩ := hBB' .seeding _ _ trivial hseed
    obtain ⟨c', hgrowth', htr''⟩ := hgrowth.translate hτ hlawful hBB' hpos
      (hlawful .seeding _ _ trivial hseed).toWithin htr'
    exact ⟨_, .grown rfl hfirst' hseed' hgrowth', (htr.andThen (htr''.note _ _)).framed _ _⟩
  | aborted hnone hfirst hseed hgrowth hv =>
    subst hnone
    obtain ⟨hlawful, hBB'⟩ := hB rfl
    obtain ⟨a', hfirst', htr⟩ := hBB' .fresh _ _ trivial hfirst
    obtain ⟨b', hseed', htr'⟩ := hBB' .seeding _ _ trivial hseed
    obtain ⟨c', hgrowth', htr''⟩ := hgrowth.translate hτ hlawful hBB' hpos
      (hlawful .seeding _ _ trivial hseed).toWithin htr'
    exact ⟨_, .aborted rfl hfirst' hseed' hgrowth' (mt τ.verdict_eq_ok_iff.1 hv),
      (htr.andThen htr'').framed _ _⟩

/-- Rules whose definitions are translated do what they should when they are read by the
translation, in nestings of the same depth. -/
theorem Grammar.derives_translate {g : Grammar α Id} {g' : Grammar β Id'} (hτ : τ.Embeds s s')
    (hbodies : ∀ i, P i → Option.Rel (Expr.Translates τ P) (g.body? i) (g'.body? (τ.rule i)))
    (d : Nat) {p : Nat} (hfs : Stack s g.size floor fs) (hagree : τ.Agrees P s floor fs fs')
    (hi : P i) (hfloor : floor ≤ p) (hp : s.Boundary p) {a : Effect Id}
    (h : g.Derives Invokes s d fs i p v a) :
    ∃ a', g'.Derives Invokes s' d fs' (τ.rule i) (τ.position p) (τ.verdict v) a' ∧
      a.Renamed τ.toRenaming a' := by
  induction d generalizing floor fs fs' i p v a with
  | zero => exact h.elim
  | succ d ih =>
    have hrel := hbodies i hi
    cases hbody : g.body? i with
    | none =>
      simp only [Derives, hbody] at h
      obtain ⟨rfl, rfl⟩ := h
      rw [hbody] at hrel
      generalize hbody' : g'.body? (τ.rule i) = body' at hrel
      cases hrel
      exact ⟨.jump (τ.position p), by simp [Derives, hbody'], .jump p⟩
    | some e =>
      simp only [Derives, hbody] at h
      rw [hbody] at hrel
      generalize hbody' : g'.body? (τ.rule i) = body' at hrel
      cases hrel with | some hee' =>
      simp only [Derives, hbody', hagree i p hi hfloor hp]
      refine h.translate _ hτ hp fun hnone => ⟨body_lawful (invokes_lawful s) d hfs hfloor hp hbody
        hnone, fun m w b hm hrun => ?_⟩
      have hpush := hfs.push hfloor (lt_size_of_body? hbody) hnone hm
      refine hrun.translate hτ (regular (invokes_lawful s) d hpush) ?_ (.expr hee')
        (Nat.le_refl p) hp
      intro j q u c hj hq hbq hderives
      exact ih hpush (hagree.push hτ hfloor hp m) hj hq hbq hderives

/-- A task whose rules have translated definitions does what it should when it is read by the
translation. -/
theorem Grammar.runs_translate {g : Grammar α Id} {g' : Grammar β Id'} (hτ : τ.Embeds s s')
    (hbodies : ∀ i, P i → Option.Rel (Expr.Translates τ P) (g.body? i) (g'.body? (τ.rule i)))
    {d : Nat} (hfs : Stack s g.size pos fs) (hagree : τ.Agrees P s pos fs fs') {t : Task α Id}
    {t' : Task β Id'} (ht : t.Translates τ P t') (hpos : s.Boundary pos) {a : Effect Id}
    (h : Runs s (g.Derives Invokes s d fs) t pos v a) :
    ∃ a', Runs s' (g'.Derives Invokes s' d fs') t' (τ.position pos) (τ.verdict v) a' ∧
      a.Renamed τ.toRenaming a' := by
  refine h.translate hτ (regular (invokes_lawful s) d hfs) ?_ ht (Nat.le_refl pos) hpos
  intro j q u c hj hq hbq hderives
  exact derives_translate hτ hbodies d hfs hagree hj hq hbq hderives

end rules

/-! ## The same grammar at other positions -/

mutual

/-- The rules that an expression refers to. -/
def Expr.references : Expr α Id → List Nat
  | .satisfy _ => []
  | .literal _ => []
  | .endOfInput => []
  | .rule index => [index]
  | .sequence items => Expr.allReferences items
  | .choice items => Expr.allReferences items
  | .group e => e.references
  | .star e => e.references
  | .plus e => e.references
  | .optional e => e.references
  | .ahead e => e.references
  | .notAhead e => e.references
  | .times e _ => e.references
  | .tag e _ => e.references
  | .recover e _ fallback => e.references ++ fallback.references
  | .skipBefore token => token.references
  | .skipPast token => token.references
  | .script body => Action.allReferences body
termination_by structural e => e

/-- The rules that the expressions of a list refer to. -/
def Expr.allReferences : List (Expr α Id) → List Nat
  | [] => []
  | e :: rest => e.references ++ Expr.allReferences rest
termination_by structural items => items

/-- The rules that an action refers to. -/
def Action.references : Action α Id → List Nat
  | .parse e => e.references
  | .attempt body => Action.allReferences body
  | .lookahead body => Action.allReferences body
  | _ => []
termination_by structural action => action

/-- The rules that the actions of a list refer to. -/
def Action.allReferences : List (Action α Id) → List Nat
  | [] => []
  | action :: rest => action.references ++ Action.allReferences rest
termination_by structural body => body

end

/-- A list refers to what its expressions refer to. -/
theorem Expr.references_subset {e : Expr α Id} {items : List (Expr α Id)} (he : e ∈ items) :
    e.references ⊆ Expr.allReferences items := by
  induction items with
  | nil => exact absurd he List.not_mem_nil
  | cons x rest ih =>
    intro i hi
    rcases List.mem_cons.1 he with rfl | hrest
    · exact List.mem_append_left _ hi
    · exact List.mem_append_right _ (ih hrest hi)

/-- A set of rules whose definitions refer to no other rules. -/
def Grammar.Closed (g : Grammar α Id) (P : Nat → Prop) : Prop :=
  ∀ i e, P i → g.body? i = some e → ∀ j ∈ e.references, P j

section along

variable {P : Nat → Prop} (φ : Nat →o Nat)

/-- A plain expression that refers to rules of a set is itself, read at other positions. -/
theorem Expr.translates_self (e : Expr α Id) (he : e.isPlain = true)
    (h : ∀ i ∈ e.references, P i) : e.Translates (.along φ) P e := by
  induction e, he using Expr.plain_induction with
  | satisfy test => exact .satisfy test
  | literal tests =>
    have hself : (Expr.literal tests : Expr α Id).Translates (.along φ) P _ := .literal tests
    have hid : tests.map (· ∘ (.along φ : Translation α α Id Id).element) = tests :=
      List.map_id tests
    rwa [hid] at hself
  | endOfInput => exact .endOfInput
  | rule i => exact .rule (h i List.mem_cons_self)
  | sequence es hes ih =>
    refine .sequence (List.forall₂_same.2 fun x hx => ?_)
    exact ih x hx ((Expr.allPlain_iff es).1 hes x hx) fun i hi => h i (references_subset hx hi)
  | choice es hes ih =>
    refine .choice (List.forall₂_same.2 fun x hx => ?_)
    exact ih x hx ((Expr.allPlain_iff es).1 hes x hx) fun i hi => h i (references_subset hx hi)
  | group e _ ih => exact .group (ih h)
  | star e _ ih => exact .star (ih h)
  | plus e _ ih => exact .plus (ih h)
  | optional e _ ih => exact .optional (ih h)
  | ahead e _ ih => exact .ahead (ih h)
  | notAhead e _ ih => exact .notAhead (ih h)
  | times e n _ ih => exact .times n (ih h)
  | tag e id _ ih => exact .tag id (ih h)
  | recover e id f _ _ _ ihe ihf =>
    exact .recover id (ihe fun i hi => h i (List.mem_append_left _ hi))
      (ihf fun i hi => h i (List.mem_append_right _ hi))
  | skipBefore e _ ih => exact .skipBefore (ih h)
  | skipPast e _ ih => exact .skipPast (ih h)

/-- If only positions are read differently, a definition of a closed set of rules is read as
itself. -/
theorem Grammar.Closed.bodies_translate {g : Grammar α Id} (hP : g.Closed P)
    (hg : g.isPlain = true) (i : Nat) (hi : P i) :
    Option.Rel (Expr.Translates (.along φ) P) (g.body? i)
      (g.body? ((.along φ : Translation α α Id Id).rule i)) := by
  show Option.Rel _ (g.body? i) (g.body? i)
  cases hbody : g.body? i with
  | none => exact .none
  | some e => exact .some (e.translates_self φ (isPlain_body hg hbody) (hP i e hi hbody))

end along

/-! ## The same parse with another log -/

/-- Reading nothing differently. -/
def Renaming.refl : Renaming Id Id := .along OrderHom.id

/-- Reading nothing differently. -/
def Translation.refl : Translation α α Id Id := .along OrderHom.id

namespace Renaming

mutual

/-- A match is read as itself if its positions and tags are. -/
theorem tree_eq_self {ρ : Renaming Id Id} (hposition : ∀ p, ρ.position p = p)
    (htag : ∀ t, ρ.tag t = t) : (m : Match Id) → ρ.tree m = m
  | ⟨id, ⟨start, stop⟩, children⟩ => by
    simp only [tree, span, hposition, htag, trees_eq_self hposition htag children]

/-- A renaming that changes nothing in a match changes no forest. -/
theorem trees_eq_self {ρ : Renaming Id Id} (hposition : ∀ p, ρ.position p = p)
    (htag : ∀ t, ρ.tag t = t) : (forest : List (Match Id)) → ρ.trees forest = forest
  | [] => rfl
  | m :: rest => by
    simp only [trees, tree_eq_self hposition htag m, trees_eq_self hposition htag rest]

end

/-- Reading everything as itself changes no forest. -/
theorem trees_refl (forest : List (Match Id)) : (refl : Renaming Id Id).trees forest = forest :=
  trees_eq_self (fun _ => rfl) (fun _ => rfl) forest

/-- Reading everything as itself changes no errors. -/
theorem errors_refl (errors : List (SyntaxError Id)) :
    errors.map (refl : Renaming Id Id).error = errors := List.map_id errors

/-- Reading everything as itself changes no answer. -/
theorem mode_refl (m : Mode Id) : (refl : Renaming Id Id).mode m = m := by
  cases m with
  | fresh => rfl
  | seeding => rfl
  | growing stop forest errors =>
    simp only [mode, trees_refl, errors_refl]
    rfl

end Renaming

/-- An effect in which nothing is read differently is the same but for its log. -/
theorem Effect.renamed_refl_iff {a a' : Effect Id} :
    a.Renamed .refl a' ↔ a' = a.logged a'.events := by
  constructor
  · rintro ⟨hstop, hreach, hforest, herrors⟩
    rw [Renaming.trees_refl] at hforest
    rw [Renaming.errors_refl] at herrors
    obtain ⟨stop, reach, forest, errors, events⟩ := a'
    cases hstop
    cases hreach
    cases hforest
    cases herrors
    rfl
  · intro h
    rw [h]
    exact ⟨rfl, rfl, (Renaming.trees_refl _).symm, (Renaming.errors_refl _).symm⟩

/-- A source lies in itself. -/
theorem Translation.embeds_refl (s : Source α) : (refl : Translation α α Id Id).Embeds s s where
  lt_of_lt := by
    intro p q _ _ hlt
    exact hlt
  size_eq := rfl
  some_element := by
    intro p w a _ hat
    exact ⟨a, w, hat, rfl, rfl⟩
  no_element := by
    intro p _ hat
    exact hat

section refl

variable {s : Source α} {P : Nat → Prop} {L : Nat → Nat → Prop} {floor pos : Nat}
  {C C' : Nat → Nat → Verdict → Effect Id → Prop} {t : Task α Id} {v : Verdict} {a : Effect Id}

/-- If the rules of a set do the same with another log, then so do all tasks that refer to no other
rules. -/
theorem Runs.relog (hC : Regular s L floor C)
    (hcall : ∀ i p v a, P i → floor ≤ p → s.Boundary p → C i p v a → ∃ l, C' i p v (a.logged l))
    (ht : t.Translates .refl P t) (h : Runs s C t pos v a) (hfloor : floor ≤ pos)
    (hpos : s.Boundary pos) : ∃ l, Runs s C' t pos v (a.logged l) := by
  have hverdict : ∀ w, (Translation.refl : Translation α α Id Id).verdict w = w :=
    Renaming.verdict_along _
  have hcall' : ∀ i p w b, P i → floor ≤ p → s.Boundary p → C i p w b →
      ∃ b', C' i p ((Translation.refl : Translation α α Id Id).verdict w) b' ∧
        b.Renamed .refl b' := by
    intro i p w b hi hp hbp hb
    obtain ⟨l, hl⟩ := hcall i p w b hi hp hbp hb
    rw [hverdict]
    exact ⟨b.logged l, hl, Effect.renamed_refl_iff.2 rfl⟩
  obtain ⟨a', hrun, hrenamed⟩ :=
    h.translate (Translation.embeds_refl s) hC hcall' ht hfloor hpos
  rw [Effect.renamed_refl_iff.1 hrenamed, hverdict] at hrun
  exact ⟨a'.events, hrun⟩

/-- Above other frames that give the rules of a closed set the same answers, an expression that
refers to no other rules does the same with another log. -/
theorem Grammar.runs_relog {g : Grammar α Id} (hg : g.isPlain = true) (hP : g.Closed P) {d : Nat}
    {fs fs' : List (Frame Id)} (hfs : Stack s g.size pos fs)
    (hsame : ∀ i p, P i → pos ≤ p → Frame.answer? fs' i p = Frame.answer? fs i p)
    {e : Expr α Id} (he : e.isPlain = true) (hrefs : ∀ i ∈ e.references, P i)
    (hpos : s.Boundary pos) (h : Runs s (g.Derives Invokes s d fs) (.expr e) pos v a) :
    ∃ l, Runs s (g.Derives Invokes s d fs') (.expr e) pos v (a.logged l) := by
  have hagree : (Translation.refl : Translation α α Id Id).Agrees P s pos fs fs' := by
    intro i p hi hp _
    have hmode : (Translation.refl : Translation α α Id Id).mode = id := funext Renaming.mode_refl
    rw [hmode, Option.map_id]
    exact hsame i p hi hp
  obtain ⟨a', hrun, hrenamed⟩ := runs_translate (Translation.embeds_refl s)
    (hP.bodies_translate _ hg) hfs hagree (.expr (e.translates_self _ he hrefs)) hpos h
  rw [Effect.renamed_refl_iff.1 hrenamed, show Translation.refl.verdict v = v from
    Renaming.verdict_along _ v] at hrun
  exact ⟨a'.events, hrun⟩

end refl

end Peg
