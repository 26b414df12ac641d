import Mathlib.Order.Bounds.Defs
import Peg.Proofs.Failure
import Peg.Proofs.Oblivious

/-!
# Skipping stops at the first place where the token matches

`Expr.skipBefore` and `Expr.skipPast` try a token at one element after the other, in the state that
the trials before have left. The token may be any plain expression. It may record matches and
errors, recover, and refer to rules that are being parsed, and a signal of left recursion ends the
loop without going back. What comes out can be told without the loop
(`Grammar.skipping_stops_at_first`): skipping fails if and only if the token signals at the very
beginning, and otherwise it ends at the first element at which the token matches, if it is tried
there in the state with which skipping began, or else at the end of the source. Nothing is recorded.

Two facts make the trials independent of each other. A trial that does not match leaves nothing
behind but the furthest position, which nothing depends on (`Peg.Proofs.Oblivious`). And a frame can
be asked for only where it was made, so a token that does not signal at the beginning does not
signal later on.
-/

namespace Peg

variable {α Id : Type}

/-! ## Where skipping ends -/

/-- How skipping from a position comes out, given how the token comes out where it is tried: with
the signal that is raised at the beginning, at the first element at which the token matches, or at
the end of the source. -/
inductive Skipped (s : Source α) (tried : Nat → Verdict → Effect Id → Prop) (past : Bool)
    (pos : Nat) : Verdict → Nat → Prop
  | signal {r : Nat} {a : Effect Id} :
      pos < s.size → tried pos (.leftRecursion r) a →
      Skipped s tried past pos (.leftRecursion r) pos
  | found {q : Nat} {a : Effect Id} :
      s.Boundary q → pos ≤ q → q < s.size → tried q .ok a →
      (∀ p, s.Boundary p → pos ≤ p → p < q → ∃ b, tried p .mismatch b) →
      Skipped s tried past pos .ok (if past then a.stop else q)
  | missing :
      (∀ p, s.Boundary p → pos ≤ p → p < s.size → ∃ b, tried p .mismatch b) →
      Skipped s tried past pos .ok s.size

section runs

variable {s : Source α} {L : Nat → Nat → Prop} {floor : Nat}
  {C : Nat → Nat → Verdict → Effect Id → Prop} {tried : Nat → Verdict → Effect Id → Prop}
  {past : Bool} {pos stop : Nat} {v : Verdict} {a : Effect Id} {e : Expr α Id}

/-- A place where the token does not match may be put in front, if no signal is raised behind it. -/
theorem Skipped.afterMismatch (h : Skipped s tried past (s.walk pos 1) v stop)
    (hsignal : ∀ r a, ¬ tried (s.walk pos 1) (.leftRecursion r) a) (hpos : s.Boundary pos)
    (hmismatch : tried pos .mismatch a) : Skipped s tried past pos v stop := by
  have hall : ∀ {limit : Nat}, (∀ p, s.Boundary p → s.walk pos 1 ≤ p → p < limit →
      ∃ b, tried p .mismatch b) → ∀ p, s.Boundary p → pos ≤ p → p < limit →
      ∃ b, tried p .mismatch b := by
    intro limit hbehind p hp hle hlt
    rcases Nat.lt_or_eq_of_le hle with hfurther | rfl
    · exact hbehind p hp (hpos.walk_one_le hp hfurther) hlt
    · exact ⟨a, hmismatch⟩
  cases h with
  | signal _ hraised => exact absurd hraised (hsignal _ _)
  | found hq hle hlt hok hbefore =>
    exact .found hq (Nat.le_trans (s.le_walk pos 1) hle) hlt hok (hall hbefore)
  | missing hnone => exact .missing (hall hnone)

/-- Whether skipping fails is decided by the first trial. -/
theorem Skipped.start (h : Skipped s tried past pos v stop) (hpos : s.Boundary pos)
    (hlt : pos < s.size) :
    ∃ w c, tried pos w c ∧ (v ≠ .ok ↔ ∃ r, w = .leftRecursion r) := by
  cases h with
  | signal _ hraised => exact ⟨_, _, hraised, fun _ => ⟨_, rfl⟩, fun _ => nofun⟩
  | found _ hle _ hok hbefore =>
    rcases Nat.lt_or_eq_of_le hle with hfurther | rfl
    · obtain ⟨c, hmismatch⟩ := hbefore pos hpos (Nat.le_refl _) hfurther
      exact ⟨_, c, hmismatch, by simp⟩
    · exact ⟨_, _, hok, by simp⟩
  | missing hnone =>
    obtain ⟨c, hmismatch⟩ := hnone pos hpos (Nat.le_refl _) hlt
    exact ⟨_, c, hmismatch, by simp⟩

/-- A failure is the signal raised at the beginning. -/
theorem Skipped.of_failure (h : Skipped s tried past pos v stop) (hv : v ≠ .ok) :
    stop = pos ∧ ∃ a, tried pos v a := by
  cases h with
  | signal _ hraised => exact ⟨rfl, _, hraised⟩
  | found | missing => exact absurd rfl hv

/-- If there is a first place where the token matches, skipping ends before or after it. Here
`syncs` says where the token matches. -/
theorem Skipped.of_isLeast {syncs : Set Nat} {q : Nat}
    (h : Skipped s tried past pos .ok stop)
    (hmatch : ∀ {p a}, s.Boundary p → pos ≤ p → p < s.size → tried p .ok a → p ∈ syncs)
    (hmismatch : ∀ {p a}, p ∈ syncs → ¬ tried p .mismatch a)
    (hmem : ∀ {p}, p ∈ syncs → s.Boundary p ∧ pos ≤ p ∧ p < s.size) (hq : IsLeast syncs q) :
    ∃ a, tried q .ok a ∧ stop = if past then a.stop else q := by
  obtain ⟨hsync, hfirst⟩ := hq
  obtain ⟨hboundary, hle, hlt⟩ := hmem hsync
  cases h with
  | @found q' a hq' hle' hlt' hok hbefore =>
    rcases Nat.lt_or_eq_of_le (hfirst (hmatch hq' hle' hlt' hok)) with hless | rfl
    · obtain ⟨c, hnot⟩ := hbefore q hboundary hle hless
      exact absurd hnot (hmismatch hsync)
    · exact ⟨a, hok, rfl⟩
  | missing hnone =>
    obtain ⟨c, hnot⟩ := hnone q hboundary hle hlt
    exact absurd hnot (hmismatch hsync)

/-- If there is no such place, skipping ends at the end of the source. -/
theorem Skipped.of_forall_not (h : Skipped s tried past pos .ok stop)
    (hnot : ∀ {p a}, s.Boundary p → pos ≤ p → p < s.size → ¬ tried p .ok a) : stop = s.size := by
  cases h with
  | found hq hle hlt hok _ => exact absurd hok (hnot hq hle hlt)
  | missing => rfl

/-- A run of skipping ends where the token first matches, and records nothing. -/
theorem Runs.skipped (hC : Regular s L floor C) (h : Runs s C (.skip past e) pos v a)
    (hfloor : floor ≤ pos) (hpos : s.Boundary pos) :
    Skipped s (fun q w c => Runs s C (.expr e) q w c) past pos v a.stop ∧
      a.forest = [] ∧ a.errors = [] := by
  generalize ht : Task.skip past e = t at h
  induction h with
  | skipAtEnd hend =>
    cases ht
    have hstop : (Effect.jump _ : Effect Id).stop = s.size := Nat.le_antisymm hpos.le_size hend
    rw [hstop]
    refine ⟨.missing fun p _ hle hlt => ?_, rfl, rfl⟩
    omega
  | skipFound hlt hrun _ =>
    cases ht
    exact ⟨.found hpos (Nat.le_refl _) hlt hrun fun p _ hle hp => by omega, rfl, rfl⟩
  | @skipNext pos past e v a b hlt hrun hrest _ ih =>
    cases ht
    have hconf := hrun.conforms hC hfloor hpos
    have hsilent := hconf.silent rfl rfl
    have hnext := hpos.lt_walk_one hlt
    rw [hsilent.stop_eq] at hrest ih
    obtain ⟨hskipped, hforest, herrors⟩ := ih (by omega) (hpos.walk 1) rfl
    refine ⟨hskipped.afterMismatch (fun r c hraised => ?_) hpos hrun, ?_, ?_⟩
    · -- no rule was entered behind the beginning, so none can be asked for
      have hearly := hC.early r _ ((hraised.conforms hC (by omega) (hpos.walk 1)).signal r rfl)
      omega
    · rw [Effect.andThen, hsilent.forest_eq, hforest]
      rfl
    · rw [Effect.andThen, hsilent.errors_eq, herrors]
      rfl
  | skipSignal hlt hrun _ =>
    cases ht
    have hsilent := (hrun.conforms hC hfloor hpos).silent rfl rfl
    rw [hsilent.stop_eq]
    exact ⟨.signal hlt hrun, hsilent.forest_eq, hsilent.errors_eq⟩
  | _ => cases ht

end runs

/-! ## Trials -/

/-- The same state with the cursor and the furthest position elsewhere. -/
def State.moved (q m : Nat) (st : State Id) : State Id := { st with position := q, furthest := m }

/-- A place where parsing may go on after skipping from a state: an element at which the token
matches, if it is tried there in this state with some furthest position. -/
structure Expr.SyncsAt (g : Grammar α Id) (s : Source α) (b : Nat) (token : Expr α Id)
    (st : State Id) (mark : Nat → Nat) (q : Nat) : Prop where
  boundary : s.Boundary q
  le : st.position ≤ q
  lt_size : q < s.size
  ok : (token.parser (g.setting s b) (st.moved q (mark q))).1 = .ok

section trials

variable {g : Grammar α Id} {s : Source α} {b q : Nat} {st : State Id} {v : Verdict} {a : Effect Id}
  {token : Expr α Id} {d : Nat}

/-- The cursor may be moved forward to a boundary. -/
theorem State.Proper.moved (h : st.Proper g s b) (hq : s.Boundary q) (hle : st.position ≤ q) :
    (st.moved q (max st.furthest q)).Proper g s b where
  stack := h.stack.raise hle
  boundary := hq
  le_furthest := Nat.le_max_right _ _
  furthest_le := Nat.max_le.2 ⟨h.furthest_le, hq.le_size⟩
  room := h.room

/-- What is derivable at a boundary is what the token comes out with if it is tried there, with any
furthest position. -/
theorem State.Proper.tried (h : st.Proper g s b) (hg : g.isPlain = true)
    (htoken : token.isPlain = true) (hq : s.Boundary q) (hle : st.position ≤ q)
    (hrun : Runs s (g.Derives Invokes s d st.frames) (.expr token) q v a) (m : Nat) :
    ∃ st', token.parser (g.setting s b) (st.moved q m) = (v, st') ∧ st'.position = a.stop := by
  have heq := (h.moved hq hle).parser_eq hg htoken hrun
  obtain ⟨m', hmarked⟩ := Grammar.setting_oblivious hg s b htoken (st.moved q (max st.furthest q)) m
  rw [heq] at hmarked
  exact ⟨_, hmarked, rfl⟩

/-- What is derivable at the cursor is what the token comes out with there. -/
theorem State.Proper.tried_self (h : st.Proper g s b) (hg : g.isPlain = true)
    (htoken : token.isPlain = true)
    (hrun : Runs s (g.Derives Invokes s d st.frames) (.expr token) st.position v a) :
    (token.parser (g.setting s b) st).1 = v := by
  obtain ⟨st', heq, -⟩ := h.tried hg htoken h.boundary (Nat.le_refl _) hrun st.furthest
  exact congrArg Prod.fst heq

/-- Parsing may go on at an element where a match of the token is derivable. -/
theorem State.Proper.syncsAt (h : st.Proper g s b) (hg : g.isPlain = true)
    (htoken : token.isPlain = true) (hq : s.Boundary q) (hle : st.position ≤ q) (hlt : q < s.size)
    (hrun : Runs s (g.Derives Invokes s d st.frames) (.expr token) q .ok a) (mark : Nat → Nat) :
    token.SyncsAt g s b st mark q := by
  obtain ⟨st', heq, -⟩ := h.tried hg htoken hq hle hrun (mark q)
  exact ⟨hq, hle, hlt, congrArg Prod.fst heq⟩

/-- Parsing may not go on where a mismatch of the token is derivable. -/
theorem State.Proper.not_syncsAt (h : st.Proper g s b) (hg : g.isPlain = true)
    (htoken : token.isPlain = true)
    (hrun : Runs s (g.Derives Invokes s d st.frames) (.expr token) q .mismatch a)
    (mark : Nat → Nat) : ¬ token.SyncsAt g s b st mark q := by
  intro hsync
  obtain ⟨st', heq, -⟩ := h.tried hg htoken hsync.boundary hsync.le hrun (mark q)
  have hok := hsync.ok
  rw [heq] at hok
  cases hok

end trials

/-! ## Skipping in a parse -/

/-- Skipping up to a token, or past it. -/
def Expr.skip (past : Bool) (token : Expr α Id) : Expr α Id :=
  if past then .skipPast token else .skipBefore token

/-- Skipping up to a token and past it are one parser, up to a flag. -/
theorem Expr.parser_skip (env : Setting α Id) (past : Bool) (token : Expr α Id) :
    (Expr.skip past token).parser env =
      Parser.skip env.source past (token.parser env) env.bound := by
  cases past <;> rfl

/-- What skipping does in a state, told by what the token does there and at later elements. -/
structure Expr.Skips (g : Grammar α Id) (s : Source α) (b : Nat) (past : Bool) (token : Expr α Id)
    (st : State Id) : Prop where
  /-- Skipping fails if and only if there is an element at which the token signals left recursion
  at once. -/
  fails_iff : ((Expr.skip past token).parser (g.setting s b) st).1 ≠ .ok ↔
    st.position < s.size ∧ ∃ r, (token.parser (g.setting s b) st).1 = .leftRecursion r
  /-- If it fails, it does so with the signal of the token, and the cursor is where it was. -/
  failure : ∀ {v : Verdict} {st' : State Id},
    (Expr.skip past token).parser (g.setting s b) st = (v, st') → v ≠ .ok →
    v = (token.parser (g.setting s b) st).1 ∧ st'.position = st.position
  /-- If it does not, it ends before or after the first place at which the token matches. -/
  first : ∀ {st' : State Id}, (Expr.skip past token).parser (g.setting s b) st = (.ok, st') →
    ∀ (mark : Nat → Nat) (q : Nat), IsLeast {q | token.SyncsAt g s b st mark q} q →
    st'.position =
      if past then (token.parser (g.setting s b) (st.moved q (mark q))).2.position else q
  /-- If there is no such place, it ends at the end of the source. -/
  missing : ∀ {st' : State Id}, (Expr.skip past token).parser (g.setting s b) st = (.ok, st') →
    ∀ mark : Nat → Nat, (∀ q, ¬ token.SyncsAt g s b st mark q) → st'.position = s.size
  /-- In any case the records and the frames are what they were. -/
  records : ∀ {v : Verdict} {st' : State Id},
    (Expr.skip past token).parser (g.setting s b) st = (v, st') →
    st'.forest = st.forest ∧ st'.errors = st.errors ∧ st'.frames = st.frames

namespace Grammar

/-- Skipping in a state that arises in a parse, by any token. -/
theorem skipping_stops_at_first (g : Grammar α Id) (s : Source α) (start token : Expr α Id)
    (hg : g.isPlain = true) (hstart : start.isPlain = true) (htoken : token.isPlain = true)
    {b : Nat} {st : State Id} (hst : g.Context s start b st) (past : Bool) :
    Expr.Skips g s b past token st := by
  have hproper := hst.proper hg hstart
  obtain ⟨v, a, hrun, -, hdone⟩ := exists_done (t := .skip past token) (invokes_lawful s)
    (invokes_realizedBy s) hg htoken hproper.stack hproper.boundary
  have heq : (Expr.skip past token).parser (g.setting s b) st = (v, a.on st) := by
    rw [setting_eq_settingBy, Expr.parser_skip]
    exact hdone b hproper.room b hproper.after_lt_bound st hproper.at_self
  obtain ⟨hskipped, hforest, herrors⟩ := hrun.skipped (regular (invokes_lawful s) _ hproper.stack)
    (Nat.le_refl _) hproper.boundary
  generalize hstop : a.stop = stop at hskipped
  constructor
  case fails_iff =>
    rw [heq]
    by_cases hlt : st.position < s.size
    · obtain ⟨w, c, htried, hiff⟩ := hskipped.start hproper.boundary hlt
      rw [hproper.tried_self hg htoken htried]
      simpa only [hlt, true_and] using hiff
    · cases hskipped with
      | signal hbefore _ => exact absurd hbefore hlt
      | found | missing => simp [hlt]
  case failure =>
    intro w st' hfail hne
    cases heq.symm.trans hfail
    obtain ⟨rfl, c, hraised⟩ := hskipped.of_failure hne
    exact ⟨(hproper.tried_self hg htoken hraised).symm, hstop⟩
  case first =>
    intro st' hok mark q hleast
    cases heq.symm.trans hok
    obtain ⟨hq, hle, -, -⟩ := hleast.1
    obtain ⟨c, hmatch, rfl⟩ := hskipped.of_isLeast
      (fun hp hle hlt hrun => hproper.syncsAt hg htoken hp hle hlt hrun mark)
      (fun hsync hrun => hproper.not_syncsAt hg htoken hrun mark hsync)
      (fun hsync => ⟨hsync.boundary, hsync.le, hsync.lt_size⟩) hleast
    obtain ⟨st', htoken', hend⟩ := hproper.tried hg htoken hq hle hmatch (mark q)
    rw [htoken', hend]
    exact hstop
  case missing =>
    intro st' hok mark hnone
    cases heq.symm.trans hok
    refine hstop.trans (hskipped.of_forall_not fun hp hle hlt hrun => ?_)
    exact hnone _ (hproper.syncsAt hg htoken hp hle hlt hrun mark)
  case records =>
    intro w st' hrun
    cases heq.symm.trans hrun
    simp only [Effect.on, hforest, herrors, List.append_nil, and_self]

/-- The pair in the middle of the text is the first place where the token matches: skipping ends
before or after it, and the match that the tag records is dropped. -/
theorem skipping_stops_at_first_entangled :
    let token : Expr Char Nat := .tag (.sequence [.element 'x', .element 'z']) 5
    let start : Expr Char Nat := .skipPast token
    entangled.isPlain = true ∧ start.isPlain = true ∧ token.isPlain = true ∧
      ∃ (b : Nat) (st st₁ st₂ : State Nat), entangled.Context .entangled start b st ∧
        Expr.Skips entangled .entangled b false token st ∧
        Expr.Skips entangled .entangled b true token st ∧
        st.position = 0 ∧ st.forest = [] ∧
        (Expr.skip false token).parser (entangled.setting .entangled b) st = (.ok, st₁) ∧
        st₁.position = 1 ∧ st₁.forest = [] ∧
        (Expr.skip true token).parser (entangled.setting .entangled b) st = (.ok, st₂) ∧
        st₂.position = 3 ∧ st₂.forest = [] := by
  intro token start
  have htoken : token.isPlain = true := by decide
  have hstart : start.isPlain = true := htoken
  let st : State Nat := State.initial.note (.started 2 4)
  let result (past : Bool) (b : Nat) : Verdict × State Nat :=
    (Expr.skip past token).parser (entangled.setting .entangled b) st
  have hbefore : (result false (entangled.enough .entangled)).1 = .ok ∧
      (result false (entangled.enough .entangled)).2.position = 1 ∧
      (result false (entangled.enough .entangled)).2.forest = [] := by decide +kernel
  have hpast : (result true (entangled.enough .entangled)).1 = .ok ∧
      (result true (entangled.enough .entangled)).2.position = 3 ∧
      (result true (entangled.enough .entangled)).2.forest = [] := by decide +kernel
  have hst : entangled.Context .entangled start (entangled.enough .entangled) st := .made .refl
  -- from here on the bound is some number, so that nothing is evaluated again
  generalize entangled.enough .entangled = b at hbefore hpast hst
  have hskips (past : Bool) :=
    skipping_stops_at_first entangled .entangled start token (by decide) hstart htoken hst past
  obtain ⟨hok, hstop, hforest⟩ := hbefore
  obtain ⟨hok', hstop', hforest'⟩ := hpast
  have heq : result false b = (.ok, (result false b).2) := by rw [← hok]
  have heq' : result true b = (.ok, (result true b).2) := by rw [← hok']
  exact ⟨by decide, hstart, htoken, b, st, (result false b).2, (result true b).2, hst,
    hskips false, hskips true, rfl, rfl, heq, hstop, hforest, heq', hstop', hforest'⟩

end Grammar

end Peg
