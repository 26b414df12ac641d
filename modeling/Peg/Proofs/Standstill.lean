import Mathlib.Logic.Relation
import Peg.Proofs.Appends
import Peg.Proofs.Skipping
import Peg.Proofs.Translation

/-!
# Skipping makes headway on boundaries only

A round of skipping that does not find the token moves the cursor over one element, and the loop
ends at the end of the source. Both are right where an element starts at the cursor, but a cursor
may be put anywhere, inside an element too. No element starts there, so the cursor cannot be moved
over one, and the end of the source is not reached either.

`skipping_ends_on_boundaries` says what becomes of skipping from any position, for a token that
refers to no rules. On a boundary all rounds get further, and the loop ends. Inside an element every
round leaves the cursor where it is. The token then comes out in every round as it did in the first:
skipping ends if and only if the token matches at once, and otherwise it uses up every bound. A
single character of two bytes is enough for that (`skipping_stuck_in_character`).

What happens inside an element is the same under every bound. `Parser.Rests` is what is shown of all
parsers there.
-/

namespace Peg

variable {α Id : Type}

/-! ## Positions inside an element -/

/-- A row can be cut where one of its elements is laid out. -/
theorem Row.exists_drop?_of_layout {width : α → Nat} (pos : ∀ x, 0 < width x) {row : List α}
    {p : Nat} {a : α} (h : (layout width row)[p]? = some (some a)) :
    ∃ rest, drop? width p row = some rest := by
  induction row generalizing p with
  | nil => cases h
  | cons x row ih =>
    cases p with
    | zero => exact ⟨_, rfl⟩
    | succ p =>
      have hx := pos x
      rw [layout, List.getElem?_cons_succ] at h
      rcases Nat.lt_or_ge p (width x - 1) with hinside | hbehind
      · rw [List.getElem?_append_left (by simpa using hinside),
          List.getElem?_replicate_of_lt hinside] at h
        cases h
      · rw [List.getElem?_append_right (by simpa using hbehind), List.length_replicate] at h
        have hsub : p + 1 - width x = p - (width x - 1) := by omega
        rw [drop?, if_pos (by omega), hsub]
        exact ih h

/-- Elements start on boundaries. -/
theorem Source.boundary_of_elementAt {s : Source α} {p w : Nat} {a : α}
    (h : s.elementAt p = some (a, w)) : s.Boundary p := by
  rw [elementAt_eq] at h
  obtain ⟨b, hcell, -⟩ := Option.map_eq_some_iff.1 h
  exact Row.exists_drop?_of_layout s.width_pos (Option.join_eq_some_iff.1 hcell)

/-- A position before the end of the source that is inside an element. -/
structure Source.Inside (s : Source α) (q : Nat) : Prop where
  lt_size : q < s.size
  elementAt_eq : s.elementAt q = none

/-- A position within a source is a boundary or inside an element. -/
theorem Source.inside_of_not_boundary {s : Source α} {q : Nat} (hle : q ≤ s.size)
    (h : ¬ s.Boundary q) : s.Inside q where
  lt_size := Nat.lt_of_le_of_ne hle fun heq => h (heq ▸ s.boundary_size)
  elementAt_eq := by
    cases hat : s.elementAt q with
    | none => rfl
    | some aw => exact absurd (boundary_of_elementAt hat) h

/-- From inside an element, walking leads nowhere. -/
theorem Source.Inside.walk_eq {s : Source α} {q : Nat} (h : s.Inside q) (n : Nat) :
    s.walk q n = q := by
  cases n with
  | zero => rfl
  | succ n => rw [Source.walk, h.elementAt_eq]

/-! ## Rounds of skipping -/

/-- A round of skipping that does not find the token, and is followed by another one. -/
structure Parser.Misses (s : Source α) (token : Parser Id) (st st' : State Id) : Prop where
  lt_size : st.position < s.size
  missed : ∃ st₁, token st = (.mismatch, st₁) ∧ st' = st₁.advance s 1

/-- Before the end of the source, a state is not at the end. -/
theorem State.atEnd_of_lt {s : Source α} {st : State Id} (h : st.position < s.size) :
    st.atEnd s = false := by
  simp [State.atEnd, State.hasInput, h]

/-- A round that misses the token leads to the rest of the scan. -/
theorem Parser.Misses.skip_succ {s : Source α} {token : Parser Id} {st st' : State Id}
    (h : token.Misses s st st') (past : Bool) (n : Nat) :
    skip s past token (n + 1) st = skip s past token n st' := by
  obtain ⟨st₁, heq, rfl⟩ := h.missed
  simp only [skip, State.atEnd_of_lt h.lt_size, heq]
  rfl

/-- If every round leads to another one, skipping uses up every bound. -/
theorem Parser.skip_exhausted {s : Source α} {token : Parser Id} {I : State Id → Prop}
    (hround : ∀ st, I st → ∃ st', token.Misses s st st' ∧ I st') (past : Bool) (n : Nat)
    {st : State Id} (hst : I st) :
    ∃ st', skip s past token n st = (.exhausted, st') ∧ I st' := by
  induction n generalizing st with
  | zero => exact ⟨st, rfl, hst⟩
  | succ n ih =>
    obtain ⟨st', hmiss, hst'⟩ := hround st hst
    rw [hmiss.skip_succ]
    exact ih hst'

/-! ## Inside an element -/

/-- Parsers, one for each bound, that come back with the same verdict wherever the cursor is at `q`,
and leave it there. -/
def Parser.Idles (q : Nat) (v : Verdict) (P : Nat → Parser Id) : Prop :=
  ∀ b st, 0 < b → st.position = q → ∃ st', P b st = (v, st') ∧ st'.position = q

/-- Parsers that come back with one verdict at `q` and leave the cursor there. They may use up the
bound, but they do not signal and have no fault. -/
def Parser.Rests (q : Nat) (P : Nat → Parser Id) : Prop :=
  ∃ v : Verdict, (v = .ok ∨ v = .mismatch ∨ v = .exhausted) ∧ Parser.Idles q v P

namespace Parser

variable {s : Source α} {q : Nat} {v w : Verdict} {P Q : Nat → Parser Id}

/-- What is known of the results of some parsers may be used for those made from them. -/
theorem Idles.of_eq (h : Idles q v P)
    (hQ : ∀ b st st', 0 < b → st.position = q → P b st = (v, st') → st'.position = q →
      ∃ st'', Q b st = (w, st'') ∧ st''.position = q) : Idles q w Q := by
  intro b st hb hst
  obtain ⟨st', heq, hst'⟩ := h b st hb hst
  exact hQ b st st' hb hst heq hst'

/-- No element of any kind is found inside an element. -/
theorem Idles.satisfy (hq : s.Inside q) (test : α → Bool) :
    Idles q .mismatch fun _ => (satisfy s test : Parser Id) := by
  intro b st _ hst
  refine ⟨st, ?_, hst⟩
  simp only [Parser.satisfy, State.peek, hst, hq.elementAt_eq, Option.map_none]

/-- Taking a failure back to a checkpoint at `q` leaves the cursor at `q`. -/
theorem exists_settle {c : Checkpoint} {st : State Id} (hc : c.position = q)
    (hst : st.position = q) (v : Verdict) :
    ∃ st', settle c (v, st) = (v, st') ∧ st'.position = q := by
  refine ⟨_, rfl, ?_⟩
  split
  · exact hc
  · exact hst

namespace Rests

/-- An attempt rests if its parser does. -/
theorem attempt (h : Rests q P) : Rests q fun b => attempt (P b) := by
  obtain ⟨v, hv, hP⟩ := h
  refine ⟨v, hv, hP.of_eq fun b st st' _ hst heq hst' => ?_⟩
  simp only [Parser.attempt, heq]
  exact exists_settle hst hst' v

/-- A lookahead rests if its parser does. -/
theorem lookahead (h : Rests q P) : Rests q fun b => lookahead (P b) := by
  obtain ⟨v, hv, hP⟩ := h
  refine ⟨v, hv, hP.of_eq fun b st st' _ hst heq hst' => ?_⟩
  refine ⟨_, by simp only [Parser.lookahead, heq, rewind]; rfl, ?_⟩
  split
  · exact hst
  · exact hst'

/-! ### Elements -/

section elements

variable (hq : s.Inside q)

include hq

/-- A test rests, since there is no element to be tested. -/
theorem satisfy (test : α → Bool) : Rests q fun _ => (satisfy s test : Parser Id) :=
  ⟨.mismatch, .inr (.inl rfl), .satisfy hq test⟩

/-- The empty literal matches everywhere, others do not match here. -/
theorem literal (tests : List (α → Bool)) : Rests q fun _ => (literal s tests : Parser Id) := by
  cases tests with
  | nil => exact ⟨.ok, .inl rfl, fun b st _ hst => ⟨_, rfl, hst⟩⟩
  | cons test tests =>
    refine ⟨.mismatch, .inr (.inl rfl), fun b st _ hst => ⟨st, ?_, hst⟩⟩
    simp only [Parser.literal, hst, Source.passes, hq.elementAt_eq]
    rfl

/-- The test for the end rests. -/
theorem endOfInput : Rests q fun _ => (endOfInput s : Parser Id) := by
  refine ⟨.mismatch, .inr (.inl rfl), fun b st _ hst => ⟨st, ?_, hst⟩⟩
  simp only [Parser.endOfInput, State.atEnd_of_lt (hst ▸ hq.lt_size : st.position < s.size)]
  rfl

end elements

/-! ### Combinators -/

/-- A row rests if its parsers do. -/
theorem inOrder {Ps : List (Nat → Parser Id)} (h : ∀ P ∈ Ps, Rests q P) :
    Rests q fun b => inOrder (Ps.map (· b)) := by
  induction Ps with
  | nil => exact ⟨.ok, .inl rfl, fun _ st _ hst => ⟨st, rfl, hst⟩⟩
  | cons P Ps ih =>
    obtain ⟨v, hv, hP⟩ := h P List.mem_cons_self
    obtain ⟨w, hw, hPs⟩ := ih fun P hP => h P (List.mem_cons_of_mem _ hP)
    rcases hv with rfl | hv
    · refine ⟨w, hw, hP.of_eq fun b st st' hb _ heq hst' => ?_⟩
      simp only [List.map_cons, Parser.inOrder, heq]
      exact hPs b st' hb hst'
    · refine ⟨v, .inr hv, hP.of_eq fun b st st' _ _ heq hst' => ⟨st', ?_, hst'⟩⟩
      simp only [List.map_cons, Parser.inOrder, heq]
      rcases hv with rfl | rfl <;> rfl

/-- Alternatives go back to a checkpoint at `q`, so they are all tried there. -/
theorem exists_firstOf {Ps : List (Nat → Parser Id)} (h : ∀ P ∈ Ps, Rests q P) :
    ∃ v : Verdict, (v = .ok ∨ v = .mismatch ∨ v = .exhausted) ∧
      ∀ c : Checkpoint, c.position = q → Idles q v fun b => firstOf c (Ps.map (· b)) := by
  induction Ps with
  | nil => exact ⟨.mismatch, .inr (.inl rfl), fun _ _ _ st _ hst => ⟨st, rfl, hst⟩⟩
  | cons P Ps ih =>
    obtain ⟨v, hv, hP⟩ := h P List.mem_cons_self
    obtain ⟨w, hw, hPs⟩ := ih fun P hP => h P (List.mem_cons_of_mem _ hP)
    rcases hv with rfl | rfl | rfl
    · refine ⟨.ok, .inl rfl, fun c hc => hP.of_eq fun b st st' _ _ heq hst' => ?_⟩
      simp only [List.map_cons, firstOf, heq]
      exact exists_settle hc hst' .ok
    · refine ⟨w, hw, fun c hc => hP.of_eq fun b st st' hb _ heq _ => ?_⟩
      simp only [List.map_cons, firstOf, heq]
      exact hPs c hc b (st'.restore c) hb hc
    · refine ⟨.exhausted, .inr (.inr rfl), fun c hc => hP.of_eq fun b st st' _ _ heq hst' => ?_⟩
      simp only [List.map_cons, firstOf, heq]
      exact exists_settle hc hst' .exhausted

/-- A choice rests if its alternatives do. -/
theorem choice {Ps : List (Nat → Parser Id)} (h : ∀ P ∈ Ps, Rests q P) :
    Rests q fun b => choice (Ps.map (· b)) := by
  obtain ⟨v, hv, hPs⟩ := exists_firstOf h
  exact ⟨v, hv, fun b st hb hst => hPs st.checkpoint hst b st hb hst⟩

/-- An option rests if its parser does. -/
theorem optional (h : Rests q P) : Rests q fun b => optional (P b) := by
  obtain ⟨v, hv, hP⟩ := h.attempt
  rcases hv with rfl | rfl | rfl
  · exact ⟨.ok, .inl rfl, hP.of_eq fun b st st' _ _ heq hst' =>
      ⟨st', by simp only [Parser.optional, heq], hst'⟩⟩
  · exact ⟨.ok, .inl rfl, hP.of_eq fun b st st' _ _ heq hst' =>
      ⟨st', by simp only [Parser.optional, heq], hst'⟩⟩
  · exact ⟨.exhausted, .inr (.inr rfl), hP.of_eq fun b st st' _ _ heq hst' =>
      ⟨st', by simp only [Parser.optional, heq], hst'⟩⟩

/-- A negative lookahead rests if its parser does. -/
theorem notAhead (h : Rests q P) : Rests q fun b => notAhead (P b) := by
  obtain ⟨v, hv, hP⟩ := h.lookahead
  rcases hv with rfl | rfl | rfl
  · exact ⟨.mismatch, .inr (.inl rfl), hP.of_eq fun b st st' _ _ heq hst' =>
      ⟨st', by simp only [Parser.notAhead, heq], hst'⟩⟩
  · exact ⟨.ok, .inl rfl, hP.of_eq fun b st st' _ _ heq hst' =>
      ⟨st', by simp only [Parser.notAhead, heq], hst'⟩⟩
  · exact ⟨.exhausted, .inr (.inr rfl), hP.of_eq fun b st st' _ _ heq hst' =>
      ⟨st', by simp only [Parser.notAhead, heq], hst'⟩⟩

/-- A tag rests if its parser does and appends, so that its node has no more children than there
are. -/
theorem tag (h : Rests q P) (happends : ∀ b, (P b).Appends) (id : Id) :
    Rests q fun b => tag id (P b) := by
  obtain ⟨v, hv, hP⟩ := h.attempt
  refine ⟨v, hv, hP.of_eq fun b st st' _ _ heq hst' => ?_⟩
  rcases hv with rfl | rfl | rfl
  · have hlonger := ((happends b).attempt st).forest.length_le
    rw [heq] at hlonger
    refine ⟨_, by simp only [Parser.tag, heq, if_pos hlonger]; rfl, ?_⟩
    exact hst'
  · exact ⟨st', by simp only [Parser.tag, heq], hst'⟩
  · exact ⟨st', by simp only [Parser.tag, heq], hst'⟩

/-- Copies rest if their parser does. -/
theorem times (h : Rests q P) (n : Nat) : Rests q fun b => times n (P b) := by
  have hiterate : Rests q fun b => Parser.inOrder ((List.replicate n P).map (· b)) :=
    inOrder fun Q hQ => List.eq_of_mem_replicate hQ ▸ h
  simp only [List.map_replicate, ← iterate_eq_inOrder] at hiterate
  exact hiterate.attempt

/-- The first round of a loop is the last one, as it does not get further. -/
theorem star (h : Rests q P) : Rests q fun b => star b (P b) := by
  obtain ⟨v, hv, hP⟩ := h
  rcases hv with rfl | rfl | rfl
  · refine ⟨.ok, .inl rfl, hP.of_eq fun b st st' hb hst heq hst' => ⟨st', ?_, hst'⟩⟩
    obtain ⟨n, rfl⟩ := Nat.exists_eq_add_one.2 hb
    simp only [Parser.star, rounds, heq, if_pos (hst'.trans hst.symm)]
  · refine ⟨.ok, .inl rfl, hP.of_eq fun b st st' hb hst heq _ =>
      ⟨st'.restore st.checkpoint, ?_, hst⟩⟩
    obtain ⟨n, rfl⟩ := Nat.exists_eq_add_one.2 hb
    simp only [Parser.star, rounds, heq]
  · refine ⟨.exhausted, .inr (.inr rfl), hP.of_eq fun b st st' hb _ heq hst' => ⟨st', ?_, hst'⟩⟩
    obtain ⟨n, rfl⟩ := Nat.exists_eq_add_one.2 hb
    simp only [Parser.star, rounds, heq]
    rfl

/-- A loop of at least one run rests if its parser does: after the first run it has not moved. -/
theorem plus (h : Rests q P) : Rests q fun b => plus b (P b) := by
  obtain ⟨v, hv, hP⟩ := h.attempt
  refine ⟨v, hv, hP.of_eq fun b st st' _ hst heq hst' => ⟨st', ?_, hst'⟩⟩
  rcases hv with rfl | rfl | rfl
  · simp only [Parser.plus, heq, if_pos (hst'.trans hst.symm)]
  · simp only [Parser.plus, heq]
  · simp only [Parser.plus, heq]

/-- A recovery rests if its primary and its fallback do. -/
theorem recover (hq : s.Inside q) (h : Rests q P) (hf : Rests q Q) (id : Id) :
    Rests q fun b => recover s id (Q b) (P b) := by
  obtain ⟨v, hv, hP⟩ := h
  obtain ⟨w, hw, hQ⟩ := hf
  have hinput : ∀ {st : State Id}, st.position = q → st.atEnd s = false := fun hst =>
    State.atEnd_of_lt (hst ▸ hq.lt_size)
  rcases hv with rfl | rfl | rfl
  · refine ⟨.ok, .inl rfl, fun b st hb hst => ?_⟩
    obtain ⟨st', heq, hst'⟩ := hP b st.resetFurthest hb hst
    refine ⟨_, by simp only [Parser.recover, hinput hst, heq]; rfl, ?_⟩
    exact hst'
  · refine ⟨w, hw, fun b st hb hst => ?_⟩
    obtain ⟨st', heq, -⟩ := hP b st.resetFurthest hb hst
    obtain ⟨st'', hfallback, hst''⟩ :=
      hQ b ((st'.mergeFurthest st.furthest).restore st.checkpoint) hb hst
    simp only [Parser.recover, hinput hst, heq, hfallback]
    rcases hw with rfl | rfl | rfl
    · exact ⟨_, rfl, hst''⟩
    · exact exists_settle hst hst'' _
    · exact exists_settle hst hst'' _
  · refine ⟨.exhausted, .inr (.inr rfl), fun b st hb hst => ?_⟩
    obtain ⟨st', heq, hst'⟩ := hP b st.resetFurthest hb hst
    refine ⟨_, by simp only [Parser.recover, hinput hst, heq]; rfl, ?_⟩
    exact hst'

end Rests

/-! ### Skipping -/

section skip

variable (hq : s.Inside q)

include hq

/-- A token that matches ends skipping at once. -/
theorem Idles.skip_ok (h : Idles q .ok P) (past : Bool) :
    Idles q .ok fun b => skip s past (P b) b := by
  refine h.of_eq fun b st st' hb hst heq hst' => ?_
  obtain ⟨n, rfl⟩ := Nat.exists_eq_add_one.2 hb
  simp only [skip, State.atEnd_of_lt (hst ▸ hq.lt_size : st.position < s.size), heq]
  refine ⟨_, rfl, ?_⟩
  cases past with
  | false => exact hst
  | true => exact (Nat.min_eq_right (hst' ▸ Nat.le_of_lt hq.lt_size)).trans hst'

/-- A round that does not find the token leads to the same place again. -/
theorem Idles.position_of_misses (h : Idles q v P) {b : Nat} (hb : 0 < b) {st st' : State Id}
    (hst : st.position = q) (hmiss : (P b).Misses s st st') : st'.position = q := by
  obtain ⟨st₁, heq, rfl⟩ := hmiss.missed
  obtain ⟨st₂, heq', hst₂⟩ := h b st hb hst
  cases heq.symm.trans heq'
  rw [State.advance, hst₂]
  exact hq.walk_eq 1

/-- A token that does not match inside an element is missed, and the cursor stays there. -/
theorem Idles.exists_misses (h : Idles q .mismatch P) {b : Nat} (hb : 0 < b) {st : State Id}
    (hst : st.position = q) : ∃ st', (P b).Misses s st st' ∧ st'.position = q := by
  obtain ⟨st₁, heq, -⟩ := h b st hb hst
  have hmiss : (P b).Misses s st (st₁.advance s 1) := ⟨hst ▸ hq.lt_size, st₁, heq, rfl⟩
  exact ⟨_, hmiss, h.position_of_misses hq hb hst hmiss⟩

/-- If the token does not match, skipping uses up every bound. -/
theorem Idles.skip_exhausted (h : Idles q v P) (hv : v = .mismatch ∨ v = .exhausted) (past : Bool)
    (b : Nat) {st : State Id} (hst : st.position = q) :
    ∃ st', skip s past (P b) b st = (.exhausted, st') ∧ st'.position = q := by
  rcases Nat.eq_zero_or_pos b with rfl | hb
  · exact ⟨st, rfl, hst⟩
  rcases hv with rfl | rfl
  · exact Parser.skip_exhausted (fun st hst => h.exists_misses hq hb hst) past b hst
  · obtain ⟨st', heq, hst'⟩ := h b st hb hst
    obtain ⟨n, rfl⟩ := Nat.exists_eq_add_one.2 hb
    refine ⟨st', ?_, hst'⟩
    simp only [skip, State.atEnd_of_lt (hst ▸ hq.lt_size : st.position < s.size), heq]
    rfl

/-- A scan rests: it matches where it is, or uses up the bound. -/
theorem Rests.skip (h : Rests q P) (past : Bool) : Rests q fun b => skip s past (P b) b := by
  obtain ⟨v, hv, hP⟩ := h
  rcases hv with rfl | hv
  · exact ⟨.ok, .inl rfl, hP.skip_ok hq past⟩
  · exact ⟨.exhausted, .inr (.inr rfl), fun b st _ hst => hP.skip_exhausted hq hv past b hst⟩

end skip

end Parser

/-! ## Expressions without rules -/

namespace Grammar

variable {s : Source α} {b q : Nat} {e : Expr α Id} {st : State Id}

/-- Where an expression refers to no rules, the rules do not matter. -/
theorem parser_setting_eq_empty (g : Grammar α Id) (s : Source α) (b : Nat) (e : Expr α Id)
    (he : e.isPlain = true) (hrefs : e.references = []) :
    e.parser (g.setting s b) = e.parser ((empty : Grammar α Id).setting s b) := by
  have hitems : ∀ items : List (Expr α Id), Expr.allPlain items = true →
      Expr.allReferences items = [] →
      (∀ x ∈ items, x.isPlain = true → x.references = [] →
        x.parser (g.setting s b) = x.parser ((empty : Grammar α Id).setting s b)) →
      Expr.parsers (g.setting s b) items =
        Expr.parsers ((empty : Grammar α Id).setting s b) items := by
    intro items hplain hnone hall
    simp only [Expr.parsers_eq_map]
    refine List.map_congr_left fun x hx => ?_
    have hsub : x.references ⊆ [] := hnone ▸ Expr.references_subset hx
    exact hall x hx ((Expr.allPlain_iff items).1 hplain x hx) (List.subset_nil.1 hsub)
  induction e, he using Expr.plain_induction with
  | satisfy | literal | endOfInput => rfl
  | rule i => cases hrefs
  | sequence es hes ih => exact congrArg Parser.sequence (hitems es hes hrefs ih)
  | choice es hes ih => exact congrArg Parser.choice (hitems es hes hrefs ih)
  | group e _ ih => exact ih hrefs
  | star e _ ih => exact congrArg (Parser.star b) (ih hrefs)
  | plus e _ ih => exact congrArg (Parser.plus b) (ih hrefs)
  | optional e _ ih => exact congrArg Parser.optional (ih hrefs)
  | ahead e _ ih => exact congrArg Parser.lookahead (ih hrefs)
  | notAhead e _ ih => exact congrArg Parser.notAhead (ih hrefs)
  | times e n _ ih => exact congrArg (Parser.times n) (ih hrefs)
  | tag e id _ ih => exact congrArg (Parser.tag id) (ih hrefs)
  | recover e id f _ _ _ ihe ihf =>
    obtain ⟨hpart, hfallback⟩ := List.append_eq_nil_iff.1 hrefs
    exact congrArg₂ (Parser.recover s id) (ihf hfallback) (ihe hpart)
  | skipBefore e _ ih => exact congrArg (Parser.skip s false · b) (ih hrefs)
  | skipPast e _ ih => exact congrArg (Parser.skip s true · b) (ih hrefs)

/-- Inside an element every plain expression rests. -/
theorem empty_rests (hq : s.Inside q) (e : Expr α Id) (he : e.isPlain = true) :
    Parser.Rests q fun b => e.parser ((empty : Grammar α Id).setting s b) := by
  have hitems : ∀ (items : List (Expr α Id)) (b : Nat),
      Expr.parsers ((empty : Grammar α Id).setting s b) items =
        (items.map fun x b => x.parser ((empty : Grammar α Id).setting s b)).map (· b) := by
    intro items b
    rw [Expr.parsers_eq_map, List.map_map]
    rfl
  have hall : ∀ items : List (Expr α Id), Expr.allPlain items = true →
      (∀ x ∈ items, x.isPlain = true →
        Parser.Rests q fun b => x.parser ((empty : Grammar α Id).setting s b)) →
      ∀ P ∈ items.map fun x b => x.parser ((empty : Grammar α Id).setting s b),
        Parser.Rests q P := by
    intro items hplain h
    refine List.forall_mem_map.2 fun x hx => ?_
    exact h x hx ((Expr.allPlain_iff items).1 hplain x hx)
  induction e, he using Expr.plain_induction with
  | satisfy test => exact .satisfy hq test
  | literal tests => exact .literal hq tests
  | endOfInput => exact .endOfInput hq
  | rule i =>
    -- there is no such rule
    refine ⟨.mismatch, .inr (.inl rfl), fun b st hb hst => ⟨st, ?_, hst⟩⟩
    obtain ⟨n, rfl⟩ := Nat.exists_eq_add_one.2 hb
    rfl
  | sequence es hes ih =>
    simp only [Expr.parser, hitems]
    exact (Parser.Rests.inOrder (hall es hes ih)).attempt
  | choice es hes ih =>
    simp only [Expr.parser, hitems]
    exact .choice (hall es hes ih)
  | group e _ ih => exact ih
  | star e _ ih => exact ih.star
  | plus e _ ih => exact ih.plus
  | optional e _ ih => exact ih.optional
  | ahead e _ ih => exact ih.lookahead
  | notAhead e _ ih => exact ih.notAhead
  | times e n _ ih => exact ih.times n
  | tag e id he ih => exact ih.tag (fun b => setting_appends (g := empty) rfl s b e he) id
  | recover e id f _ _ _ ihe ihf => exact ihe.recover hq ihf id
  | skipBefore e _ ih => exact ih.skip hq false
  | skipPast e _ ih => exact ih.skip hq true

/-- From a boundary every plain expression comes back. -/
theorem empty_comes_back (he : e.isPlain = true) (hpos : s.Boundary st.position)
    (hframes : st.frames = []) (hb : s.size + 2 ≤ b) :
    ∃ v st', e.parser ((empty : Grammar α Id).setting s b) st = (v, st') ∧
      (v = .ok ∨ v = .mismatch) ∧ st'.frames = [] ∧
      (v = .mismatch → st'.position = st.position) := by
  have hproper : (st.marked st.position).Proper (empty : Grammar α Id) s b :=
    { stack := by
        rw [State.marked, hframes]
        exact .nil s _ _
      boundary := hpos
      le_furthest := Nat.le_refl _
      furthest_le := hpos.le_size
      room := by
        simp only [need, size, empty, List.length_nil]
        omega }
  obtain ⟨v, a, hconf, hdone⟩ := hproper.run (g := empty) rfl (t := .expr e) he
  have heq := hdone _ hproper.at_self
  -- the mark may lie behind the cursor, but nothing depends on it
  obtain ⟨m, hmarked⟩ :=
    setting_oblivious (g := empty) rfl s b he (st.marked st.position) st.furthest
  rw [heq] at hmarked
  refine ⟨v, _, hmarked, ?_, hframes, ?_⟩
  · rw [State.marked, hframes] at hconf
    exact hconf.ok_or_mismatch
  · rintro rfl
    exact (hconf.silent rfl rfl).stop_eq

end Grammar

/-! ## Skipping from any position -/

/-- A scan never fails with a mismatch. -/
theorem Parser.skip_ne_mismatch (s : Source α) (past : Bool) (p : Parser Id) (n : Nat)
    (st : State Id) : (skip s past p n st).1 ≠ .mismatch := by
  induction n generalizing st with
  | zero => exact Verdict.noConfusion
  | succ n ih =>
    cases hend : st.atEnd s with
    | true => simp [skip, hend]
    | false =>
      obtain ⟨v, st', heq⟩ : ∃ v st', p st = (v, st') := ⟨_, _, rfl⟩
      cases v with
      | mismatch =>
        simp only [skip, hend, heq]
        exact ih _
      | ok | leftRecursion | fault | exhausted => simp [skip, hend, heq]

/-- Whether skipping from a state ends, and what its rounds do to the cursor. -/
structure Expr.SkipsFrom (g : Grammar α Id) (s : Source α) (past : Bool) (token : Expr α Id)
    (st : State Id) : Prop where
  /-- Skipping ends, under some bound, if and only if it begins on a boundary or the token matches
  where it begins. -/
  ends_iff : (∃ b, ((Expr.skip past token).parser (g.setting s b) st).1 ≠ .exhausted) ↔
    s.Boundary st.position ∨ ∃ b > 0, (token.parser (g.setting s b) st).1 = .ok
  /-- If it ends, it matches, under every bound that leaves room for all elements. -/
  ok : (∃ b, ((Expr.skip past token).parser (g.setting s b) st).1 ≠ .exhausted) →
    ∀ b, s.size + 2 ≤ b → ((Expr.skip past token).parser (g.setting s b) st).1 = .ok
  /-- From a boundary, every round that does not find the token gets further. -/
  further : s.Boundary st.position → ∀ b, s.size + 2 ≤ b → ∀ st₁ st₂,
    Relation.ReflTransGen ((token.parser (g.setting s b)).Misses s) st st₁ →
    (token.parser (g.setting s b)).Misses s st₁ st₂ → st₁.position < st₂.position
  /-- From inside an element, no round that does not find the token gets further. -/
  still : ¬ s.Boundary st.position → ∀ b > 0, ∀ st₁,
    Relation.ReflTransGen ((token.parser (g.setting s b)).Misses s) st st₁ →
    st₁.position = st.position

namespace Grammar

section chains

variable {s : Source α} {b : Nat} {token : Expr α Id} {st st' : State Id}

/-- A round that begins on a boundary and does not find the token gets further. -/
theorem empty_misses (htoken : token.isPlain = true) (hb : s.size + 2 ≤ b)
    (hpos : s.Boundary st.position) (hframes : st.frames = [])
    (hmiss : (token.parser ((empty : Grammar α Id).setting s b)).Misses s st st') :
    st.position < st'.position ∧ s.Boundary st'.position ∧ st'.frames = [] := by
  obtain ⟨st₁, heq, rfl⟩ := hmiss.missed
  obtain ⟨v, st₂, heq', -, hframes', hback⟩ := empty_comes_back htoken hpos hframes hb
  cases heq.symm.trans heq'
  refine ⟨?_, ?_, hframes'⟩
  · rw [State.advance, hback rfl]
    exact hpos.lt_walk_one hmiss.lt_size
  · rw [State.advance, hback rfl]
    exact hpos.walk 1

/-- So the cursor stays on boundaries. -/
theorem empty_misses_chain (htoken : token.isPlain = true) (hb : s.size + 2 ≤ b)
    (hpos : s.Boundary st.position) (hframes : st.frames = [])
    (hchain : Relation.ReflTransGen
      ((token.parser ((empty : Grammar α Id).setting s b)).Misses s) st st') :
    s.Boundary st'.position ∧ st'.frames = [] := by
  induction hchain with
  | refl => exact ⟨hpos, hframes⟩
  | tail _ hmiss ih => exact (empty_misses htoken hb ih.1 ih.2 hmiss).2

end chains

/-- Without rules, skipping is the scan of its token. -/
theorem empty_parser_skip (s : Source α) (past : Bool) (token : Expr α Id) (b : Nat) :
    (Expr.skip past token).parser ((empty : Grammar α Id).setting s b) =
      Parser.skip s past (token.parser ((empty : Grammar α Id).setting s b)) b :=
  Expr.parser_skip _ past token

section positions

variable {s : Source α} {past : Bool} {token : Expr α Id} {st : State Id}

/-- From a boundary skipping ends. -/
theorem empty_skips_from_boundary (htoken : token.isPlain = true) (hpos : s.Boundary st.position)
    (hframes : st.frames = []) : Expr.SkipsFrom empty s past token st := by
  have hok : ∀ b, s.size + 2 ≤ b →
      ((Expr.skip past token).parser ((empty : Grammar α Id).setting s b) st).1 = .ok := by
    intro b hb
    have hskip : (Expr.skip past token).isPlain = true := by cases past <;> exact htoken
    obtain ⟨v, st', heq, hv, -⟩ := empty_comes_back hskip hpos hframes hb
    have hne := Parser.skip_ne_mismatch s past
      (token.parser ((empty : Grammar α Id).setting s b)) b st
    rw [← empty_parser_skip, heq] at hne
    rw [heq]
    exact hv.resolve_right hne
  constructor
  case ends_iff =>
    refine ⟨fun _ => Or.inl hpos, fun _ => ⟨s.size + 2, ?_⟩⟩
    rw [hok _ (Nat.le_refl _)]
    exact nofun
  case ok => exact fun _ => hok
  case further =>
    intro _ b hb st₁ st₂ hchain hmiss
    obtain ⟨hpos₁, hframes₁⟩ := empty_misses_chain htoken hb hpos hframes hchain
    exact (empty_misses htoken hb hpos₁ hframes₁ hmiss).1
  case still => exact fun hnot => absurd hpos hnot

/-- From inside an element skipping goes on for ever, unless the token matches there. -/
theorem empty_skips_from_inside (htoken : token.isPlain = true) (hpos : ¬ s.Boundary st.position)
    (hle : st.position ≤ s.size) : Expr.SkipsFrom empty s past token st := by
  have hinside := Source.inside_of_not_boundary hle hpos
  obtain ⟨v, hv, hidle⟩ := empty_rests hinside token htoken
  have hfirst : ∀ b > 0, (token.parser ((empty : Grammar α Id).setting s b) st).1 = v := by
    intro b hb
    obtain ⟨st', heq, -⟩ := hidle b st hb rfl
    exact congrArg Prod.fst heq
  have hstill : ∀ b > 0, ∀ st₁, Relation.ReflTransGen
      ((token.parser ((empty : Grammar α Id).setting s b)).Misses s) st st₁ →
      st₁.position = st.position := by
    intro b hb st₁ hchain
    induction hchain with
    | refl => rfl
    | tail _ hmiss ih => exact hidle.position_of_misses hinside hb ih hmiss
  rcases hv with rfl | hv
  · have hok : ∀ b > 0,
        ((Expr.skip past token).parser ((empty : Grammar α Id).setting s b) st).1 = .ok := by
      intro b hb
      obtain ⟨st', heq, -⟩ := hidle.skip_ok hinside past b st hb rfl
      rw [empty_parser_skip]
      exact congrArg Prod.fst heq
    constructor
    case ends_iff =>
      refine ⟨fun _ => Or.inr ⟨1, Nat.one_pos, hfirst 1 Nat.one_pos⟩, fun _ => ⟨1, ?_⟩⟩
      rw [hok 1 Nat.one_pos]
      exact nofun
    case ok => exact fun _ b hb => hok b (by omega)
    case further => exact fun hnot => absurd hnot hpos
    case still => exact fun _ => hstill
  · have hexhausted : ∀ b,
        ((Expr.skip past token).parser ((empty : Grammar α Id).setting s b) st).1 = .exhausted := by
      intro b
      obtain ⟨st', heq, -⟩ := hidle.skip_exhausted hinside hv past b rfl
      rw [empty_parser_skip]
      exact congrArg Prod.fst heq
    constructor
    case ends_iff =>
      refine ⟨fun ⟨b, hends⟩ => absurd (hexhausted b) hends, ?_⟩
      rintro (hboundary | ⟨b, hb, hmatch⟩)
      · exact absurd hboundary hpos
      · rw [hfirst b hb] at hmatch
        rcases hv with rfl | rfl <;> cases hmatch
    case ok => exact fun ⟨b, hends⟩ => absurd (hexhausted b) hends
    case further => exact fun hnot => absurd hnot hpos
    case still => exact fun _ => hstill

end positions

/-- Skipping in a fresh state after the cursor was put anywhere, by a token that refers to no rules:
it ends from boundaries, and from inside an element only if there is nothing to skip. -/
theorem skipping_ends_on_boundaries (g : Grammar α Id) (s : Source α) (past : Bool)
    (token : Expr α Id) (htoken : token.isPlain = true) (hrefs : token.references = []) (p : Nat) :
    Expr.SkipsFrom g s past token (State.initial.setPosition s p) := by
  have hempty : Expr.SkipsFrom empty s past token (State.initial.setPosition s p) := by
    by_cases hpos : s.Boundary (State.initial.setPosition s p : State Id).position
    · exact empty_skips_from_boundary htoken hpos rfl
    · exact empty_skips_from_inside htoken hpos (Nat.min_le_left _ _)
  have hsame := fun b => parser_setting_eq_empty g s b token htoken hrefs
  have hskip := fun b => parser_setting_eq_empty g s b (Expr.skip past token)
    (by cases past <;> exact htoken) (by cases past <;> exact hrefs)
  constructor
  case ends_iff => simpa only [hsame, hskip] using hempty.ends_iff
  case ok => simpa only [hskip] using hempty.ok
  case further => simpa only [hsame] using hempty.further
  case still => simpa only [hsame] using hempty.still

/-- From the beginning of a text, which is a boundary, skipping past a character ends. -/
theorem skipping_ends_on_boundaries_entangled :
    let token : Expr Char Nat := .element 'x'
    let s : Source Char := .ofText "éx"
    let st : State Nat := State.initial.setPosition s 0
    token.isPlain = true ∧ token.references = [] ∧ Expr.SkipsFrom entangled s true token st ∧
      ∀ b, s.size + 2 ≤ b →
        ((Expr.skip true token).parser (entangled.setting s b) st).1 = .ok := by
  intro token s st
  have hskips := skipping_ends_on_boundaries entangled s true token rfl rfl 0
  have hbegin : s.Boundary st.position := s.boundary_zero
  exact ⟨rfl, rfl, hskips, hskips.ok (hskips.ends_iff.2 (Or.inl hbegin))⟩

/-- A character of two bytes, and a cursor at the second one: skipping over characters up to a given
one uses up every bound, and no round gets further. -/
theorem skipping_stuck_in_character :
    let token : Expr Char Nat := .element 'x'
    let s : Source Char := .ofText "é"
    let st : State Nat := State.initial.setPosition s 1
    token.isPlain = true ∧ token.references = [] ∧ st.position = 1 ∧ s.size = 2 ∧
      (∀ past b, ((Expr.skip past token).parser ((empty : Grammar Char Nat).setting s b) st).1 =
        .exhausted) ∧
      ∀ b > 0, ∃ st', (token.parser ((empty : Grammar Char Nat).setting s b)).Misses s st st' ∧
        st'.position = st.position := by
  intro token s st
  have hinside : s.Inside 1 := ⟨by decide, by decide⟩
  have hidle : Parser.Idles 1 .mismatch fun b =>
      token.parser ((empty : Grammar Char Nat).setting s b) := .satisfy hinside _
  have hst : st.position = 1 := by decide
  refine ⟨rfl, rfl, hst, by decide, fun past b => ?_, fun b hb => ?_⟩
  · obtain ⟨st', heq, -⟩ := hidle.skip_exhausted hinside (Or.inl rfl) past b hst
    rw [empty_parser_skip]
    exact congrArg Prod.fst heq
  · rw [hst]
    exact hidle.exists_misses hinside hb hst

end Grammar

end Peg
