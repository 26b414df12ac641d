import Peg.Proofs.Law

/-!
# A match appends a well-formed forest

The records of a parse are two lists, and everything that is done to them is done by counting: a tag
takes the matches behind a count as its children, growth takes what was recorded since a count and
appends it again, and going back cuts the lists to counts. That the result is a forest in the source
is an invariant of effects (`Match.nested_invariant`): the new matches of a run lie between the
position at which it began and the one at which it ended, one after the other, and so do the
children of each of them within its span.

`Grammar.success_appends` says this of every state that arises in a parse, and that no count is ever
beyond the end of the list it is taken of.
-/

namespace Peg

variable {α Id : Type}

namespace Match

/-- Matches that lie in a span one after the other, each ending no later than the next ones
start. -/
structure Arranged (span : Span) (forest : List (Match Id)) : Prop where
  inside : ∀ m ∈ forest, span.start ≤ m.span.start ∧ m.span.stop ≤ span.stop
  ordered : forest.Pairwise fun m n => m.span.stop ≤ n.span.start

/-- A match that does not stop before it starts, with children that are arranged in its span and
well-formed themselves. -/
inductive WellFormed : Match Id → Prop
  | intro {id : Id} {span : Span} {children : List (Match Id)} : span.start ≤ span.stop →
      Arranged span children → (∀ m ∈ children, m.WellFormed) → WellFormed ⟨id, span, children⟩

/-- A forest of well-formed matches that is arranged in a span. -/
structure Nested (span : Span) (forest : List (Match Id)) : Prop extends Arranged span forest where
  wellFormed : ∀ m ∈ forest, m.WellFormed

namespace Nested

variable {p q r : Nat} {a b : List (Match Id)}

/-- An empty forest is nested in every span. -/
theorem nil (span : Span) : Nested span ([] : List (Match Id)) := ⟨⟨nofun, .nil⟩, nofun⟩

/-- Two forests in neighbouring spans are one forest. -/
theorem append (hpq : p ≤ q) (hqr : q ≤ r) (ha : Nested ⟨p, q⟩ a) (hb : Nested ⟨q, r⟩ b) :
    Nested ⟨p, r⟩ (a ++ b) where
  inside := by
    intro m hm
    rcases List.mem_append.1 hm with hm | hm
    · exact ⟨(ha.inside m hm).1, Nat.le_trans (ha.inside m hm).2 hqr⟩
    · exact ⟨Nat.le_trans hpq (hb.inside m hm).1, (hb.inside m hm).2⟩
  ordered := by
    refine List.pairwise_append.2 ⟨ha.ordered, hb.ordered, fun m hm n hn => ?_⟩
    exact Nat.le_trans (ha.inside m hm).2 (hb.inside n hn).1
  wellFormed := by
    intro m hm
    rcases List.mem_append.1 hm with hm | hm
    · exact ha.wellFormed m hm
    · exact hb.wellFormed m hm

/-- A match around a forest is a forest. -/
theorem wrap (hpq : p ≤ q) (id : Id) (ha : Nested ⟨p, q⟩ a) : Nested ⟨p, q⟩ [⟨id, ⟨p, q⟩, a⟩] where
  inside := by
    intro m hm
    rw [List.mem_singleton.1 hm]
    exact ⟨Nat.le_refl p, Nat.le_refl q⟩
  ordered := List.pairwise_singleton _ _
  wellFormed := by
    intro m hm
    rw [List.mem_singleton.1 hm]
    exact .intro hpq ha.toArranged ha.wellFormed

end Nested

/-- The new matches of a run are a forest between its ends. -/
theorem nested_invariant (s : Source α) :
    Effect.Invariant s fun pos (a : Effect Id) => Nested ⟨pos, a.stop⟩ a.forest where
  jump := by
    intro pos stop _ _ _
    exact .nil _
  andThen := by
    intro pos a b ha hb h h'
    exact h.append ha.le_stop hb.le_stop h'
  undo := by
    intro pos stop a _ _ _ _ _ _
    exact .nil _
  wrap := by
    intro pos a id _ ha h
    exact h.wrap ha.le_stop id
  recovered := by
    intro pos a b id _ _ _ _ h
    exact h
  note := by
    intro pos a e h
    exact h
  again := by
    intro pos a _ h
    exact h

end Match

namespace Grammar

/-- In a parse from the given expression, a match only appends to the records, and what it appends
is well-formed. -/
structure Appends (g : Grammar α Id) (s : Source α) (start : Expr α Id) : Prop where
  /-- In every state that arises, an expression that matches moves forward within the source, keeps
  all records, and adds a well-formed forest between where it began and where it ended. -/
  success : ∀ {b : Nat} {st st' : State Id} {e : Expr α Id}, g.Context s start b st →
    e.isPlain = true → e.parser (g.setting s b) st = (.ok, st') →
    st.position ≤ st'.position ∧ st'.position ≤ s.size ∧
      ∃ forest errors, st'.forest = st.forest ++ forest ∧ st'.errors = st.errors ++ errors ∧
        Match.Nested ⟨st.position, st'.position⟩ forest
  /-- The matches that a tag takes as children are counted from what was there before, which is not
  more than there is, and they are all that came after it. -/
  children : ∀ {b : Nat} {st st' : State Id} {e : Expr α Id}, g.Context s start b st →
    e.isPlain = true → e.parser (g.setting s b) st = (.ok, st') →
    st.forest.length ≤ st'.forest.length ∧
      st'.forest.length - (st'.forest.length - st.forest.length) = st.forest.length
  /-- The records of a growing rule reach back to where the rule was entered. -/
  since : ∀ {b i k : Nat} {e : Expr α Id} {place : Checkpoint} {st : State Id},
    g.Arises s start (.growth b i e place k st) →
    place.matchCount ≤ st.forest.length ∧ place.errorCount ≤ st.errors.length
  /-- So no expression asks for records that are not there. -/
  no_fault : ∀ {b : Nat} {st : State Id} {e : Expr α Id}, g.Context s start b st →
    e.isPlain = true → (e.parser (g.setting s b) st).1 ≠ .fault

section appends

variable {g : Grammar α Id} {s : Source α} {start e : Expr α Id} {b : Nat} {st st' : State Id}

/-- A match appends a forest that is nested between where it began and where it ended, and appends
errors. -/
theorem Context.forest_after (hst : g.Context s start b st) (hg : g.isPlain = true)
    (hstart : start.isPlain = true) (he : e.isPlain = true)
    (heq : e.parser (g.setting s b) st = (.ok, st')) :
    st.position ≤ st'.position ∧ st'.position ≤ s.size ∧
      ∃ forest errors, st'.forest = st.forest ++ forest ∧ st'.errors = st.errors ++ errors ∧
        Match.Nested ⟨st.position, st'.position⟩ forest := by
  obtain ⟨a, hconf, hnested, rfl⟩ :=
    hst.exists_effect (Match.nested_invariant s) hg hstart he heq
  exact ⟨hconf.le_stop, hconf.boundary.le_size, a.forest, a.errors, rfl, rfl, hnested⟩

/-- A growing rule has at least the records that there were when it was entered. -/
theorem Arises.since_le {i k : Nat} {place : Checkpoint}
    (h : g.Arises s start (.growth b i e place k st)) (hg : g.isPlain = true)
    (hstart : start.isPlain = true) :
    place.matchCount ≤ st.forest.length ∧ place.errorCount ≤ st.errors.length := by
  obtain ⟨-, st₀, m, fs, acc, -, -, -, rfl, rfl, -⟩ := h.sound hg hstart
  constructor
  · exact List.IsPrefix.length_le (List.prefix_append _ _)
  · exact List.IsPrefix.length_le (List.prefix_append _ _)

/-- No plain expression has a fault in a state that arises in a parse. -/
theorem Context.ne_fault (hst : g.Context s start b st) (hg : g.isPlain = true)
    (hstart : start.isPlain = true) (he : e.isPlain = true) :
    (e.parser (g.setting s b) st).1 ≠ .fault := by
  intro hfault
  obtain ⟨a, hconf, -⟩ := (hst.proper hg hstart).exists_effect hg he
    (Prod.ext hfault rfl : _ = (_, _))
  cases hconf.answer

/-- Every parse of plain expressions appends well-formed forests only. -/
theorem success_appends (g : Grammar α Id) (s : Source α) (start : Expr α Id)
    (hg : g.isPlain = true) (hstart : start.isPlain = true) : g.Appends s start where
  success := by
    intro b st st' e hst he heq
    exact hst.forest_after hg hstart he heq
  children := by
    intro b st st' e hst he heq
    obtain ⟨-, -, forest, errors, hforest, -, -⟩ := hst.forest_after hg hstart he heq
    have hlen : st'.forest.length = st.forest.length + forest.length := by
      rw [hforest, List.length_append]
    omega
  since := by
    intro b i k e place st hc
    exact hc.since_le hg hstart
  no_fault := by
    intro b st e hst he
    exact hst.ne_fault hg hstart he

end appends

/-- The whole text is matched by one tree of three matches, one inside the other. -/
theorem success_appends_entangled :
    entangled.isPlain = true ∧ (Expr.rule 0 : Expr Char Nat).isPlain = true ∧
      entangled.Appends .entangled (.rule 0) ∧
      ∃ (b : Nat) (st st' : State Nat),
        entangled.Context .entangled (.rule 0) b st ∧ st.forest = [] ∧
        (Expr.rule 0).parser (entangled.setting .entangled b) st = (.ok, st') ∧
        Match.countAll st'.forest = 3 ∧ Match.Nested ⟨0, 4⟩ st'.forest := by
  have happends := success_appends entangled .entangled (.rule 0) (by decide) rfl
  let st : State Nat := State.initial.note (.started 2 4)
  let result (b : Nat) := (Expr.rule 0).parser (entangled.setting .entangled b) st
  have hrun : (result (entangled.enough .entangled)).1 = .ok ∧
      (result (entangled.enough .entangled)).2.position = 4 ∧
      Match.countAll (result (entangled.enough .entangled)).2.forest = 3 := by decide +kernel
  have hst : entangled.Context .entangled (.rule 0) (entangled.enough .entangled) st := .made .refl
  -- from here on the bound is some number, so that nothing is evaluated again
  generalize entangled.enough .entangled = b at hrun hst
  obtain ⟨hok, hstop, hcount⟩ := hrun
  have heq : result b = (.ok, (result b).2) := by rw [← hok]
  obtain ⟨-, -, forest, errors, hforest, -, hnested⟩ := happends.success hst rfl heq
  have hnew : (result b).2.forest = forest := hforest
  rw [hstop, ← hnew] at hnested
  exact ⟨by decide, rfl, happends, b, st, (result b).2, hst, rfl, heq, hcount, hnested⟩

end Grammar

end Peg
