import Peg.Proofs.Nesting
import Peg.Proofs.Slicing
import Peg.Proofs.View

/-!
# Spans of tokens map back to the text

A match of the second stage of a parse counts tokens, and `Token.textSpan` takes it back to the
text. `Token.textSpan_maps_back` composes the laws of the two stages. The tokens are the outermost
matches of a parse over the text, so they stand at places where the text can be cut and follow each
other (`Token.Laid`, by `Token.tokenize_laid`). The matches over the tokens are nested and do not
reach beyond the row.

Everything else is a matter of indices. An empty span has no token of its own, so it is put where
the next token begins, or where the last one ends (`Token.entry`). What makes this fit is that
`entry` never decreases, and that no token before an index ends beyond the `entry` of the index
(`Token.Laid.stop_le_entry`).
-/

namespace Peg

variable {α Id K : Type}

/-! ## Matches at every depth -/

namespace Match

mutual

/-- The matches inside a well-formed match are well-formed. -/
theorem WellFormed.of_mem_preorderFrom : (m : Match Id) → m.WellFormed → (depth : Nat) →
    ∀ x ∈ m.preorderFrom depth, x.2.WellFormed
  | ⟨id, span, children⟩, h, depth => by
    intro x hx
    rcases List.mem_cons.1 hx with rfl | hx
    · exact h
    · cases h with
      | intro _ _ hchildren =>
        exact WellFormed.of_mem_preorderAllFrom children hchildren (depth + 1) x hx

/-- Every match in a forest of well-formed matches is well-formed. -/
theorem WellFormed.of_mem_preorderAllFrom : (forest : List (Match Id)) →
    (∀ m ∈ forest, m.WellFormed) → (depth : Nat) →
    ∀ x ∈ Match.preorderAllFrom depth forest, x.2.WellFormed
  | [], _, _ => nofun
  | m :: rest, h, depth => by
    obtain ⟨hm, hrest⟩ := List.forall_mem_cons.1 h
    intro x hx
    rcases List.mem_append.1 hx with hx | hx
    · exact WellFormed.of_mem_preorderFrom m hm depth x hx
    · exact WellFormed.of_mem_preorderAllFrom rest hrest depth x hx

end

/-- A child lies in the span of its parent, and does not stop before it starts. -/
theorem WellFormed.child {m c : Match Id} (h : m.WellFormed) (hc : c ∈ m.children) :
    m.span.start ≤ c.span.start ∧ c.span.start ≤ c.span.stop ∧ c.span.stop ≤ m.span.stop := by
  cases h with
  | intro _ harranged hchildren =>
    obtain ⟨hstart, hstop⟩ := harranged.inside c hc
    cases hchildren c hc with
    | intro hordered _ _ => exact ⟨hstart, hordered, hstop⟩

end Match

namespace Grammar

variable {g : Grammar α Id} {s : Source α} {start : Expr α Id} {toEnd : Bool} {o : Outcome Id}

/-- The matches of an outcome are a forest up to where the parse stopped. -/
theorem outcome_nested (hg : g.isPlain = true) (hstart : start.isPlain = true)
    (ho : (g.parseLogged s start toEnd).1 = .ok o) : Match.Nested ⟨0, o.stop⟩ o.forest := by
  obtain ⟨v, a, -, hnested, rfl⟩ := outcome_keeps (Match.nested_invariant s) hg hstart ho
  exact hnested

/-- The matches of an outcome have their ends on boundaries. -/
theorem outcome_onBoundaries (hg : g.isPlain = true) (hstart : start.isPlain = true)
    (ho : (g.parseLogged s start toEnd).1 = .ok o) :
    Match.Everywhere (Span.OnBoundaries s) o.forest := by
  obtain ⟨v, a, -, hboundaries, rfl⟩ :=
    outcome_keeps (Effect.onBoundaries_invariant s) hg hstart ho
  exact hboundaries.forest

end Grammar

namespace Token

/-! ## The tokens of a text -/

/-- Tokens that can be cut out of a text and follow each other in it. -/
structure Laid (text : String) (tokens : List (Token K)) : Prop where
  cut : ∀ t ∈ tokens, t.span.Cut text
  ordered : tokens.Pairwise fun t u => t.span.stop ≤ u.span.start

/-- The tokens that a plain grammar cuts a text into are laid out in the text. -/
theorem tokenize_laid {g : Grammar Char K} {start : Expr Char K} {text : String}
    {cut : Tokenized K} (hg : g.isPlain = true) (hstart : start.isPlain = true)
    (hcut : (tokenize g text start).1 = .ok cut) : Laid text cut.tokens := by
  cases hparse : g.parseLogged (.ofText text) start true with
  | mk result log =>
  cases result with
  | error e => simp [tokenize, hparse] at hcut
  | ok o =>
    simp only [tokenize, hparse, Except.ok.injEq] at hcut
    subst hcut
    have ho : (g.parseLogged (.ofText text) start true).1 = .ok o := by rw [hparse]
    constructor
    · intro t ht
      obtain ⟨m, hm, rfl⟩ := List.mem_map.1 ht
      have hboundaries := Grammar.outcome_onBoundaries hg hstart ho 0 _ (Match.mem_preorder hm)
      exact hboundaries.cut
    · exact List.pairwise_map.2 (Grammar.outcome_nested hg hstart ho).ordered

/-! ## Where a span of tokens begins and ends -/

/-- Where the token with an index begins; beyond the last token, where that one ends. -/
def entry (tokens : List (Token K)) (i : Nat) : Nat :=
  match tokens[i]? with
  | some t => t.span.start
  | none =>
    match tokens.getLast? with
    | some t => t.span.stop
    | none => 0

section textSpan

variable {text : String} {tokens : List (Token K)} {t u : Token K} {i j : Nat} {span inner : Span}

/-- The entry of the index of a token is where the token starts. -/
theorem entry_of_getElem? (h : tokens[i]? = some t) : entry tokens i = t.span.start := by
  simp only [entry, h]

/-- The span of a range of tokens in the text, said by the entry of its first index. -/
theorem textSpan_eq (tokens : List (Token K)) (span : Span) :
    textSpan tokens span =
      if span.isEmpty then ⟨entry tokens span.start, entry tokens span.start⟩
      else
        match tokens[span.stop - 1]? with
        | some t => ⟨entry tokens span.start, t.span.stop⟩
        | none => ⟨entry tokens span.start, entry tokens span.start⟩ :=
  rfl

/-- A span in the text starts at the entry of its first index. -/
theorem textSpan_start (tokens : List (Token K)) (span : Span) :
    (textSpan tokens span).start = entry tokens span.start := by
  rw [textSpan_eq]
  split
  · rfl
  · split <;> rfl

/-- An empty span is put at one place. -/
theorem textSpan_of_le (h : span.stop ≤ span.start) :
    textSpan tokens span = ⟨entry tokens span.start, entry tokens span.start⟩ := by
  have hempty : span.isEmpty = true := decide_eq_true h
  rw [textSpan_eq, if_pos hempty]

/-- A span that is not empty goes from the start of its first token to the end of its last. -/
theorem textSpan_of_lt (hlt : span.start < span.stop) (hle : span.stop ≤ tokens.length) :
    ∃ first last, tokens[span.start]? = some first ∧ tokens[span.stop - 1]? = some last ∧
      textSpan tokens span = ⟨first.span.start, last.span.stop⟩ := by
  have hempty : span.isEmpty = false := decide_eq_false (Nat.not_le.2 hlt)
  have hfirst := List.getElem?_eq_getElem (Nat.lt_of_lt_of_le hlt hle)
  have hlast : tokens[span.stop - 1]? = some _ := List.getElem?_eq_getElem (by omega)
  refine ⟨_, _, hfirst, hlast, ?_⟩
  simp only [textSpan_eq, hempty, Bool.false_eq_true, if_false, hlast, entry_of_getElem? hfirst]

namespace Laid

/-- A token ends before a later one starts. -/
theorem le_start (h : Laid text tokens) (ht : tokens[i]? = some t) (hu : tokens[j]? = some u)
    (hij : i < j) : t.span.stop ≤ u.span.start := by
  obtain ⟨hi, rfl⟩ := List.getElem?_eq_some_iff.1 ht
  obtain ⟨hj, rfl⟩ := List.getElem?_eq_some_iff.1 hu
  exact List.pairwise_iff_getElem.1 h.ordered i j hi hj hij

/-- A token that is not behind another one does not end behind it. -/
theorem stop_le_stop (h : Laid text tokens) (ht : tokens[i]? = some t) (hu : tokens[j]? = some u)
    (hij : i ≤ j) : t.span.stop ≤ u.span.stop := by
  rcases Nat.lt_or_eq_of_le hij with hlt | rfl
  · exact Nat.le_trans (h.le_start ht hu hlt) (h.cut u (List.mem_of_getElem? hu)).ordered
  · rw [Option.some.inj (ht.symm.trans hu)]

/-- No token before an index ends beyond the entry of the index. -/
theorem stop_le_entry (h : Laid text tokens) (ht : tokens[i]? = some t) (hij : i < j) :
    t.span.stop ≤ entry tokens j := by
  unfold entry
  split
  · next u hu => exact h.le_start ht hu hij
  · next hnone =>
    -- the index is beyond the last token, which is not before the given one
    have hi := (List.getElem?_eq_some_iff.1 ht).1
    have hlast : tokens.getLast? = some _ :=
      List.getLast?_eq_getElem?.trans (List.getElem?_eq_getElem (by omega))
    rw [hlast]
    exact h.stop_le_stop ht (List.getLast?_eq_getElem?.symm.trans hlast) (by omega)

/-- The entries of larger indices are not before those of smaller ones. -/
theorem entry_mono (h : Laid text tokens) (hij : i ≤ j) : entry tokens i ≤ entry tokens j := by
  rcases Nat.lt_or_eq_of_le hij with hlt | rfl
  · cases ht : tokens[i]? with
    | some t =>
      rw [entry_of_getElem? ht]
      exact Nat.le_trans (h.cut t (List.mem_of_getElem? ht)).ordered (h.stop_le_entry ht hlt)
    | none =>
      have hj : tokens[j]? = none := by
        rw [List.getElem?_eq_none_iff] at ht ⊢
        omega
      simp only [entry, ht, hj, Nat.le_refl]
  · exact Nat.le_refl _

/-- The text can be cut at every entry. -/
theorem entry_cut (h : Laid text tokens) (i : Nat) : Text.Cut text (entry tokens i) := by
  unfold entry
  split
  · next t ht => exact (h.cut t (List.mem_of_getElem? ht)).start
  · split
    · next t ht => exact (h.cut t (List.mem_of_getLast? ht)).stop
    · exact (Source.ofText text).boundary_zero.cut

/-! ## Spans of a row of tokens -/

/-- A span of the row is taken to a stretch that can be cut out of the text. -/
theorem textSpan_cut (h : Laid text tokens) (hle : span.stop ≤ tokens.length) :
    (textSpan tokens span).Cut text := by
  rcases Nat.lt_or_ge span.start span.stop with hlt | hempty
  · obtain ⟨first, last, hfirst, hlast, heq⟩ := textSpan_of_lt hlt hle
    have hcut := h.cut first (List.mem_of_getElem? hfirst)
    have hends := h.stop_le_stop hfirst hlast (by omega)
    rw [heq]
    exact ⟨Nat.le_trans hcut.ordered hends, hcut.start,
      (h.cut last (List.mem_of_getElem? hlast)).stop⟩
  · rw [textSpan_of_le hempty]
    exact ⟨Nat.le_refl _, h.entry_cut _, h.entry_cut _⟩

/-- A span that ends no later than an index is taken to a stretch that ends no later than the entry
of the index. -/
theorem textSpan_stop_le (h : Laid text tokens) (hordered : span.start ≤ span.stop)
    (hle : span.stop ≤ tokens.length) (hj : span.stop ≤ j) :
    (textSpan tokens span).stop ≤ entry tokens j := by
  rcases Nat.lt_or_eq_of_le hordered with hlt | heq
  · obtain ⟨first, last, -, hlast, htext⟩ := textSpan_of_lt hlt hle
    rw [htext]
    exact h.stop_le_entry hlast (by omega)
  · rw [textSpan_of_le (Nat.le_of_eq heq.symm)]
    exact h.entry_mono (by omega)

/-- A span that is not empty and lies in another one is taken to a stretch that lies in that of the
other one. -/
theorem textSpan_inside (h : Laid text tokens) (hinner : inner.start < inner.stop)
    (hstart : span.start ≤ inner.start) (hstop : inner.stop ≤ span.stop)
    (hle : span.stop ≤ tokens.length) :
    (textSpan tokens span).start ≤ (textSpan tokens inner).start ∧
      (textSpan tokens inner).stop ≤ (textSpan tokens span).stop := by
  have hinnerLe : inner.stop ≤ tokens.length := Nat.le_trans hstop hle
  have hspan : span.start < span.stop := by omega
  obtain ⟨_, last, -, hlast, heq⟩ := textSpan_of_lt hinner hinnerLe
  obtain ⟨_, last', -, hlast', heq'⟩ := textSpan_of_lt hspan hle
  constructor
  · rw [textSpan_start, textSpan_start]
    exact h.entry_mono hstart
  · rw [heq, heq']
    exact h.stop_le_stop hlast hlast' (by omega)

end Laid

end textSpan

/-! ## Matches over the tokens of a text -/

/-- A match, at any depth, in an outcome of any plain grammar over a row of tokens. -/
def Reported (tokens : List (Token K)) (m : Match Id) : Prop :=
  ∃ (g : Grammar (Token K) Id) (start : Expr (Token K) Id) (toEnd : Bool) (o : Outcome Id)
    (depth : Nat), g.isPlain = true ∧ start.isPlain = true ∧
      (g.parseLogged (.ofList tokens) start toEnd).1 = .ok o ∧ (depth, m) ∈ Match.preorder o.forest

namespace Reported

variable {tokens : List (Token K)} {m c : Match Id}

/-- A match that is reported is well-formed. -/
theorem wellFormed (h : Reported tokens m) : m.WellFormed := by
  obtain ⟨g, start, toEnd, o, depth, hg, hstart, ho, hm⟩ := h
  exact Match.WellFormed.of_mem_preorderAllFrom o.forest
    (Grammar.outcome_nested hg hstart ho).wellFormed 0 _ hm

/-- A match that is reported starts before it ends, or where it ends. -/
theorem ordered (h : Reported tokens m) : m.span.start ≤ m.span.stop := by
  cases h.wellFormed with
  | intro hordered _ _ => exact hordered

/-- A match that is reported does not reach beyond the row. -/
theorem stop_le_length (h : Reported tokens m) : m.span.stop ≤ tokens.length := by
  obtain ⟨g, start, toEnd, o, depth, hg, hstart, ho, hm⟩ := h
  have hboundaries := Grammar.outcome_onBoundaries hg hstart ho 0 _ hm
  exact hboundaries.stop.le_size.trans_eq (Source.size_ofList tokens)

end Reported

/-- The matches over the tokens of a text are taken back to the text. -/
structure MapsBack (text : String) (tokens : List (Token K)) : Prop where
  /-- Every match is taken to a stretch that can be cut out of the text. -/
  cut : ∀ {Id : Type} {m : Match Id}, Reported tokens m →
    (textSpan tokens m.span).Cut text ∧ ((textSpan tokens m.span).text? text).isSome = true
  /-- A match that covers tokens is taken to the stretch from the start of the first to the end of
  the last of them. -/
  exact : ∀ {Id : Type} {m : Match Id}, Reported tokens m → m.span.start < m.span.stop →
    ∃ first last, tokens[m.span.start]? = some first ∧ tokens[m.span.stop - 1]? = some last ∧
      textSpan tokens m.span = ⟨first.span.start, last.span.stop⟩
  /-- Matches that follow each other, of one outcome or of two, are taken to stretches that do. -/
  ordered : ∀ {Id Id' : Type} {m : Match Id} {n : Match Id'}, Reported tokens m →
    Reported tokens n → m.span.stop ≤ n.span.start →
    (textSpan tokens m.span).stop ≤ (textSpan tokens n.span).start
  /-- A child that covers tokens is taken to a stretch inside that of its parent. -/
  children : ∀ {Id : Type} {m c : Match Id}, Reported tokens m → c ∈ m.children →
    c.span.start < c.span.stop →
    (textSpan tokens m.span).start ≤ (textSpan tokens c.span).start ∧
      (textSpan tokens c.span).stop ≤ (textSpan tokens m.span).stop

/-- Whatever is matched over the tokens of a text maps back to the text. -/
theorem textSpan_maps_back (g : Grammar Char K) (start : Expr Char K) (hg : g.isPlain = true)
    (hstart : start.isPlain = true) (text : String) (cut : Tokenized K)
    (hcut : (tokenize g text start).1 = .ok cut) : MapsBack text cut.tokens where
  cut := by
    intro Id m hm
    have hspan := (tokenize_laid hg hstart hcut).textSpan_cut hm.stop_le_length
    exact ⟨hspan, hspan.text?_isSome⟩
  exact := by
    intro Id m hm hlt
    exact textSpan_of_lt hlt hm.stop_le_length
  ordered := by
    intro Id Id' m n hm hn hle
    rw [textSpan_start]
    exact (tokenize_laid hg hstart hcut).textSpan_stop_le hm.ordered hm.stop_le_length hle
  children := by
    intro Id m c hm hc hlt
    obtain ⟨hleft, -, hright⟩ := hm.wellFormed.child hc
    exact (tokenize_laid hg hstart hcut).textSpan_inside hlt hleft hright hm.stop_le_length

/-- A sum with a number of two bytes: the inner of the two matches covers the first three tokens,
which are the first six bytes of the text. -/
theorem textSpan_maps_back_sum :
    let start : Expr Char Nat :=
      .star (.choice [.tag (.choice [.element 'é', .digit]) 1, .tag (.element '+') 2, .element ' '])
    let tokens : List (Token Nat) :=
      [⟨1, ⟨0, 2⟩⟩, ⟨2, ⟨3, 4⟩⟩, ⟨1, ⟨5, 6⟩⟩, ⟨2, ⟨6, 7⟩⟩, ⟨1, ⟨7, 8⟩⟩]
    (Grammar.empty : Grammar Char Nat).isPlain = true ∧ start.isPlain = true ∧
      (∃ cut, (tokenize .empty "é + 1+2" start).1 = .ok cut ∧ cut.tokens = tokens) ∧
      MapsBack "é + 1+2" tokens ∧
      ∃ m : Match Nat, Reported tokens m ∧ m.span = ⟨0, 3⟩ ∧ textSpan tokens m.span = ⟨0, 6⟩ := by
  intro start tokens
  have hstart : start.isPlain = true := by decide
  have hcut : (tokenize .empty "é + 1+2" start).1.toOption.map Tokenized.tokens = some tokens := by
    decide +kernel
  obtain ⟨cut, hrun, htokens⟩ :
      ∃ cut, (tokenize .empty "é + 1+2" start).1 = .ok cut ∧ cut.tokens = tokens := by
    cases hrun : (tokenize .empty "é + 1+2" start).1 with
    | error e => simp [hrun, Except.toOption] at hcut
    | ok cut => exact ⟨cut, rfl, by simpa [hrun, Except.toOption] using hcut⟩
  have hback := textSpan_maps_back .empty start (by decide) hstart "é + 1+2" cut hrun
  rw [htokens] at hback
  have hsum : ((Grammar.tokenSums.parseLogged (.ofList tokens) (.rule 0) true).1.toOption.map
      Outcome.forest) = some [⟨7, ⟨0, 5⟩, [⟨7, ⟨0, 3⟩, []⟩]⟩] := by decide +kernel
  have hreported : Reported tokens (⟨7, ⟨0, 3⟩, []⟩ : Match Nat) := by
    cases hparse : (Grammar.tokenSums.parseLogged (.ofList tokens) (.rule 0) true).1 with
    | error e => simp [hparse, Except.toOption] at hsum
    | ok o =>
      have hforest : o.forest = [⟨7, ⟨0, 5⟩, [⟨7, ⟨0, 3⟩, []⟩]⟩] := by
        simpa [hparse, Except.toOption] using hsum
      refine ⟨Grammar.tokenSums, .rule 0, true, o, 1, by decide, rfl, hparse, ?_⟩
      rw [hforest]
      exact List.mem_cons_of_mem _ List.mem_cons_self
  exact ⟨by decide, hstart, ⟨cut, hrun, htokens⟩, hback, _, hreported, rfl, by decide⟩

end Token

end Peg
