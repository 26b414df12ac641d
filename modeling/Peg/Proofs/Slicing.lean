import Peg.Expr.Element
import Peg.Proofs.Cursor
import Peg.Proofs.Lines
import Peg.Proofs.Outcome
import Peg.Proofs.PostOrder
import Peg.Token

/-!
# What a parse reports can be cut out

The positions in the outcome of a parse over a text are byte offsets, and a text can be cut between
characters only. `Grammar.outcome_sliceable` says that every position that is reported is a place to
cut: where the parse stopped, the furthest position, both ends of every match at every depth, and
the position and both ends of every error. So the text of every match, of everything that was
skipped and of every token exists.

The route is an invariant in the sense of `Peg.Proofs.Law` (`Effect.onBoundaries_invariant`), for
sources of any kind.

**Messages are another matter.** A diagnostic is laid out in a field as wide as its column, and no
field is wider than `Text.maxWidth`. At a position where the text can be cut, that is all that can
go wrong (`Diagnostic.render?_isSome_iff`), and it does go wrong: a text of a single line with that
many characters, parsed as itself, has an outcome whose message does not exist
(`Grammar.no_message_of_longLine`).
-/

namespace Peg

variable {α Id : Type}

/-! ## Boundaries everywhere -/

namespace Match

variable {P : Span → Prop} {a b : List (Match Id)}

/-- A property of the spans of all matches of a forest, at every depth. -/
def Everywhere (P : Span → Prop) (forest : List (Match Id)) : Prop :=
  ∀ depth, ∀ x ∈ preorderAllFrom depth forest, P x.2.span

/-- The matches of two forests are those of the first and then those of the second. -/
theorem preorderAllFrom_append (depth : Nat) (a b : List (Match Id)) :
    preorderAllFrom depth (a ++ b) = preorderAllFrom depth a ++ preorderAllFrom depth b := by
  induction a with
  | nil => rfl
  | cons m rest ih => rw [List.cons_append, preorderAllFrom, preorderAllFrom, ih, List.append_assoc]

/-- Every property holds everywhere in an empty forest. -/
theorem Everywhere.nil : Everywhere P ([] : List (Match Id)) := nofun

/-- What follows from a property that holds everywhere holds everywhere. -/
theorem Everywhere.mono {Q : Span → Prop} (hPQ : ∀ span, P span → Q span)
    (ha : Everywhere P a) : Everywhere Q a :=
  fun depth x hx => hPQ _ (ha depth x hx)

/-- A property that holds everywhere in two forests holds everywhere in both together. -/
theorem Everywhere.append (ha : Everywhere P a) (hb : Everywhere P b) : Everywhere P (a ++ b) := by
  intro depth x hx
  rw [preorderAllFrom_append] at hx
  rcases List.mem_append.1 hx with hx | hx
  · exact ha depth x hx
  · exact hb depth x hx

/-- A property that holds everywhere in a forest, and of a span, holds everywhere in a match of
that span around the forest. -/
theorem Everywhere.wrap {span : Span} (id : Id) (hspan : P span) (ha : Everywhere P a) :
    Everywhere P [⟨id, span, a⟩] := by
  intro depth x hx
  simp only [preorderAllFrom, preorderFrom, List.append_nil, List.mem_cons] at hx
  rcases hx with rfl | hx
  · exact hspan
  · exact ha (depth + 1) x hx

/-- A match is the first of its own matches. -/
theorem mem_preorderFrom (depth : Nat) (m : Match Id) : (depth, m) ∈ preorderFrom depth m := by
  cases m
  exact List.mem_cons_self

/-- The outermost matches come with depth zero. -/
theorem mem_preorder {m : Match Id} {forest : List (Match Id)} (h : m ∈ forest) :
    (0, m) ∈ preorder forest := by
  induction forest with
  | nil => cases h
  | cons n rest ih =>
    rcases List.mem_cons.1 h with rfl | h
    · exact List.mem_append_left _ (mem_preorderFrom 0 m)
    · exact List.mem_append_right _ (ih h)

end Match

/-- A stretch of a source between two boundaries. -/
structure Span.OnBoundaries (s : Source α) (span : Span) : Prop where
  ordered : span.start ≤ span.stop
  start : s.Boundary span.start
  stop : s.Boundary span.stop

/-- A syntax error at a boundary, with boundaries around what was skipped. -/
structure SyntaxError.OnBoundaries (s : Source α) (e : SyntaxError Id) : Prop where
  position : s.Boundary e.position
  skipped : e.skipped.OnBoundaries s

/-- An effect that reaches a boundary and records nothing but boundaries. -/
structure Effect.OnBoundaries (s : Source α) (a : Effect Id) : Prop where
  reach : s.Boundary a.reach
  forest : Match.Everywhere (Span.OnBoundaries s) a.forest
  errors : ∀ e ∈ a.errors, e.OnBoundaries s

/-- All that is recorded in a run is on boundaries. -/
theorem Effect.onBoundaries_invariant (s : Source α) :
    Effect.Invariant s fun _ (a : Effect Id) => a.OnBoundaries s where
  jump := by
    intro pos stop _ hstop _
    exact ⟨hstop, .nil, nofun⟩
  andThen := by
    intro pos a b _ _ ha hb
    exact ⟨max_rec' s.Boundary ha.reach hb.reach, ha.forest.append hb.forest,
      List.forall_mem_append.2 ⟨ha.errors, hb.errors⟩⟩
  undo := by
    intro pos stop a _ _ _ _ _ ha
    exact ⟨ha.reach, .nil, nofun⟩
  wrap := by
    intro pos a id hpos hwithin ha
    exact ⟨ha.reach, ha.forest.wrap id ⟨hwithin.le_stop, hpos, hwithin.boundary⟩, ha.errors⟩
  recovered := by
    intro pos a b id hpos _ hwithin ha hb
    refine ⟨max_rec' s.Boundary ha.reach hb.reach, hb.forest, ?_⟩
    refine List.forall_mem_append.2 ⟨hb.errors, List.forall_mem_singleton.2 ⟨ha.reach, ?_⟩⟩
    exact ⟨Nat.le_max_left _ _, hpos, max_rec' s.Boundary hpos hwithin.boundary⟩
  note := by
    intro pos a _ ha
    exact ⟨ha.reach, ha.forest, ha.errors⟩
  again := by
    intro pos a hwithin ha
    exact ⟨hwithin.boundary, ha.forest, ha.errors⟩

/-! ## Cutting a text -/

/-- A byte offset at which a text can be cut. -/
def Text.Cut (text : String) (offset : Nat) : Prop :=
  offset ≤ Text.size text.toList ∧ Text.isBoundary text.toList offset = true

/-- A stretch that can be cut out of a text. -/
structure Span.Cut (text : String) (span : Span) : Prop where
  ordered : span.start ≤ span.stop
  start : Text.Cut text span.start
  stop : Text.Cut text span.stop

/-- To cut a row twice is to cut it once. -/
theorem Row.drop?_add {width : α → Nat} {m : Nat} (n : Nat) {row rest : List α}
    (h : drop? width m row = some rest) : drop? width (m + n) row = drop? width n rest := by
  fun_induction drop? width m row with
  | case1 row =>
    cases h
    rw [Nat.zero_add]
  | case2 => cases h
  | case3 m a row hle ih =>
    have hsum : m + 1 + n = m + n + 1 := by omega
    have hle' : width a ≤ m + n + 1 := by omega
    have hsub : m + n + 1 - width a = m + 1 - width a + n := by omega
    rw [hsum, drop?, if_pos hle', hsub]
    exact ih h
  | case4 => cases h

section cut

variable {text : String} {p : Nat}

/-- The boundaries of a text are those between its characters. -/
theorem Source.boundary_ofText_iff :
    (Source.ofText text).Boundary p ↔ Text.isBoundary text.toList p = true :=
  Option.isSome_iff_exists.symm

/-- A text can be cut at a boundary. -/
theorem Source.Boundary.cut (h : (Source.ofText text).Boundary p) : Text.Cut text p :=
  ⟨h.le_size.trans_eq (Source.size_eq _), Source.boundary_ofText_iff.1 h⟩

/-- A text can be cut at the ends of a span that are boundaries. -/
theorem Span.OnBoundaries.cut {span : Span} (h : span.OnBoundaries (.ofText text)) :
    span.Cut text :=
  ⟨h.ordered, h.start.cut, h.stop.cut⟩

/-- Between two offsets at which a text can be cut lies a text. -/
theorem Span.Cut.text?_isSome {span : Span} (h : span.Cut text) :
    (span.text? text).isSome = true := by
  obtain ⟨rest, hrest⟩ := Option.isSome_iff_exists.1 h.start.2
  obtain ⟨last, hlast⟩ := Option.isSome_iff_exists.1 h.stop.2
  rw [← Nat.add_sub_of_le h.ordered, Row.drop?_add _ hrest] at hlast
  obtain ⟨part, hpart, -, -⟩ := Row.take?_append_drop? hlast
  simp [Span.text?, Row.slice?, h.ordered, hrest, hpart]

end cut

/-! ## Messages -/

namespace Diagnostic

variable {text : String} {p : Nat}

/-- At an offset at which the text can be cut there is a place, and there is a message about it
unless its column is beyond the widest field. -/
theorem render?_isSome_iff (d : Diagnostic) (htext : d.text = text.toList)
    (hcut : Text.Cut text d.position) :
    ∃ place, Text.place? text.toList d.position = some place ∧
      (d.render?.isSome = true ↔ place.column ≤ Text.maxWidth) := by
  obtain ⟨after, hafter⟩ := Option.isSome_iff_exists.1 hcut.2
  obtain ⟨before, hbefore, -, -⟩ := Row.take?_append_drop? hafter
  have htake : Text.take? d.position text.toList = some before := hbefore
  have hdrop : Text.drop? d.position text.toList = some after := hafter
  refine ⟨Text.Place.after before, ?_, ?_⟩
  · rw [Text.place?, Nat.min_eq_left hcut.1, htake, Option.map_some]
  · rw [render?, htext, htake, hdrop]
    by_cases hwidth : (Text.Place.after before).column ≤ Text.maxWidth
    · simp [hwidth]
    · simp [hwidth]

/-- The message at an offset is about the offset, if the text can be cut there. -/
theorem position_atOffset (hcut : Text.Cut text p) : (atOffset text p).position = p :=
  Nat.min_eq_right hcut.1

/-- The message about an outcome. -/
theorem ofOutcome_isSome_iff {o : Outcome Id} (hcut : Text.Cut text o.furthest) :
    ∃ place, Text.place? text.toList o.furthest = some place ∧
      ((ofOutcome text o).render?.isSome = true ↔ place.column ≤ Text.maxWidth) := by
  have hposition : (ofOutcome text o).position = o.furthest := position_atOffset hcut
  rw [← hposition] at hcut ⊢
  exact render?_isSome_iff _ rfl hcut

/-- The message about a syntax error. -/
theorem ofSyntaxError_isSome_iff (display : Id → String) {e : SyntaxError Id}
    (hcut : Text.Cut text e.position) :
    ∃ place, Text.place? text.toList e.position = some place ∧
      ((ofSyntaxError display text e).render?.isSome = true ↔ place.column ≤ Text.maxWidth) := by
  have hposition : (ofSyntaxError display text e).position = e.position := position_atOffset hcut
  rw [← hposition] at hcut ⊢
  exact render?_isSome_iff _ rfl hcut

end Diagnostic

/-! ## Outcomes over texts -/

/-- Everything in an outcome can be cut out of the text, and a message exists if its column is not
beyond the widest field. -/
structure Outcome.Sliceable (text : String) (o : Outcome Id) : Prop where
  stop : Text.Cut text o.stop
  furthest : Text.Cut text o.furthest
  /-- The span of every match, at every depth, and its text. -/
  forest : ∀ depth m, (depth, m) ∈ Match.preorder o.forest →
    m.span.Cut text ∧ (m.span.text? text).isSome = true
  /-- The position of every error, what was skipped and its text. -/
  errors : ∀ e ∈ o.errors,
    Text.Cut text e.position ∧ e.skipped.Cut text ∧ (e.skipped.text? text).isSome = true
  /-- The message about the outcome. -/
  message : ∃ place, Text.place? text.toList o.furthest = some place ∧
    ((Diagnostic.ofOutcome text o).render?.isSome = true ↔ place.column ≤ Text.maxWidth)
  /-- The messages about its errors. -/
  messages : ∀ (display : Id → String), ∀ e ∈ o.errors,
    ∃ place, Text.place? text.toList e.position = some place ∧
      ((Diagnostic.ofSyntaxError display text e).render?.isSome = true ↔
        place.column ≤ Text.maxWidth)

/-- What is on boundaries can be cut out. -/
theorem Effect.OnBoundaries.sliceable {text : String} {a : Effect Id} {pos : Nat}
    (h : a.OnBoundaries (.ofText text)) (hwithin : a.Within (.ofText text) pos) (v : Verdict)
    (toEnd : Bool) : (a.outcome (.ofText text) v toEnd).Sliceable text where
  stop := hwithin.boundary.cut
  furthest := h.reach.cut
  forest := by
    intro depth m hm
    have hcut := (h.forest 0 _ hm).cut
    exact ⟨hcut, hcut.text?_isSome⟩
  errors := by
    intro e he
    have hcut := (h.errors e he).skipped.cut
    exact ⟨(h.errors e he).position.cut, hcut, hcut.text?_isSome⟩
  message := Diagnostic.ofOutcome_isSome_iff h.reach.cut
  messages := by
    intro display e he
    exact Diagnostic.ofSyntaxError_isSome_iff display (h.errors e he).position.cut

/-- So all matches that were found have a bracketed form. -/
theorem Outcome.Sliceable.exists_bracketed {text : String} {o : Outcome Id} (h : o.Sliceable text)
    (display : Id → String) : ∃ forms, Match.bracketed display text o.forest = .ok forms := by
  rw [Match.bracketed_isOk]
  intro span hleaf
  obtain ⟨⟨depth, m⟩, hm, rfl⟩ := Match.exists_preorderAll_of_leaf 0 o.forest hleaf
  exact (h.forest depth m hm).2

namespace Grammar

/-- Everything that a parse over a text reports can be cut out of the text, and so can the tokens of
a text. -/
theorem outcome_sliceable (g : Grammar Char Id) (start : Expr Char Id) (hg : g.isPlain = true)
    (hstart : start.isPlain = true) (text : String) :
    (∀ toEnd o, (g.parseLogged (.ofText text) start toEnd).1 = .ok o → o.Sliceable text) ∧
      ∀ cut, (Token.tokenize g text start).1 = .ok cut →
        ∀ token ∈ cut.tokens, (token.span.text? text).isSome = true := by
  have houtcome : ∀ toEnd o, (g.parseLogged (.ofText text) start toEnd).1 = .ok o →
      o.Sliceable text := by
    intro toEnd o ho
    obtain ⟨v, a, hwithin, hboundaries, rfl⟩ :=
      outcome_keeps (Effect.onBoundaries_invariant _) hg hstart ho
    exact hboundaries.sliceable hwithin v toEnd
  refine ⟨houtcome, fun cut hcut token htoken => ?_⟩
  cases hparse : g.parseLogged (.ofText text) start true with
  | mk result log =>
  cases result with
  | error e => simp [Token.tokenize, hparse] at hcut
  | ok o =>
    simp only [Token.tokenize, hparse, Except.ok.injEq] at hcut
    subst hcut
    obtain ⟨m, hm, rfl⟩ := List.mem_map.1 htoken
    have hsliceable := houtcome true o (by rw [hparse])
    exact (hsliceable.forest 0 m (Match.mem_preorder hm)).2

/-- Behind a character of two bytes that is skipped, the rest is one match, which is one token. -/
theorem outcome_sliceable_entangled :
    let start : Expr Char Nat :=
      .sequence [.recover (.sequence [.element 'é', .element 'z']) 9 (.skipBefore (.element 'y')),
        .rule 0]
    entangled.isPlain = true ∧ start.isPlain = true ∧
      (∃ o, (entangled.parseLogged (.ofText "éyxzx") start true).1 = .ok o ∧
        o.stop = 6 ∧ o.errors = [.record 9 2 ⟨0, 2⟩] ∧ o.Sliceable "éyxzx") ∧
      ∃ cut, (Token.tokenize entangled "éyxzx" start).1 = .ok cut ∧ cut.tokens = [⟨0, ⟨2, 6⟩⟩] ∧
        ∀ token ∈ cut.tokens, (token.span.text? "éyxzx").isSome = true := by
  intro start
  have hstart : start.isPlain = true := by decide
  obtain ⟨hsliceable, htokens⟩ := outcome_sliceable entangled start (by decide) hstart "éyxzx"
  have hrun : ((entangled.parseLogged (.ofText "éyxzx") start true).1.toOption.map
      fun o => (o.stop, o.errors)) = some (6, [.record 9 2 ⟨0, 2⟩]) := by decide +kernel
  have hcut : ((Token.tokenize entangled "éyxzx" start).1.toOption.map
      fun cut => cut.tokens) = some [⟨0, ⟨2, 6⟩⟩] := by decide +kernel
  refine ⟨by decide, hstart, ?_, ?_⟩
  · cases hparse : (entangled.parseLogged (.ofText "éyxzx") start true).1 with
    | error e => simp [hparse, Except.toOption] at hrun
    | ok o =>
      obtain ⟨hstop, herrors⟩ : o.stop = 6 ∧ o.errors = [.record 9 2 ⟨0, 2⟩] := by
        simpa [hparse, Except.toOption] using hrun
      exact ⟨o, rfl, hstop, herrors, hsliceable true o hparse⟩
  · cases hparse : (Token.tokenize entangled "éyxzx" start).1 with
    | error e => simp [hparse, Except.toOption] at hcut
    | ok cut =>
      have hsome : cut.tokens = [⟨0, ⟨2, 6⟩⟩] := by simpa [hparse, Except.toOption] using hcut
      exact ⟨cut, rfl, hsome, htokens cut hparse⟩

end Grammar

/-! ## A message that does not exist -/

namespace Source

variable [DecidableEq α] {s : Source α} {p : Nat} {row rest : List α}

/-- The elements that follow are what a literal of them asks for. -/
theorem passes_elements (h : s.remaining? p = some (row ++ rest)) :
    s.passes p (row.map fun a b => decide (b = a)) = true := by
  induction row generalizing p with
  | nil => rfl
  | cons a row ih =>
    have hat := elementAt_of_remaining? h
    simp only [List.cons_append, List.head?_cons, Option.map_some] at hat
    simp only [List.map_cons, passes, hat, decide_true, Bool.true_and]
    exact ih (remaining?_add_width h)

end Source

/-- A text that is parsed as itself is matched to its end. -/
theorem Grammar.parseLogged_text (g : Grammar Char Id) (hg : g.isPlain = true)
    (hvalid : g.validate = .ok ()) (text : String) (toEnd : Bool) :
    (g.parseLogged (.ofText text) (.text text) toEnd).1 =
      .ok ⟨true, [], Text.size text.toList, Text.size text.toList, []⟩ := by
  let s := Source.ofText text
  let n := Text.size text.toList
  have hall : s.remaining? 0 = some (text.toList ++ []) := by
    rw [List.append_nil]
    exact Source.remaining?_eq_some_iff.2 ⟨[], rfl, rfl⟩
  have hwalk : s.walk 0 text.toList.length = n := by
    rw [Source.walk_eq_add_size hall, List.append_nil, List.take_length, Nat.zero_add]
    rfl
  have hreads : Reads s 0 (Expr.text text : Expr Char Id) (some n) := by
    have hliteral : Reads s 0 (Expr.text text : Expr Char Id) _ := .literal _
    rwa [if_pos (Source.passes_elements hall), List.length_map, hwalk] at hliteral
  have hrun : Runs s (g.Derives Invokes s 0 []) (.expr (.text text)) 0 .ok (.jump n) :=
    .reads hreads
  have heq := (first_proper g s).parser_eq hg rfl hrun
  rw [parseLogged_of_run hvalid (Or.inl rfl) heq toEnd]
  have hend : s.size = n := Source.size_eq s
  simp [Effect.outcome, Effect.jump, s, n, hend]

/-- On a text of a single line, every character is one column. -/
theorem Text.Place.after_line {text : List Char} (h : '\n' ∉ text) :
    after text = ⟨1, text.length + 1⟩ := by
  rw [after_eq, lastLine_of_notMem h, List.count_eq_zero.2 h]

/-- The end of a text has the place after the text. -/
theorem Text.place?_size (text : List Char) :
    place? text (size text) = some (Place.after text) := by
  have hwhole : take? (size text) text = some text := by
    have htake := Row.take?_size_append Char.utf8Size_pos text []
    rwa [List.append_nil] at htake
  rw [place?, Nat.min_self, hwhole, Option.map_some]

/-- A line with as many characters as the widest field. -/
def Text.longLine : String := String.ofList (List.replicate maxWidth 'a')

namespace Grammar

/-- A text of a single line that has as many characters as the widest field: parsed as itself, it
has an outcome, and there is no message about that outcome. -/
theorem no_message_of_longLine (text : String) (hline : '\n' ∉ text.toList)
    (hlong : Text.maxWidth ≤ text.toList.length) :
    ∃ o : Outcome Id, (empty : Grammar Char Id).parse (.ofText text) (.text text) = .ok o ∧
      o.success = true ∧ (Diagnostic.ofOutcome text o).render? = none := by
  let o : Outcome Id := ⟨true, [], Text.size text.toList, Text.size text.toList, []⟩
  have hcut : Text.Cut text o.furthest := by
    have hend := (Source.ofText text).boundary_size.cut
    rwa [Source.size_eq] at hend
  obtain ⟨place, hplace, hmessage⟩ := Diagnostic.ofOutcome_isSome_iff hcut
  have hend : place = ⟨1, text.toList.length + 1⟩ := by
    rw [← Text.Place.after_line hline]
    exact Option.some.inj (hplace.symm.trans (Text.place?_size text.toList))
  refine ⟨o, parseLogged_text empty rfl rfl text true, rfl, ?_⟩
  rw [← Option.not_isSome_iff_eq_none, hmessage, hend]
  exact Nat.not_le.2 (Nat.lt_succ_of_le hlong)

/-- A line of 65535 characters is parsed as itself, and there is no message about it. -/
theorem no_message_longLine :
    ∃ o : Outcome Nat, (empty : Grammar Char Nat).parse (.ofText Text.longLine)
        (.text Text.longLine) = .ok o ∧ o.success = true ∧
      (Diagnostic.ofOutcome Text.longLine o).render? = none := by
  have hletters : Text.longLine.toList = List.replicate Text.maxWidth 'a' := String.toList_ofList
  apply no_message_of_longLine
  · rw [hletters]
    exact fun hmem => absurd (List.eq_of_mem_replicate hmem) (by decide)
  · rw [hletters, List.length_replicate]

end Grammar

end Peg
