import Mathlib.Logic.Function.Basic
import Peg.Proofs.Plain
import Peg.Token

/-!
# A parse sees of an element what the tests see of it

All that a plain expression does with an element is to test it. If its tests see the elements
through a view only (`Expr.SeesOnly`), two sources that look alike through that view
(`Source.AlikeThrough`) cannot be told apart, not by an outcome and not by a log: the parsers of the
expression over the two sources are one function (`Expr.SeesOnly.parser_eq`), so nothing has to be
related state by state. The rules of a grammar follow by recursion on the bound
(`Grammar.SeesOnly.call_eq`), and parses with them (`Grammar.SeesOnly.parseLogged_eq`).

Tokens are the case in point. The second stage of a parse tests them for their names, and so it does
not depend on where they stand in the text: `Grammar.parse_sees_names`.
-/

namespace Peg

variable {α β Id K : Type}

/-! ## The tests of an expression -/

mutual

/-- The tests that an expression makes on elements, those of scripts aside. -/
def Expr.tests : Expr α Id → List (α → Bool)
  | .satisfy test => [test]
  | .literal tests => tests
  | .endOfInput => []
  | .rule _ => []
  | .sequence items => Expr.allTests items
  | .choice items => Expr.allTests items
  | .group e => e.tests
  | .star e => e.tests
  | .plus e => e.tests
  | .optional e => e.tests
  | .ahead e => e.tests
  | .notAhead e => e.tests
  | .times e _ => e.tests
  | .tag e _ => e.tests
  | .recover e _ fallback => e.tests ++ fallback.tests
  | .skipBefore token => token.tests
  | .skipPast token => token.tests
  | .script _ => []
termination_by structural e => e

/-- The tests that the expressions of a list make on elements. -/
def Expr.allTests : List (Expr α Id) → List (α → Bool)
  | [] => []
  | e :: rest => e.tests ++ Expr.allTests rest
termination_by structural items => items

end

/-- The tests of a list are those of its expressions. -/
theorem Expr.mem_allTests {test : α → Bool} {items : List (Expr α Id)} :
    test ∈ Expr.allTests items ↔ ∃ e ∈ items, test ∈ e.tests := by
  induction items with
  | nil => simp [Expr.allTests]
  | cons e rest ih => simp [Expr.allTests, ih]

/-- An expression whose tests see of an element no more than its view. -/
def Expr.SeesOnly (view : α → β) (e : Expr α Id) : Prop :=
  ∀ test ∈ e.tests, Function.FactorsThrough test view

/-- A grammar whose rules see of an element no more than its view. -/
def Grammar.SeesOnly (view : α → β) (g : Grammar α Id) : Prop :=
  ∀ i e, g.body? i = some e → e.SeesOnly view

namespace Expr.SeesOnly

variable {view : α → β}

/-- Any element may be asked for, whatever the view. -/
theorem any : (any : Expr α Id).SeesOnly view := by
  intro test htest a b _
  rw [List.mem_singleton.1 htest]

/-- The end of the source is told without looking at elements. -/
theorem endOfInput : (Expr.endOfInput : Expr α Id).SeesOnly view := nofun

/-- A reference makes no tests of its own. -/
theorem rule (i : Nat) : (Expr.rule i : Expr α Id).SeesOnly view := nofun

/-- The test of a token for its name sees the name only. -/
theorem token [DecidableEq K] (id : K) : (Expr.token id : Expr (Token K) Id).SeesOnly Token.id := by
  intro test htest a b hid
  rw [List.mem_singleton.1 htest]
  simp only [hid]

/-- The items of a sequence or a choice see no more than it does. -/
theorem of_mem {e : Expr α Id} {items : List (Expr α Id)} (he : e ∈ items)
    (h : ∀ test ∈ Expr.allTests items, Function.FactorsThrough test view) : e.SeesOnly view :=
  fun test htest => h test (Expr.mem_allTests.2 ⟨e, he, htest⟩)

/-- A sequence sees no more than its items do. -/
theorem sequence {items : List (Expr α Id)} (h : ∀ e ∈ items, e.SeesOnly view) :
    (Expr.sequence items).SeesOnly view := by
  intro test htest
  obtain ⟨e, he, htest⟩ := Expr.mem_allTests.1 htest
  exact h e he test htest

/-- A choice sees no more than its alternatives do. -/
theorem choice {items : List (Expr α Id)} (h : ∀ e ∈ items, e.SeesOnly view) :
    (Expr.choice items).SeesOnly view :=
  sequence h

/-- A recovery sees no more than its primary and its fallback do. -/
theorem recover {e f : Expr α Id} (id : Id) (he : e.SeesOnly view) (hf : f.SeesOnly view) :
    (Expr.recover e id f).SeesOnly view := by
  intro test htest
  rcases List.mem_append.1 htest with htest | htest
  · exact he test htest
  · exact hf test htest

end Expr.SeesOnly

/-! ## Sources that look alike -/

/-- Sources with the same positions, where the same can be seen of the elements at each of them. -/
structure Source.AlikeThrough (view : α → β) (s s' : Source α) : Prop where
  size_eq : s.size = s'.size
  elementAt_eq : ∀ p, (s.elementAt p).map (Prod.map view id) =
    (s'.elementAt p).map (Prod.map view id)

namespace Source.AlikeThrough

variable {view : α → β} {s s' : Source α}

/-- Where an element starts in one source, one that looks alike starts in the other. -/
theorem cases (h : s.AlikeThrough view s') (p : Nat) :
    (s.elementAt p = none ∧ s'.elementAt p = none) ∨
      ∃ a a' w, s.elementAt p = some (a, w) ∧ s'.elementAt p = some (a', w) ∧ view a = view a' := by
  have heq := h.elementAt_eq p
  cases hat : s.elementAt p with
  | none =>
    rw [hat] at heq
    exact Or.inl ⟨rfl, by simpa using heq.symm⟩
  | some x =>
    cases hat' : s'.elementAt p with
    | none => simp [hat, hat'] at heq
    | some x' =>
      obtain ⟨hview, hwidth⟩ : view x.1 = view x'.1 ∧ x.2 = x'.2 := by
        simpa [hat, hat', Prod.ext_iff] using heq
      exact Or.inr ⟨x.1, x'.1, x.2, rfl, by rw [hwidth], hview⟩

/-- Walking leads to the same places in sources that look alike. -/
theorem walk_eq (h : s.AlikeThrough view s') (p n : Nat) : s.walk p n = s'.walk p n := by
  induction n generalizing p with
  | zero => rfl
  | succ n ih =>
    obtain ⟨hat, hat'⟩ | ⟨a, a', w, hat, hat', -⟩ := h.cases p
    · simp only [Source.walk, hat, hat']
    · simp only [Source.walk, hat, hat', ih]

/-- Tests that see no more than the view come out alike in sources that look alike. -/
theorem passes_eq (h : s.AlikeThrough view s') {tests : List (α → Bool)}
    (htests : ∀ test ∈ tests, Function.FactorsThrough test view) (p : Nat) :
    s.passes p tests = s'.passes p tests := by
  induction tests generalizing p with
  | nil => rfl
  | cons test tests ih =>
    obtain ⟨htest, hrest⟩ := List.forall_mem_cons.1 htests
    obtain ⟨hat, hat'⟩ | ⟨a, a', w, hat, hat', hview⟩ := h.cases p
    · simp only [Source.passes, hat, hat']
    · simp only [Source.passes, hat, hat', htest hview, ih hrest]

/-- Sources that look alike have input left in the same states. -/
theorem hasInput_eq (h : s.AlikeThrough view s') :
    (State.hasInput s : State Id → Bool) = State.hasInput s' := by
  unfold State.hasInput
  rw [h.size_eq]

/-- Sources that look alike are at their end in the same states. -/
theorem atEnd_eq (h : s.AlikeThrough view s') :
    (State.atEnd s : State Id → Bool) = State.atEnd s' := by
  unfold State.atEnd
  rw [h.hasInput_eq]

/-- The cursor is set alike in sources that look alike. -/
theorem setPosition_eq (h : s.AlikeThrough view s') :
    (State.setPosition s : Nat → State Id → State Id) = State.setPosition s' := by
  unfold State.setPosition
  rw [h.size_eq]

/-- The cursor advances alike in sources that look alike. -/
theorem advance_eq (h : s.AlikeThrough view s') :
    (State.advance s : Nat → State Id → State Id) = State.advance s' := by
  funext n st
  unfold State.advance
  rw [h.walk_eq]

end Source.AlikeThrough

/-! ## One parser over both sources -/

section parsers

variable {view : α → β} {s s' : Source α}

namespace Parser

/-- A test that sees no more than the view is the same parser on sources that look alike. -/
theorem satisfy_alike (h : s.AlikeThrough view s') {test : α → Bool}
    (htest : Function.FactorsThrough test view) :
    (satisfy s test : Parser Id) = satisfy s' test := by
  funext st
  unfold satisfy State.peek
  rw [h.advance_eq]
  obtain ⟨hat, hat'⟩ | ⟨a, a', w, hat, hat', hview⟩ := h.cases st.position
  · simp only [hat, hat', Option.map_none]
  · simp only [hat, hat', Option.map_some, htest hview]

/-- A literal whose tests see no more than the view is the same parser on sources that look
alike. -/
theorem literal_alike (h : s.AlikeThrough view s') {tests : List (α → Bool)}
    (htests : ∀ test ∈ tests, Function.FactorsThrough test view) :
    (literal s tests : Parser Id) = literal s' tests := by
  funext st
  unfold literal
  rw [h.advance_eq, h.passes_eq htests]

/-- The test for the end is the same parser on sources that look alike. -/
theorem endOfInput_alike (h : s.AlikeThrough view s') :
    (endOfInput s : Parser Id) = endOfInput s' := by
  unfold endOfInput
  rw [h.atEnd_eq]

/-- A recovery is the same parser on sources that look alike. -/
theorem recover_alike (h : s.AlikeThrough view s') (id : Id) (q p : Parser Id) :
    recover s id q p = recover s' id q p := by
  unfold recover
  rw [h.atEnd_eq]

/-- A scan is the same parser on sources that look alike. -/
theorem skip_alike (h : s.AlikeThrough view s') (past : Bool) (p : Parser Id) (n : Nat) :
    skip s past p n = skip s' past p n := by
  induction n with
  | zero => rfl
  | succ n ih =>
    unfold skip
    rw [h.atEnd_eq, h.setPosition_eq, h.advance_eq, ih]

/-- Growth rounds are the same on sources that look alike. -/
theorem growRounds_alike (h : s.AlikeThrough view s') (rule : Nat) (name : String) (p : Parser Id)
    (c : Checkpoint) (n k : Nat) :
    growRounds s rule name p c n k = growRounds s' rule name p c n k := by
  induction n generalizing k with
  | zero => rfl
  | succ n ih =>
    unfold growRounds
    rw [h.size_eq, ih]

/-- A rule is invoked alike on sources that look alike. -/
theorem invoke_alike (h : s.AlikeThrough view s') (b rule : Nat) (name : String) (p : Parser Id) :
    invoke s b rule name p = invoke s' b rule name p := by
  have hgrow : ∀ position, grow s b rule name position p = grow s' b rule name position p := by
    intro position
    unfold grow
    simp only [growRounds_alike h]
  unfold invoke enter
  simp only [hgrow]

end Parser

/-- The parser of a plain expression that sees no more than the view is the same function over
sources that look alike. -/
theorem Expr.SeesOnly.parser_eq (h : s.AlikeThrough view s') (size b : Nat)
    (call : Nat → Parser Id) (e : Expr α Id) (he : e.isPlain = true) (hsees : e.SeesOnly view) :
    e.parser ⟨s, size, b, call⟩ = e.parser ⟨s', size, b, call⟩ := by
  have hitems : ∀ items : List (Expr α Id), Expr.allPlain items = true →
      (∀ x ∈ items, x.isPlain = true → x.SeesOnly view →
        x.parser ⟨s, size, b, call⟩ = x.parser ⟨s', size, b, call⟩) →
      (∀ test ∈ Expr.allTests items, Function.FactorsThrough test view) →
      Expr.parsers ⟨s, size, b, call⟩ items = Expr.parsers ⟨s', size, b, call⟩ items := by
    intro items hplain hall hsees
    rw [Expr.parsers_eq_map, Expr.parsers_eq_map]
    apply List.map_congr_left
    intro x hx
    exact hall x hx ((Expr.allPlain_iff items).1 hplain x hx) (.of_mem hx hsees)
  induction e, he using Expr.plain_induction with
  | satisfy test => exact Parser.satisfy_alike h (hsees test List.mem_cons_self)
  | literal tests => exact Parser.literal_alike h hsees
  | endOfInput => exact Parser.endOfInput_alike h
  | rule i => rfl
  | sequence es hes ih => simp only [Expr.parser, hitems es hes ih hsees]
  | choice es hes ih => simp only [Expr.parser, hitems es hes ih hsees]
  | group e _ ih => exact ih hsees
  | star e _ ih => simp only [Expr.parser, ih hsees]
  | plus e _ ih => simp only [Expr.parser, ih hsees]
  | optional e _ ih => simp only [Expr.parser, ih hsees]
  | ahead e _ ih => simp only [Expr.parser, ih hsees]
  | notAhead e _ ih => simp only [Expr.parser, ih hsees]
  | times e n _ ih => simp only [Expr.parser, ih hsees]
  | tag e id _ ih => simp only [Expr.parser, ih hsees]
  | recover e id f _ _ _ ihe ihf =>
    have hfirst := ihe fun test htest => hsees test (List.mem_append_left _ htest)
    have hfallback := ihf fun test htest => hsees test (List.mem_append_right _ htest)
    simp only [Expr.parser, hfirst, hfallback, Parser.recover_alike h]
  | skipBefore e _ ih => simp only [Expr.parser, ih hsees, Parser.skip_alike h]
  | skipPast e _ ih => simp only [Expr.parser, ih hsees, Parser.skip_alike h]

/-! ## One parse over both sources -/

namespace Grammar.SeesOnly

variable {g : Grammar α Id}

/-- The rules do the same over sources that look alike, under every bound. -/
theorem call_eq (hsees : g.SeesOnly view) (hg : g.isPlain = true) (h : s.AlikeThrough view s')
    (b : Nat) : g.call s b = g.call s' b := by
  induction b with
  | zero => rfl
  | succ b ih =>
    funext i
    unfold call
    cases hbody : g.body? i with
    | none => rfl
    | some e =>
      have heq := (hsees i e hbody).parser_eq h g.size b (g.call s' b) e (isPlain_body hg hbody)
      simp only [ih, heq, Parser.invoke_alike h]

/-- A parse over one of two sources that look alike is a parse over the other. -/
theorem parseLogged_eq (hsees : g.SeesOnly view) (hg : g.isPlain = true) {start : Expr α Id}
    (hseesStart : start.SeesOnly view) (hstart : start.isPlain = true) (h : s.AlikeThrough view s')
    (toEnd : Bool) : g.parseLogged s start toEnd = g.parseLogged s' start toEnd := by
  have henough : g.enough s = g.enough s' := by
    unfold enough need
    rw [h.size_eq]
  have hparser : start.parser (g.setting s (g.enough s')) =
      start.parser (g.setting s' (g.enough s')) := by
    unfold setting
    rw [hsees.call_eq hg h]
    exact hseesStart.parser_eq h _ _ _ start hstart
  unfold parseLogged parseWithin
  rw [henough, hparser, h.size_eq, h.atEnd_eq]

end Grammar.SeesOnly

end parsers

/-! ## Rows and tokens -/

/-- Elements that take up one position each are laid out one after the other. -/
theorem Row.layout_one (row : List α) : layout (fun _ => 1) row = row.map some := by
  induction row with
  | nil => rfl
  | cons a rest ih => simp [layout, ih]

namespace Source

/-- A slice is as wide as it is long. -/
theorem size_ofList (row : List α) : (ofList row).size = row.length := by
  simp [size, ofList, ofElements, Row.layout_one]

/-- The element at an index of a slice is the one that the list has there. -/
theorem elementAt_ofList (row : List α) (p : Nat) :
    (ofList row).elementAt p = row[p]?.map fun a => (a, 1) := by
  rw [elementAt_eq]
  simp only [ofList, ofElements, Row.layout_one, List.getElem?_map]
  cases row[p]? <;> rfl

/-- Rows that look alike member by member are sources that look alike. -/
theorem alikeThrough_ofList {view : α → β} {row row' : List α}
    (h : row.map view = row'.map view) : (ofList row).AlikeThrough view (ofList row') where
  size_eq := by
    have hlength := congrArg List.length h
    rwa [List.length_map, List.length_map, ← size_ofList, ← size_ofList] at hlength
  elementAt_eq := by
    intro p
    have hview : row[p]?.map view = row'[p]?.map view := by
      rw [← List.getElem?_map, ← List.getElem?_map, h]
    have hshown : ∀ row : List α, ((ofList row).elementAt p).map (Prod.map view id) =
        (row[p]?.map view).map fun b => (b, 1) := by
      intro row
      rw [elementAt_ofList, Option.map_map, Option.map_map]
      rfl
    rw [hshown, hshown, hview]

end Source

namespace Grammar

/-- Sums of numbers, as tokens: a number has the name 1, and a plus sign the name 2. -/
def tokenSums : Grammar (Token Nat) Nat where
  rules := [⟨"sum", some (.choice [.tag (.sequence [.rule 0, .token 2, .token 1]) 7, .token 1])⟩]

/-- Tokens that are tested for their names only are parsed alike wherever they stand in the text:
over two rows of tokens with the same names, parses have the same outcome and the same log. -/
theorem parse_sees_names (g : Grammar (Token K) Id) (start : Expr (Token K) Id)
    (hg : g.isPlain = true) (hstart : start.isPlain = true) (hsees : g.SeesOnly Token.id)
    (hseesStart : start.SeesOnly Token.id) (tokens tokens' : List (Token K))
    (hids : tokens.map Token.id = tokens'.map Token.id) (toEnd : Bool) :
    g.parseLogged (.ofList tokens) start toEnd = g.parseLogged (.ofList tokens') start toEnd :=
  hsees.parseLogged_eq hg hseesStart hstart (Source.alikeThrough_ofList hids) toEnd

/-- A sum of three numbers with a stray token behind it, written with and without blanks. -/
theorem parse_sees_names_tokenSums :
    let start : Expr (Token Nat) Nat :=
      .sequence [.rule 0, .recover .endOfInput 9 (.skipBefore .endOfInput)]
    let dense : List (Token Nat) :=
      [⟨1, ⟨0, 1⟩⟩, ⟨2, ⟨1, 2⟩⟩, ⟨1, ⟨2, 3⟩⟩, ⟨2, ⟨3, 4⟩⟩, ⟨1, ⟨4, 5⟩⟩, ⟨3, ⟨5, 6⟩⟩]
    let spaced : List (Token Nat) :=
      [⟨1, ⟨2, 5⟩⟩, ⟨2, ⟨6, 7⟩⟩, ⟨1, ⟨9, 11⟩⟩, ⟨2, ⟨11, 12⟩⟩, ⟨1, ⟨20, 24⟩⟩, ⟨3, ⟨24, 24⟩⟩]
    tokenSums.isPlain = true ∧ start.isPlain = true ∧ tokenSums.SeesOnly Token.id ∧
      start.SeesOnly Token.id ∧ dense.map Token.id = spaced.map Token.id ∧
      tokenSums.parseLogged (.ofList dense) start true =
        tokenSums.parseLogged (.ofList spaced) start true ∧
      (tokenSums.parseLogged (.ofList spaced) start true).1.toOption =
        some ⟨true, [⟨7, ⟨0, 5⟩, [⟨7, ⟨0, 3⟩, []⟩]⟩], 6, 6, [.record 9 5 ⟨5, 6⟩]⟩ := by
  intro start dense spaced
  have hsees : tokenSums.SeesOnly Token.id := by
    rintro (_ | i) e he
    · cases he
      have hsum : (Expr.sequence [.rule 0, .token 2, .token 1] :
          Expr (Token Nat) Nat).SeesOnly Token.id := by
        apply Expr.SeesOnly.sequence
        simp [Expr.SeesOnly.token, Expr.SeesOnly.rule]
      apply Expr.SeesOnly.choice
      exact List.forall_mem_cons.2 ⟨hsum, List.forall_mem_singleton.2 (.token 1)⟩
    · cases he
  have hseesStart : start.SeesOnly Token.id := by
    have hskip : (Expr.skipBefore .endOfInput : Expr (Token Nat) Nat).SeesOnly Token.id := nofun
    apply Expr.SeesOnly.sequence
    refine List.forall_mem_cons.2 ⟨.rule 0, List.forall_mem_singleton.2 ?_⟩
    exact .recover 9 .endOfInput hskip
  have hids : dense.map Token.id = spaced.map Token.id := rfl
  exact ⟨by decide, by decide, hsees, hseesStart, hids,
    parse_sees_names tokenSums start (by decide) (by decide) hsees hseesStart dense spaced hids
      true, by decide +kernel⟩

end Grammar

end Peg
