import Peg.Expr.Element
import Peg.Expr.Operator
import Peg.Expr.Parser
import Peg.Proofs.Cursor

/-!
# Literals spelled out

A literal stands for its elements one after the other, and there are two ways to parse that. The
parser of a literal looks at all of the elements first and moves only if each of them passes its
test; a sequence of tests moves over one element after the other and goes back if one of them does
not pass. `Expr.literal_spelled_out` compares the two in every state whose cursor is not beyond the
furthest position.

* They come out alike, and leave the cursor and the records alike. If they match, they leave the
  same state. The literal looks ahead by the widths of the elements that it finds and then moves
  over as many elements as it has tests; both end at the same place, however wide the elements are
  that the tests were made for.
* If they do not match, the literal leaves the state as it was, the furthest position included. The
  sequence leaves the furthest position where the first element is that does not pass
  (`Parser.inOrder_satisfy_mismatch`).

The cursor must not be beyond the furthest position for the sake of the empty literal, which takes
the position of the cursor into account; the empty sequence does not.
-/

namespace Peg

variable {α Id : Type}

/-! ## Tests one after the other -/

/-- A move over no element leaves the state as it is, unless the cursor is beyond the furthest
position. -/
theorem State.advance_zero (s : Source α) {st : State Id} (h : st.position ≤ st.furthest) :
    st.advance s 0 = st := by
  simp [advance, Source.walk, Nat.max_eq_left h]

/-- After an advance, the cursor is not beyond the furthest position. -/
theorem State.position_le_furthest_advance (s : Source α) (n : Nat) (st : State Id) :
    (st.advance s n).position ≤ (st.advance s n).furthest :=
  Nat.le_max_right _ _

namespace Parser

variable {s : Source α} {st : State Id} {test : α → Bool} {tests : List (α → Bool)} {a : α}
  {w : Nat}

/-- A test that the element at the cursor passes advances by that element. -/
theorem satisfy_ok (hat : s.elementAt st.position = some (a, w)) (ha : test a = true) :
    satisfy s test st = (.ok, st.advance s 1) := by
  simp [satisfy, State.peek, hat, ha]

/-- A test that fails at the cursor changes nothing. -/
theorem satisfy_mismatch (h : s.passes st.position [test] = false) :
    satisfy s test st = (.mismatch, st) := by
  unfold Source.passes at h
  cases hat : s.elementAt st.position with
  | none => simp [satisfy, State.peek, hat]
  | some x =>
    simp only [hat, Source.passes, Bool.and_true] at h
    simp [satisfy, State.peek, hat, h]

/-- Advancing by one element moves the cursor by its width. -/
theorem position_advance_one (hat : s.elementAt st.position = some (a, w)) :
    (st.advance s 1).position = st.position + w := by
  simp [State.advance, Source.walk, hat]

/-- If all elements pass, the tests move over them one by one, as a single move does. -/
theorem inOrder_satisfy_ok (hreach : st.position ≤ st.furthest)
    (h : s.passes st.position tests = true) :
    inOrder (tests.map (satisfy s)) st = (.ok, st.advance s tests.length) := by
  induction tests generalizing st with
  | nil => exact congrArg (Prod.mk Verdict.ok) (State.advance_zero s hreach).symm
  | cons test tests ih =>
    unfold Source.passes at h
    cases hat : s.elementAt st.position with
    | none => simp [hat] at h
    | some x =>
      simp only [hat, Bool.and_eq_true] at h
      rw [← position_advance_one hat] at h
      have hrest := ih (st.position_le_furthest_advance s 1) h.2
      simp only [List.map_cons, inOrder, satisfy_ok hat h.1, hrest, State.advance_advance,
        List.length_cons, Nat.add_comm 1]

/-- If not all elements pass, the tests move over those before the first one that does not. -/
theorem inOrder_satisfy_mismatch (hreach : st.position ≤ st.furthest)
    (h : s.passes st.position tests = false) :
    ∃ n, s.passes st.position (tests.take n) = true ∧
      s.passes st.position (tests.take (n + 1)) = false ∧
      inOrder (tests.map (satisfy s)) st = (.mismatch, st.advance s n) := by
  induction tests generalizing st with
  | nil => cases h
  | cons test tests ih =>
    by_cases hfirst : s.passes st.position [test] = true
    · unfold Source.passes at h hfirst
      cases hat : s.elementAt st.position with
      | none => simp [hat] at hfirst
      | some x =>
        simp only [hat, Source.passes, Bool.and_true] at hfirst
        simp only [hat, hfirst, Bool.true_and] at h
        rw [← position_advance_one hat] at h
        obtain ⟨n, hpass, hfail, hrest⟩ := ih (st.position_le_furthest_advance s 1) h
        rw [position_advance_one hat] at hpass hfail
        refine ⟨n + 1, ?_, ?_, ?_⟩
        · simp only [List.take_succ_cons, Source.passes, hat, hfirst, hpass, Bool.and_self]
        · simp only [List.take_succ_cons, Source.passes, hat, hfirst, hfail, Bool.and_false]
        · simp only [List.map_cons, inOrder, satisfy_ok hat hfirst, hrest, State.advance_advance,
            Nat.add_comm 1]
    · have hfail := Bool.not_eq_true _ ▸ hfirst
      refine ⟨0, rfl, hfail, ?_⟩
      simp only [List.map_cons, inOrder, satisfy_mismatch hfail, State.advance_zero s hreach]

end Parser

/-! ## Literals and sequences -/

namespace Expr

/-- What a literal and the sequence of its elements do in a state. -/
structure SpelledOut (env : Setting α Id) (st : State Id) (literal spelled : Expr α Id) :
    Prop where
  /-- Both match, or both do not. The cursor and the records are the same after them. -/
  alike : ∃ v st₁ st₂, literal.parser env st = (v, st₁) ∧ spelled.parser env st = (v, st₂) ∧
    (v = .ok ∨ v = .mismatch) ∧ st₁.position = st₂.position ∧ st₁.forest = st₂.forest ∧
    st₁.errors = st₂.errors
  /-- If they match, everything is the same, the furthest position included. -/
  matched : ∀ {st₁ : State Id}, literal.parser env st = (.ok, st₁) →
    spelled.parser env st = (.ok, st₁)
  /-- If they do not match, nothing has changed after the literal, and nothing but the furthest
  position after the sequence. -/
  missed : ∀ {st₁ : State Id}, literal.parser env st = (.mismatch, st₁) →
    st₁ = st ∧ ∃ reach, st.furthest ≤ reach ∧
      spelled.parser env st = (.mismatch, { st with furthest := reach })

variable {β : Type}

/-- The sequence of tests is parsed test by test. -/
theorem parser_wholeSequence_satisfy (env : Setting α Id) (tests : List (α → Bool)) :
    (wholeSequence (tests.map satisfy)).parser env =
      Parser.sequence (tests.map (Parser.satisfy env.source)) := by
  show Parser.sequence (Expr.parsers env (tests.map satisfy)) = _
  rw [Expr.parsers_eq_map, List.map_map]
  rfl

/-- A literal of any tests and the sequence of these tests. -/
theorem spelledOut_tests (env : Setting α Id) {st : State Id} (h : st.position ≤ st.furthest)
    (tests : List (α → Bool)) :
    SpelledOut env st (.literal tests) (.wholeSequence (tests.map .satisfy)) := by
  have hliteral : (Expr.literal tests).parser env st = Parser.literal env.source tests st := rfl
  have hspelled := congrFun (parser_wholeSequence_satisfy env tests) st
  cases hpass : env.source.passes st.position tests with
  | true =>
    rw [Parser.literal, if_pos hpass] at hliteral
    rw [Parser.sequence, Parser.attempt, Parser.inOrder_satisfy_ok h hpass] at hspelled
    constructor
    case alike => exact ⟨_, _, _, hliteral, hspelled, Or.inl rfl, rfl, rfl, rfl⟩
    case matched =>
      intro st₁ hok
      cases hliteral.symm.trans hok
      exact hspelled
    case missed =>
      intro st₁ hmismatch
      cases hliteral.symm.trans hmismatch
  | false =>
    obtain ⟨n, -, -, hrun⟩ := Parser.inOrder_satisfy_mismatch h hpass
    rw [Parser.literal, hpass, if_neg Bool.false_ne_true] at hliteral
    have hback : (st.advance env.source n).restore st.checkpoint =
        { st with furthest := (st.advance env.source n).furthest } := by
      simp [State.restore, State.checkpoint, State.advance]
    rw [Parser.sequence, Parser.attempt, hrun, Parser.settle] at hspelled
    simp only [Verdict.isFailure, if_true, hback] at hspelled
    constructor
    case alike => exact ⟨_, _, _, hliteral, hspelled, Or.inr rfl, rfl, rfl, rfl⟩
    case matched =>
      intro st₁ hok
      cases hliteral.symm.trans hok
    case missed =>
      intro st₁ hmismatch
      cases hliteral.symm.trans hmismatch
      exact ⟨rfl, _, Nat.le_max_left _ _, hspelled⟩

/-- A literal and the sequence of its elements: for values of any kind that an element is compared
with in any way, and so for rows of elements, for texts, and for texts in which capital and small
letters are the same. -/
theorem literal_spelled_out [DecidableEq α] (env : Setting α Id) (textEnv : Setting Char Id)
    {st : State Id} (h : st.position ≤ st.furthest) :
    (∀ (is : β → α → Bool) (values : List β), SpelledOut env st (.literal (values.map is))
        (.wholeSequence (values.map fun v => .satisfy (is v)))) ∧
      (∀ row : List α, SpelledOut env st (.elements row) (.wholeSequence (row.map .element))) ∧
      (∀ t : String, SpelledOut textEnv st (.text t) (.wholeSequence (t.toList.map .element))) ∧
      ∀ t : String, SpelledOut textEnv st (.textAnyCase t)
        (.wholeSequence (t.toList.map fun c => .satisfy fun b =>
          Text.lowercase b == Text.lowercase c)) := by
  have hvalues {γ δ : Type} (env : Setting γ Id) (is : δ → γ → Bool) (values : List δ) :
      SpelledOut env st (.literal (values.map is))
        (.wholeSequence (values.map fun v => .satisfy (is v))) := by
    have htests := spelledOut_tests env h (values.map is)
    rwa [List.map_map] at htests
  exact ⟨hvalues env, fun row => hvalues env (fun a b => decide (b = a)) row,
    fun t => hvalues textEnv (fun a b => decide (b = a)) t.toList,
    fun t => hvalues textEnv (fun c b => Text.sameLetter b c) t.toList⟩

/-- The small letter takes up one byte and the capital one, the sign for the unit, takes up three.
Where the second letter is another one, only the sequence tells that the first one was there. -/
theorem literal_spelled_out_wide :
    let env : Setting Char Nat := ⟨.ofText "1\u212aa", 0, 0, fun _ => Parser.mismatch⟩
    let st : State Nat := { position := 1, furthest := 1 }
    let spelled (t : String) : Expr Char Nat := .wholeSequence (t.toList.map fun c =>
      .satisfy fun b => Text.lowercase b == Text.lowercase c)
    st.position ≤ st.furthest ∧ SpelledOut env st (.textAnyCase "ka") (spelled "ka") ∧
      SpelledOut env st (.textAnyCase "kb") (spelled "kb") ∧
      (∃ st₁, (Expr.textAnyCase "ka").parser env st = (.ok, st₁) ∧
        (spelled "ka").parser env st = (.ok, st₁) ∧ st₁.position = 5 ∧ st₁.furthest = 5) ∧
      ∃ st₂, (Expr.textAnyCase "kb").parser env st = (.mismatch, st) ∧
        (spelled "kb").parser env st = (.mismatch, st₂) ∧ st₂.position = 1 ∧ st₂.furthest = 4 := by
  intro env st spelled
  have hreach : st.position ≤ st.furthest := Nat.le_refl _
  obtain ⟨-, -, -, hcase⟩ := @literal_spelled_out Char Nat Char _ env env st hreach
  let found : Verdict × State Nat := (Expr.textAnyCase "ka").parser env st
  let missing : Verdict × State Nat := (Expr.textAnyCase "kb").parser env st
  let seen : Verdict × State Nat := (spelled "kb").parser env st
  have hfound : found.1 = .ok ∧ found.2.position = 5 ∧ found.2.furthest = 5 := by decide +kernel
  have hmissing : missing.1 = .mismatch ∧ seen.2.furthest = 4 := by decide +kernel
  have hok : (Expr.textAnyCase "ka").parser env st = (.ok, found.2) := by rw [← hfound.1]
  have hmismatch : (Expr.textAnyCase "kb").parser env st = (.mismatch, missing.2) := by
    rw [← hmissing.1]
  obtain ⟨hsame, reach, -, hspelled⟩ := (hcase "kb").missed hmismatch
  rw [hsame] at hmismatch
  have hseen : seen = (.mismatch, { st with furthest := reach }) := hspelled
  have hfurthest := hmissing.2
  rw [hseen] at hfurthest
  exact ⟨hreach, hcase "ka", hcase "kb", ⟨_, hok, (hcase "ka").matched hok, hfound.2⟩, _,
    hmismatch, hspelled, rfl, hfurthest⟩

end Expr

end Peg
