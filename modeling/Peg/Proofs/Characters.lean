import Peg.Proofs.Outcome
import Peg.Proofs.Translation

/-!
# Texts and rows of characters

A text can be parsed by byte offsets, or as the row of its characters by index. The two parses are
the same one, read at different positions: `Grammar.text_agrees_with_characters` says that the
outcome over the text is the outcome over the row with every position taken from an index to the
offset at which the character with that index begins (`Row.offset`).

The route is that of `Peg.Proofs.Translation`. Every source is the row of its elements, read at
other positions (`Source.embeds_elements`), and two parses that translate into each other from the
beginning of their sources have outcomes that do (`Grammar.parseLogged_translate`). Nothing is said
about the logs, which hold the positions as they are.
-/

namespace Peg

variable {α β Id Id' : Type}

/-! ## Offsets of indices -/

namespace Row

/-- Where the element with a given index begins; beyond the row this is the end of the row. -/
def offset (width : α → Nat) (row : List α) : Nat →o Nat where
  toFun i := size width (row.take i)
  monotone' := by
    intro i j hij
    have hsplit := List.take_append_drop i (row.take j)
    rw [List.take_take, Nat.min_eq_left hij] at hsplit
    show size width (row.take i) ≤ size width (row.take j)
    rw [← hsplit, size_append]
    exact Nat.le_add_right _ _

/-- The offset of an index is the size of what comes before it. -/
theorem offset_apply (width : α → Nat) (row : List α) (i : Nat) :
    offset width row i = size width (row.take i) := rfl

/-- After a beginning of the row comes the offset that is its size. -/
theorem offset_length (width : α → Nat) (first rest : List α) :
    offset width (first ++ rest) first.length = size width first := by
  rw [offset_apply, List.take_left]

end Row

namespace Source

variable {s : Source α} {p q : Nat} {rest : List α}

/-- What remains of a row from an index on remains of a source with its elements from the offset of
that index on. -/
theorem remaining?_offset (h : (ofList s.elements).remaining? p = some rest) :
    s.remaining? (Row.offset s.width s.elements p) = some rest := by
  obtain ⟨first, hcat, hsize⟩ := remaining?_eq_some_iff.1 h
  have hlen : first.length = p := (Row.size_one first).symm.trans hsize
  refine remaining?_eq_some_iff.2 ⟨first, hcat, ?_⟩
  have hcat' : first ++ rest = s.elements := hcat
  rw [← hcat', ← hlen, Row.offset_length]

/-- Offsets keep the order of the indices. -/
theorem offset_lt (hp : (ofList s.elements).Boundary p) (hq : (ofList s.elements).Boundary q)
    (hpq : p < q) :
    Row.offset s.width s.elements p < Row.offset s.width s.elements q := by
  have hfewer := hp.after_lt hq hpq
  obtain ⟨rest, hrest⟩ := hp
  obtain ⟨last, hlast⟩ := hq
  refine Nat.lt_of_le_of_ne ((Row.offset s.width s.elements).mono (Nat.le_of_lt hpq)) fun heq => ?_
  -- with the same offset, the same elements would be left
  have hsame := remaining?_offset hrest
  rw [heq, remaining?_offset hlast] at hsame
  rw [after_of_remaining? hrest, after_of_remaining? hlast, Option.some.inj hsame] at hfewer
  exact Nat.lt_irrefl _ hfewer

/-- Every source is the row of its elements, read at other positions. -/
theorem embeds_elements (s : Source α) :
    (Translation.along (Row.offset s.width s.elements) : Translation α α Id Id).Embeds
      (ofList s.elements) s where
  lt_of_lt := offset_lt
  size_eq := by
    show Row.offset s.width s.elements (ofList s.elements).size = s.size
    rw [size_eq (ofList s.elements), size_eq s]
    show Row.size s.width (s.elements.take (Row.size (fun _ => 1) s.elements)) = _
    rw [Row.size_one, List.take_length]
  some_element := by
    rintro p w a ⟨rest, hrest⟩ hat
    rw [elementAt_of_remaining? hrest] at hat
    cases rest with
    | nil => cases hat
    | cons b rest =>
      cases hat
      have hrest' := remaining?_offset hrest
      refine ⟨a, s.width a, elementAt_of_remaining? hrest', rfl, ?_⟩
      -- the offset after an element is the one at which it ends
      have hnext := remaining?_offset (s := s) (remaining?_add_width hrest)
      have hend := add_size_of_remaining? (remaining?_add_width hrest')
      have hend' := add_size_of_remaining? hnext
      show Row.offset s.width s.elements p + s.width a =
        Row.offset s.width s.elements (p + (ofList s.elements).width a)
      omega
  no_element := by
    rintro p ⟨rest, hrest⟩ hat
    rw [elementAt_of_remaining? hrest] at hat
    cases rest with
    | nil => exact elementAt_of_remaining? (remaining?_offset hrest)
    | cons b rest => cases hat

end Source

/-! ## Reading outcomes -/

/-- The outcome that stands for an outcome. -/
def Renaming.outcome (ρ : Renaming Id Id') (o : Outcome Id) : Outcome Id' where
  success := o.success
  forest := ρ.trees o.forest
  stop := ρ.position o.stop
  furthest := ρ.position o.furthest
  errors := o.errors.map ρ.error

/-- An effect that is read at the places of another source has the outcome that is read there. -/
theorem Effect.Renamed.outcome_eq {τ : Translation α β Id Id'} {s : Source α} {s' : Source β}
    (hτ : τ.Embeds s s') {a : Effect Id} {a' : Effect Id'} (h : a.Renamed τ.toRenaming a')
    (hstop : s.Boundary a.stop) (v : Verdict) (toEnd : Bool) :
    a'.outcome s' (τ.verdict v) toEnd = τ.outcome (a.outcome s v toEnd) := by
  have hend : s'.size ≤ τ.position a.stop ↔ s.size ≤ a.stop := hτ.size_le_iff hstop
  have hok : τ.verdict v = .ok ↔ v = .ok := τ.verdict_eq_ok_iff
  simp only [Effect.outcome, Renaming.outcome, hend, hok, h.stop_eq, h.reach_eq, h.forest_eq,
    h.errors_eq]

namespace Grammar

/-- Two grammars that are accepted, of which one translates into the other, have outcomes that
do. -/
theorem parseLogged_translate {τ : Translation α β Id Id'} {P : Nat → Prop} {s : Source α}
    {s' : Source β} {g : Grammar α Id} {g' : Grammar β Id'} {start : Expr α Id}
    {start' : Expr β Id'} (hτ : τ.Embeds s s') (hzero : τ.position 0 = 0)
    (hbodies : ∀ i, P i → Option.Rel (Expr.Translates τ P) (g.body? i) (g'.body? (τ.rule i)))
    (hstarts : start.Translates τ P start') (hg : g.isPlain = true) (hg' : g'.isPlain = true)
    (hstart : start.isPlain = true) (hstart' : start'.isPlain = true)
    (hvalid : g.validate = .ok ()) (hvalid' : g'.validate = .ok ()) (toEnd : Bool) :
    ∃ o, (g.parseLogged s start toEnd).1 = .ok o ∧
      (g'.parseLogged s' start' toEnd).1 = .ok (τ.outcome o) := by
  obtain ⟨v, a, hv, hrun, hconf, hout⟩ := exists_outcome hg hstart hvalid s
  have hagree : τ.Agrees P s 0 [] [] := fun _ _ _ _ _ => rfl
  obtain ⟨a', hrun', hrenamed⟩ := runs_translate hτ hbodies (.nil s g.size 0) hagree
    (.expr hstarts) s.boundary_zero hrun
  rw [hzero] at hrun'
  have hv' : τ.verdict v = .ok ∨ τ.verdict v = .mismatch := by simpa using hv
  have heq := (first_proper g' s').parser_eq hg' hstart' hrun'
  have hout' := parseLogged_of_run hvalid' hv' heq toEnd
  rw [hrenamed.outcome_eq hτ hconf.boundary] at hout'
  exact ⟨_, hout toEnd, hout'⟩

/-- A text and the row of its characters are parsed alike: the outcome over the text is the outcome
over the row, with every position taken from an index to the byte offset of the character with that
index. A grammar that is refused is refused for both. -/
theorem text_agrees_with_characters (g : Grammar Char Id) (start : Expr Char Id)
    (hg : g.isPlain = true) (hstart : start.isPlain = true) (text : String) (toEnd : Bool) :
    (∃ o, (g.parseLogged (.ofList text.toList) start toEnd).1 = .ok o ∧
        (g.parseLogged (.ofText text) start toEnd).1 =
          .ok ((Renaming.along (Row.offset Char.utf8Size text.toList)).outcome o)) ∨
      ∃ e, g.validate = .error e ∧
        (g.parseLogged (.ofList text.toList) start toEnd).1 = .error (.error e) ∧
        (g.parseLogged (.ofText text) start toEnd).1 = .error (.error e) := by
  cases hvalid : g.validate with
  | error e => exact Or.inr ⟨e, rfl, parseLogged_refused hvalid .., parseLogged_refused hvalid ..⟩
  | ok _ =>
    left
    have hclosed : g.Closed fun _ => True := fun _ _ _ _ _ _ => trivial
    exact parseLogged_translate (Source.ofText text).embeds_elements rfl
      (hclosed.bodies_translate _ hg) (start.translates_self _ hstart fun _ _ => trivial) hg hg
      hstart hstart hvalid hvalid toEnd

/-- Behind a character of two bytes that is skipped, the rest is matched. By index, the error is at
1 and the matches end at 5; in the text, at 2 and 6. -/
theorem text_agrees_with_characters_entangled :
    let start : Expr Char Nat :=
      .sequence [.recover (.sequence [.element 'é', .element 'z']) 9 (.skipBefore (.element 'y')),
        .rule 0]
    let ρ : Renaming Nat Nat := .along (Row.offset Char.utf8Size "éyxzx".toList)
    entangled.isPlain = true ∧ start.isPlain = true ∧
      ∃ o, (entangled.parseLogged (.ofList "éyxzx".toList) start true).1 = .ok o ∧
        (entangled.parseLogged (.ofText "éyxzx") start true).1 = .ok (ρ.outcome o) ∧
        o.success = true ∧ o.stop = 5 ∧ (ρ.outcome o).stop = 6 ∧
        o.errors = [.record 9 1 ⟨0, 1⟩] ∧ (ρ.outcome o).errors = [.record 9 2 ⟨0, 2⟩] := by
  intro start ρ
  refine ⟨by decide, by decide, ?_⟩
  have hrun : ((entangled.parseLogged (.ofList "éyxzx".toList) start true).1.toOption.map
      fun o => (o.success, o.stop, o.errors)) = some (true, 5, [.record 9 1 ⟨0, 1⟩]) := by
    decide +kernel
  obtain ⟨o, ho, ho'⟩ | ⟨e, he, -⟩ :=
    text_agrees_with_characters entangled start (by decide) (by decide) "éyxzx" true
  · rw [ho] at hrun
    obtain ⟨hsuccess, hstop, herrors⟩ : o.success = true ∧ o.stop = 5 ∧
        o.errors = [.record 9 1 ⟨0, 1⟩] := by simpa [Except.toOption] using hrun
    refine ⟨o, ho, ho', hsuccess, hstop, ?_, herrors, ?_⟩
    · show ρ.position o.stop = 6
      rw [hstop]
      decide
    · show o.errors.map ρ.error = _
      rw [herrors]
      decide
  · cases he

end Grammar

end Peg
