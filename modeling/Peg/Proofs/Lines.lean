import Mathlib.Data.List.Induction
import Mathlib.Data.List.TakeWhile
import Peg.Diagnostic

/-!
# The lines of a text

A line feed ends a line, and a carriage return just before it goes with it; what stands behind the
last line feed is a line as well (`Text.lines`). A text that is cut into two parts is cut somewhere
in a line: the line feeds before the cut say in which one, and what stands before the cut after the
last of them says where in that line (`Text.Place.after_eq`). So the line around a cut can be put
together from its two sides (`Text.lines_getElem?`), which is how `Diagnostic.quotedLine` finds it.
-/

namespace Peg

namespace Text

/-! ## Cutting a text into lines -/

/-- The pieces between line feeds, without the carriage returns that go with these. -/
def withoutReturns : List (List Char) → List (List Char)
  | [] => []
  | [last] => [last]
  | line :: next :: rest => Diagnostic.withoutReturn line :: withoutReturns (next :: rest)

/-- The lines of a text, without their ends. -/
def lines (text : List Char) : List (List Char) := withoutReturns (text.splitOn '\n')

/-- What stands in a text behind its last line feed. -/
def lastLine (text : List Char) : List Char := (text.reverse.takeWhile (· ≠ '\n')).reverse

/-- Only the last piece keeps a carriage return at its end. -/
theorem withoutReturns_append (pieces : List (List Char)) {rest : List (List Char)}
    (hrest : rest ≠ []) :
    withoutReturns (pieces ++ rest) =
      pieces.map Diagnostic.withoutReturn ++ withoutReturns rest := by
  induction pieces with
  | nil => rfl
  | cons line pieces ih =>
    obtain ⟨next, others, hnext⟩ : ∃ next others, pieces ++ rest = next :: others :=
      List.exists_cons_of_ne_nil (by simp [hrest])
    rw [List.cons_append, hnext, withoutReturns, ← hnext, ih]
    rfl

/-- Lines that are ended do not depend on what comes after them. -/
theorem lines_append_lineFeed (start rest : List Char) :
    lines (start ++ '\n' :: rest) =
      (start.splitOn '\n').map Diagnostic.withoutReturn ++ lines rest := by
  have hrest := List.splitOn_ne_nil '\n' rest
  rw [lines, List.splitOn_append_cons_self, withoutReturns_append _ hrest, lines]

/-- There is one piece more than there are line feeds. -/
theorem length_splitOn_lineFeed (text : List Char) :
    (text.splitOn '\n').length = text.count '\n' + 1 := by
  induction text with
  | nil => rfl
  | cons c text ih =>
    rw [List.splitOn_cons_eq_if_modifyHead, List.count_cons]
    split
    · rw [List.length_cons, ih]
    · rw [List.length_modifyHead, ih]

/-! ## Behind the last line feed -/

/-- A further character ends the last line or belongs to it. -/
theorem lastLine_concat (text : List Char) (c : Char) :
    lastLine (text ++ [c]) = if c = '\n' then [] else lastLine text ++ [c] := by
  by_cases hc : c = '\n' <;> simp [lastLine, hc]

/-- The last line contains no line feed. -/
theorem lineFeed_notMem_lastLine (text : List Char) : '\n' ∉ lastLine text := by
  induction text using List.reverseRecOn with
  | nil => exact List.not_mem_nil
  | append_singleton text c ih =>
    rw [lastLine_concat]
    split
    · exact List.not_mem_nil
    · rename_i hc
      simpa [ih] using Ne.symm hc

/-- A text is a single line, or its last line comes after a line feed. -/
theorem lastLine_cases (text : List Char) :
    '\n' ∉ text ∧ lastLine text = text ∨ ∃ start, text = start ++ '\n' :: lastLine text := by
  induction text using List.reverseRecOn with
  | nil => exact .inl ⟨List.not_mem_nil, rfl⟩
  | append_singleton text c ih =>
    rw [lastLine_concat]
    by_cases hc : c = '\n'
    · subst hc
      exact .inr ⟨text, by simp⟩
    · rw [if_neg hc]
      rcases ih with ⟨hline, hwhole⟩ | ⟨start, hstart⟩
      · refine .inl ⟨?_, by rw [hwhole]⟩
        simpa [hline] using Ne.symm hc
      · refine .inr ⟨start, ?_⟩
        rw [← List.cons_append, ← List.append_assoc, ← hstart]

/-- The line of a place counts line feeds, and its column counts characters behind the last of
them. -/
theorem Place.after_eq (text : List Char) :
    Place.after text = ⟨text.count '\n' + 1, (lastLine text).length + 1⟩ := by
  induction text using List.reverseRecOn with
  | nil => rfl
  | append_singleton text c ih =>
    rw [after] at ih ⊢
    rw [List.foldl_append, List.foldl_cons, List.foldl_nil, ih, lastLine_concat, List.count_append,
      List.count_singleton, next]
    by_cases hc : c = '\n' <;> simp [hc]

/-! ## The line around a cut -/

/-- A text without a line feed is its own last line. -/
theorem lastLine_of_notMem {text : List Char} (h : '\n' ∉ text) : lastLine text = text := by
  rcases lastLine_cases text with ⟨-, hwhole⟩ | ⟨start, hstart⟩
  · exact hwhole
  · exact absurd (hstart ▸ List.mem_append_right _ List.mem_cons_self) h

/-- A text without line feeds passes the test for the characters of one line. -/
theorem all_ne_lineFeed {text : List Char} (h : '\n' ∉ text) :
    ∀ c ∈ text, decide (c ≠ '\n') = true := by
  intro c hc
  rw [decide_eq_true_iff]
  rintro rfl
  exact h hc

/-- The line around a cut, put together from its two sides. -/
theorem quotedLine_eq (before after : List Char) :
    Diagnostic.quotedLine before after =
      if '\n' ∈ after then Diagnostic.withoutReturn (lastLine before ++ after.takeWhile (· ≠ '\n'))
      else lastLine before ++ after.takeWhile (· ≠ '\n') := rfl

/-- The line around a cut within the first line of a text. -/
theorem lines_head? {before after : List Char} (h : '\n' ∉ before) :
    (lines (before ++ after)).head? = some (Diagnostic.quotedLine before after) := by
  rw [quotedLine_eq, lastLine_of_notMem h]
  by_cases hafter : '\n' ∈ after
  · obtain ⟨line, rest, rfl, hline⟩ := List.eq_append_cons_of_mem hafter
    have hnone : '\n' ∉ before ++ line := fun hmem => (List.mem_append.1 hmem).elim h hline
    have hfirst : (line ++ '\n' :: rest).takeWhile (· ≠ '\n') = line := by
      rw [List.takeWhile_append_of_pos (all_ne_lineFeed hline)]
      simp
    rw [if_pos hafter, hfirst, ← List.append_assoc, lines_append_lineFeed,
      List.splitOn_eq_singleton hnone]
    rfl
  · have hnone : '\n' ∉ before ++ after := fun hmem => (List.mem_append.1 hmem).elim h hafter
    have hall : after.takeWhile (· ≠ '\n') = after :=
      List.takeWhile_eq_self_iff.2 (all_ne_lineFeed hafter)
    rw [if_neg hafter, hall, lines, List.splitOn_eq_singleton hnone]
    rfl

/-- The line around a cut is the one that the line feeds before the cut count. -/
theorem lines_getElem? (before after : List Char) :
    (lines (before ++ after))[before.count '\n']? = some (Diagnostic.quotedLine before after) := by
  rcases lastLine_cases before with ⟨hline, -⟩ | ⟨start, hstart⟩
  · rw [List.count_eq_zero.2 hline, ← List.head?_eq_getElem?]
    exact lines_head? hline
  · have hlast := lineFeed_notMem_lastLine before
    have hcount :
        before.count '\n' = ((start.splitOn '\n').map Diagnostic.withoutReturn).length := by
      rw [List.length_map, length_splitOn_lineFeed, hstart, List.count_append, List.count_cons_self,
        List.count_eq_zero.2 hlast]
    have hsame : Diagnostic.quotedLine before after =
        Diagnostic.quotedLine (lastLine before) after := by
      rw [quotedLine_eq, quotedLine_eq, lastLine_of_notMem hlast]
    have htext : before ++ after = start ++ '\n' :: (lastLine before ++ after) := by
      conv_lhs => rw [hstart, List.append_assoc, List.cons_append]
    rw [htext, lines_append_lineFeed, hcount, List.getElem?_append_right (Nat.le_refl _),
      Nat.sub_self, ← List.head?_eq_getElem?, hsame]
    exact lines_head? hlast

-- a carriage return that no line feed follows stays
example : lines "a;\r\n\nb\r".toList = [['a', ';'], [], ['b', '\r']] := by decide

end Text

end Peg
