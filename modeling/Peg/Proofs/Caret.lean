import Peg.Proofs.Lines

/-!
# Where the caret stands

The line and the column of a diagnostic come from counting, the quoted line is put together from the
two sides of the place, and the caret is moved under it by the width of its field.
`Diagnostic.caret_points`: these agree for every text and every offset at which it can be cut.

* The text of a diagnostic has five lines. The second one gives the line and the column, the fourth
  one quotes that line of the text, and the caret of the fifth one stands below the character at the
  offset, or where that would be at the end of a line.
* There is a diagnostic exactly if the text can be cut at the offset, an offset beyond the end being
  taken for the end.

All this is about `Diagnostic.renderPadded?`, which pads a field to any width. The diagnostic itself
is not made if the column is beyond the widest field (`Text.maxWidth`), and up to there it is the
same.
-/

namespace Peg

/-! ## Lines that are put together -/

section joined

/-- Lines with a line feed after each of them are found again, with an empty one at the end. -/
theorem splitOn_joined {lines : List String} (h : ∀ line ∈ lines, '\n' ∉ line.toList) :
    (String.join (lines.map (· ++ "\n"))).toList.splitOn '\n' =
      lines.map String.toList ++ [[]] := by
  rw [String.toList_join]
  induction lines with
  | nil => rfl
  | cons line lines ih =>
    obtain ⟨hline, hlines⟩ := List.forall_mem_cons.1 h
    have hfeed : "\n".toList = ['\n'] := rfl
    rw [List.map_cons, List.flatMap_cons, String.toList_append, hfeed, List.append_assoc,
      List.singleton_append, List.splitOn_append_cons_self_of_not_mem hline, ih hlines]
    rfl

/-- A mark with nothing like it before it is found where it is. -/
theorem idxOf?_mark {before after : List Char} {mark : Char} (h : mark ∉ before) :
    (before ++ mark :: after).idxOf? mark = some before.length := by
  rw [List.idxOf?_eq_some_iff]
  refine ⟨by simp, by simp, fun i hi heq => ?_⟩
  rw [List.getElem_append_left hi] at heq
  exact h (heq ▸ List.getElem_mem hi)

/-- A number is written with digits only. -/
theorem notMem_toDigits {c : Char} (hc : c.isDigit = false) (n : Nat) : c ∉ Nat.toDigits 10 n := by
  intro hmem
  have hdigit := Nat.isDigit_of_mem_toDigits (by decide) (by decide) hmem
  rw [hc] at hdigit
  cases hdigit

/-- Padding consists of spaces only. -/
theorem notMem_spaces {c : Char} (hc : c ≠ ' ') (n : Nat) : c ∉ (Text.spaces n).toList := by
  intro hmem
  rw [Text.spaces, String.toList_ofList] at hmem
  exact hc (List.eq_of_mem_replicate hmem)

/-- Padding is as long as was asked for. -/
theorem length_spaces (n : Nat) : (Text.spaces n).length = n := by
  rw [Text.spaces, String.length_ofList, List.length_replicate]

end joined

namespace Diagnostic

/-! ## The quoted line -/

section quoted

variable {before after text : List Char} {x : Char} {i : Nat}

/-- Dropping a carriage return adds no characters. -/
theorem withoutReturn_subset : withoutReturn text ⊆ text := by
  unfold withoutReturn
  split
  · exact List.dropLast_subset text
  · exact List.Subset.refl text

/-- The line that is quoted contains no line feed. -/
theorem lineFeed_notMem_quotedLine (before after : List Char) :
    '\n' ∉ quotedLine before after := by
  have hline : '\n' ∉ Text.lastLine before ++ after.takeWhile (· ≠ '\n') := by
    intro hmem
    rcases List.mem_append.1 hmem with hmem | hmem
    · exact Text.lineFeed_notMem_lastLine before hmem
    · have hne := List.mem_takeWhile_imp hmem
      simp at hne
  rw [Text.quotedLine_eq]
  split
  · exact fun hmem => hline (withoutReturn_subset hmem)
  · exact hline

/-- Only a carriage return at the very end is taken away. -/
theorem withoutReturn_getElem? (h : text[i]? = some x) (hkeep : i + 1 < text.length ∨ x ≠ '\r') :
    (withoutReturn text)[i]? = some x := by
  unfold withoutReturn
  split
  · rename_i hreturn
    obtain ⟨hi, hx⟩ := List.getElem?_eq_some_iff.1 h
    have hlt : i < text.length - 1 := by
      rcases hkeep with hlt | hne
      · omega
      · by_contra hlast
        have heq : i = text.length - 1 := by omega
        rw [List.getLast?_eq_getElem?, ← heq, h] at hreturn
        exact hne (Option.some.inj hreturn)
    rw [List.getElem?_dropLast, if_pos hlt, h]
  · exact h

/-- A character that does not belong to the end of a line is in the quoted line, behind what stands
before the cut. -/
theorem quotedLine_getElem? (hfeed : x ≠ '\n') (hreturn : ¬ (x = '\r' ∧ after.head? = some '\n')) :
    (quotedLine before (x :: after))[(Text.lastLine before).length]? = some x := by
  have hline : (x :: after).takeWhile (· ≠ '\n') = x :: after.takeWhile (· ≠ '\n') :=
    List.takeWhile_cons_of_pos (decide_eq_true hfeed)
  have hat : (Text.lastLine before ++ x :: after.takeWhile (· ≠ '\n'))[
      (Text.lastLine before).length]? = some x := by
    simp
  rw [Text.quotedLine_eq, hline]
  split
  · rename_i hended
    refine withoutReturn_getElem? hat ?_
    cases after with
    | nil => exact absurd (List.mem_singleton.1 hended) hfeed.symm
    | cons y rest =>
      by_cases hy : y = '\n'
      · subst hy
        exact .inr fun hx => hreturn ⟨hx, rfl⟩
      · left
        simp [hy]
  · exact hat

end quoted

/-! ## The text of a diagnostic -/

/-- The text of a diagnostic, if a field can be padded to any width. -/
def renderPadded? (d : Diagnostic) : Option String :=
  match Text.take? d.position d.text, Text.drop? d.position d.text with
  | some before, some after => some (String.join ((d.lines before after).map (· ++ "\n")))
  | _, _ => none

/-- What the lines of a diagnostic say about the place between two parts of a text. -/
structure Shows (d : Diagnostic) (before after header source quoted marked : List Char) : Prop where
  /-- The first line is the message, and tells if the place is the end of the text. -/
  header_eq : header = d.message.toList ++ if after = [] then ", reached EOS".toList else []
  /-- The second line tells the line, which is one more than the line feeds before the place, and
  the column, which is one more than the characters since the last of them. -/
  source_eq : source = ("  --> " ++ d.filename ++ ":" ++ Nat.repr (before.count '\n' + 1) ++ ":" ++
    Nat.repr ((Text.lastLine before).length + 1)).toList
  /-- The fourth line quotes that line of the text, behind its number. -/
  quoted_eq : ∃ line, (Text.lines (before ++ after))[before.count '\n']? = some line ∧
    quoted = (Nat.repr (before.count '\n' + 1) ++ " | ").toList ++ line
  /-- The caret is the first one in its line, and it stands as far behind the margin as the place is
  behind the beginning of its line. -/
  caret : marked.idxOf? '^' =
    some ((Nat.repr (before.count '\n' + 1) ++ " | ").length + (Text.lastLine before).length)
  /-- The character at the place stands above the caret, if it does not belong to the end of the
  line. -/
  above : ∀ {x : Char} {rest : List Char}, after = x :: rest → x ≠ '\n' →
    ¬ (x = '\r' ∧ rest.head? = some '\n') →
    ∃ i, marked.idxOf? '^' = some i ∧ quoted[i]? = some x

/-- What a diagnostic of an offset in a text is. -/
structure PointsAt (text : String) (offset : Nat) (d : Diagnostic) : Prop where
  /-- There is none exactly if the text cannot be cut at the offset. -/
  none_iff : d.renderPadded? = none ↔
    Text.isBoundary text.toList (min (Text.size text.toList) offset) = false
  /-- Otherwise it has five lines, which show the place. -/
  shows : Text.isBoundary text.toList (min (Text.size text.toList) offset) = true →
    ∃ before after out header source gap quoted marked,
      text.toList = before ++ after ∧ Text.size before = min (Text.size text.toList) offset ∧
      d.renderPadded? = some out ∧
      out.toList.splitOn '\n' = [header, source, gap, quoted, marked, []] ∧
      d.Shows before after header source quoted marked
  /-- Nothing else is given out unless the column is beyond the widest field. -/
  render?_eq : (∀ place, Text.place? text.toList offset = some place →
    place.column ≤ Text.maxWidth) → d.render? = d.renderPadded?

/-- The line with the caret. -/
def markedLine (d : Diagnostic) (line column : Nat) : String :=
  Text.spaces (Nat.repr line).length ++ " | " ++ Text.spaces column ++ "^ " ++ d.message

/-- The caret is below the character that is as far behind the margin. -/
theorem markedLine_caret (d : Diagnostic) (line column : Nat) :
    (d.markedLine line column).toList.idxOf? '^' =
      some ((Nat.repr line ++ " | ").length + column) := by
  have hparts : (d.markedLine line column).toList =
      (Text.spaces (Nat.repr line).length ++ " | " ++ Text.spaces column).toList ++
        '^' :: (' ' :: d.message.toList) := by
    simp [markedLine, String.toList_append]
  have hnone : '^' ∉
      (Text.spaces (Nat.repr line).length ++ " | " ++ Text.spaces column).toList := by
    simp [String.toList_append, notMem_spaces]
  rw [hparts, idxOf?_mark hnone, String.length_toList]
  simp only [String.length_append, length_spaces]

/-- The five lines of a message, written out in terms of the text before and behind the position.
-/
theorem lines_eq (d : Diagnostic) (before after : List Char) :
    d.lines before after =
      [if after.isEmpty then d.message ++ ", reached EOS" else d.message,
        "  --> " ++ d.filename ++ ":" ++ Nat.repr (before.count '\n' + 1) ++ ":" ++
          Nat.repr ((Text.lastLine before).length + 1),
        Text.spaces (Nat.repr (before.count '\n' + 1)).length ++ " |",
        Nat.repr (before.count '\n' + 1) ++ " | " ++ String.ofList (quotedLine before after),
        d.markedLine (before.count '\n' + 1) (Text.lastLine before).length] := by
  simp only [lines, Text.Place.after_eq, Nat.add_sub_cancel]
  rfl

/-- No line of a diagnostic has a line feed in it. -/
theorem lineFeed_notMem_lines (d : Diagnostic) (hmessage : '\n' ∉ d.message.toList)
    (hfilename : '\n' ∉ d.filename.toList) (before after : List Char) :
    ∀ line ∈ d.lines before after, '\n' ∉ line.toList := by
  have hdigits (n : Nat) : '\n' ∉ Nat.toDigits 10 n := notMem_toDigits (by decide) n
  have hspaces (n : Nat) : '\n' ∉ (Text.spaces n).toList := notMem_spaces (by decide) n
  have hquoted := lineFeed_notMem_quotedLine before after
  rw [lines_eq]
  intro line hline
  simp only [List.mem_cons, List.not_mem_nil, or_false] at hline
  rcases hline with rfl | rfl | rfl | rfl | rfl
  · split <;> simp [String.toList_append, hmessage]
  · simp [String.toList_append, hfilename, hdigits]
  · simp [String.toList_append, hspaces]
  · simp [String.toList_append, hdigits, hquoted]
  · simp [markedLine, String.toList_append, hspaces, hmessage]

/-- The lines of a message show what they should. -/
theorem shows_lines (d : Diagnostic) (before after : List Char) :
    ∃ header source gap quoted marked : String,
      d.lines before after = [header, source, gap, quoted, marked] ∧
      d.Shows before after header.toList source.toList quoted.toList marked.toList := by
  refine ⟨_, _, _, _, _, lines_eq d before after, ?_⟩
  have hcaret := d.markedLine_caret (before.count '\n' + 1) (Text.lastLine before).length
  constructor
  case header_eq => cases after <;> simp [String.toList_append]
  case source_eq => rfl
  case quoted_eq =>
    exact ⟨_, Text.lines_getElem? before after, by simp [String.toList_append]⟩
  case caret => exact hcaret
  case above =>
    rintro x rest rfl hfeed hreturn
    refine ⟨_, hcaret, ?_⟩
    rw [String.toList_append, String.toList_ofList, ← String.length_toList,
      List.getElem?_append_right (Nat.le_add_right _ _), Nat.add_sub_cancel_left]
    exact quotedLine_getElem? hfeed hreturn

/-- With padding of every width, a message fails only if its position is inside a character. -/
theorem renderPadded?_eq_none_iff (d : Diagnostic) :
    d.renderPadded? = none ↔ Text.isBoundary d.text d.position = false := by
  rw [Text.isBoundary, Row.isBoundary, renderPadded?, Text.drop?]
  cases hdrop : Row.drop? Char.utf8Size d.position d.text with
  | none => simp
  | some after =>
    obtain ⟨before, hbefore, -, -⟩ := Row.take?_append_drop? hdrop
    simp [Text.take?, hbefore]

/-- On a boundary, a message consists of its lines, for the two parts of the text that the
position divides. -/
theorem exists_renderPadded? (d : Diagnostic) (h : Text.isBoundary d.text d.position = true) :
    ∃ before after, d.text = before ++ after ∧ Text.size before = d.position ∧
      d.renderPadded? = some (String.join ((d.lines before after).map (· ++ "\n"))) := by
  obtain ⟨after, hdrop⟩ := Option.isSome_iff_exists.1 h
  obtain ⟨before, htake, hcat, hsize⟩ := Row.take?_append_drop? hdrop
  refine ⟨before, after, hcat.symm, hsize, ?_⟩
  rw [renderPadded?, Text.take?, Text.drop?, htake, hdrop]

/-- Up to the widest padding that can be printed, a message is the one with padding of every
width. -/
theorem render?_eq_renderPadded? (d : Diagnostic)
    (h : ∀ before, Text.take? d.position d.text = some before →
      (Text.Place.after before).column ≤ Text.maxWidth) : d.render? = d.renderPadded? := by
  unfold render? renderPadded?
  cases htake : Text.take? d.position d.text with
  | none => rfl
  | some before =>
    cases Text.drop? d.position d.text with
    | none => rfl
    | some after => exact if_pos (h before htake)

/-- Line, column, quoted line and caret of every diagnostic agree, and it exists exactly if the text
can be cut at the offset. -/
theorem caret_points (text message filename : String) (offset : Nat)
    (hmessage : '\n' ∉ message.toList) (hfilename : '\n' ∉ filename.toList) :
    PointsAt text offset (((atOffset text offset).withMessage message).withFilename filename) := by
  let d := ((atOffset text offset).withMessage message).withFilename filename
  constructor
  case none_iff => exact d.renderPadded?_eq_none_iff
  case shows =>
    intro hcut
    obtain ⟨before, after, htext, hsize, hout⟩ := d.exists_renderPadded? hcut
    obtain ⟨header, source, gap, quoted, marked, hlines, hshows⟩ := d.shows_lines before after
    have hjoined := splitOn_joined (d.lineFeed_notMem_lines hmessage hfilename before after)
    rw [hlines] at hout hjoined
    exact ⟨before, after, _, _, _, gap.toList, _, _, htext, hsize, hout, hjoined, hshows⟩
  case render?_eq =>
    intro hwidth
    refine d.render?_eq_renderPadded? fun before hbefore => hwidth _ ?_
    have hposition : min offset (Text.size text.toList) = d.position := Nat.min_comm _ _
    have htake : Text.take? d.position text.toList = some before := hbefore
    rw [Text.place?, hposition, htake, Option.map_some]

/-- Behind a line that ends with a carriage return and a line feed, and a character of two bytes. -/
theorem caret_points_wide :
    let text := "a = 1;\r\nb = é#;\n"
    let d (offset : Nat) : Diagnostic :=
      ((atOffset text offset).withMessage "expected a value").withFilename "input.txt"
    '\n' ∉ "expected a value".toList ∧ '\n' ∉ "input.txt".toList ∧ PointsAt text 14 (d 14) ∧
      (d 14).render? = some ("expected a value\n" ++ "  --> input.txt:2:6\n" ++ "  |\n" ++
        "2 | b = é#;\n" ++ "  |      ^ expected a value\n") ∧
      PointsAt text 13 (d 13) ∧ (d 13).render? = none := by
  intro text d
  have hmessage : '\n' ∉ "expected a value".toList := by decide
  have hfilename : '\n' ∉ "input.txt".toList := by decide
  refine ⟨hmessage, hfilename, caret_points text _ _ 14 hmessage hfilename, ?_,
    caret_points text _ _ 13 hmessage hfilename, ?_⟩
  · decide +kernel
  · decide +kernel

end Diagnostic

end Peg
