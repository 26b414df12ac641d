import Peg.Proofs.ReadBack

/-!
# What a printed match says

A printed match is one line after the other. How deep a match lies is told by spaces alone, whether
it is a leaf by what stands after its identifier, and where the lines inside a match are over is
told by nothing: the next line is just not indented as far. `Match.outline_unambiguous` says that
this does tell everything but the spans of inner matches, which are not printed: the trees with a
given text are those that differ in these spans at most (`Match.Alike`).

The text is read from the front, with a rest after it. The lines of a match at some depth can be
told from the rest if the rest is `Outdented` with respect to what lies inside the match, and the
lines of a forest if it is with respect to the forest (`Match.alike_of_renderFrom` and
`Match.alike_of_renderAllFrom`). The lines after a match are such a rest, since no line goes on with
two spaces after its indentation: an identifier does not start with a space, and after one that
shows nothing stands a single one.
-/

namespace Peg

/-! ## Indentation -/

/-- A text that does not start with that many spaces. -/
def Outdented (width : Nat) (r : List Char) : Prop := ¬ List.replicate width ' ' <+: r

namespace Outdented

variable {width width' : Nat} {r : List Char}

/-- A text that is out of an indentation is out of every deeper one. -/
theorem mono (h : Outdented width r) (hle : width ≤ width') : Outdented width' r := by
  intro hspaces
  refine h (List.IsPrefix.trans ?_ hspaces)
  obtain ⟨more, rfl⟩ := Nat.exists_eq_add_of_le hle
  rw [List.replicate_add]
  exact List.prefix_append _ _

/-- An empty text is not indented. -/
theorem nil (hpos : 0 < width) : Outdented width [] := by
  intro h
  rw [List.prefix_nil, List.replicate_eq_nil_iff] at h
  omega

/-- Indentation adds up. -/
theorem indent (w : Nat) (h : Outdented width r) :
    Outdented (w + width) (List.replicate w ' ' ++ r) := by
  intro hspaces
  rw [List.replicate_add, List.prefix_append_right_inj] at hspaces
  exact h hspaces

/-- A text that starts with something else than a space is not indented. -/
theorem cons {c : Char} (hc : c ≠ ' ') (hpos : 0 < width) : Outdented width (c :: r) := by
  cases width with
  | zero => exact absurd hpos (Nat.lt_irrefl 0)
  | succ more =>
    rw [Outdented, List.replicate_succ, List.cons_prefix_cons]
    exact fun h => hc h.1.symm

/-- Text that starts as far out as a row is indented is not the row with something after it. -/
theorem ne_append (h : Outdented width r) (r' : List Char) : r ≠ List.replicate width ' ' ++ r' :=
  fun hr => h ⟨r', hr.symm⟩

end Outdented

namespace Match

variable {Id : Type}

/-! ## Trees that differ in the spans of inner matches -/

mutual

/-- Trees of one shape with the same identifiers and with the same spans at their leaves. -/
inductive Alike : Match Id → Match Id → Prop
  | leaf (id : Id) (span : Span) : Alike ⟨id, span, []⟩ ⟨id, span, []⟩
  | inner (id : Id) (span span' : Span) {child child' : Match Id}
      {children children' : List (Match Id)}
      (h : AlikeAll (child :: children) (child' :: children')) :
      Alike ⟨id, span, child :: children⟩ ⟨id, span', child' :: children'⟩

/-- Forests of as many trees, alike tree by tree. -/
inductive AlikeAll : List (Match Id) → List (Match Id) → Prop
  | nil : AlikeAll [] []
  | cons {m n : Match Id} {ms ns : List (Match Id)} (h : Alike m n) (hrest : AlikeAll ms ns) :
      AlikeAll (m :: ms) (n :: ns)

end

section Layout

variable (display : Id → String) (tab : Nat) (leaf : Span → String) (depth : Nat)

/-- What stands after the identifier of a match, up to the end of the lines inside it. -/
def afterId : Match Id → String
  | ⟨_, span, []⟩ => " : " ++ leaf span ++ "\n"
  | ⟨_, _, child :: children⟩ =>
    "\n" ++ renderAllFrom display tab leaf (depth + 1) (child :: children)

/-- A match is printed as its indentation, its identifier and what comes after that. -/
theorem renderFrom_toList (m : Match Id) :
    (m.renderFrom display tab leaf depth).toList =
      List.replicate (depth * tab) ' ' ++
        ((display m.id).toList ++ (m.afterId display tab leaf depth).toList) := by
  obtain ⟨id, span, _ | ⟨child, children⟩⟩ := m
  · simp [renderFrom, afterId, Text.spaces]
  · simp [renderFrom, afterId, renderAllFrom, Text.spaces]

/-- After the identifier of a leaf comes its text, on the same line. -/
theorem afterId_leaf (id : Id) (span : Span) (r : List Char) :
    (afterId display tab leaf depth ⟨id, span, []⟩).toList ++ r =
      ' ' :: ':' :: ' ' :: ((leaf span).toList ++ '\n' :: r) := by
  simp [afterId]

/-- After the identifier of an inner match the line ends, and the children follow one step deeper.
-/
theorem afterId_inner (id : Id) (span : Span) (child : Match Id) (children : List (Match Id))
    (r : List Char) :
    (afterId display tab leaf depth ⟨id, span, child :: children⟩).toList ++ r =
      '\n' :: ((renderAllFrom display tab leaf (depth + 1) (child :: children)).toList ++ r) := by
  simp [afterId]

mutual

/-- The text shows nothing but what trees that are alike have in common. -/
theorem Alike.renderFrom_eq {m n : Match Id} (h : Alike m n) (depth : Nat) :
    m.renderFrom display tab leaf depth = n.renderFrom display tab leaf depth := by
  cases h with
  | leaf id span => rfl
  | inner id span span' hchildren =>
    have hlines := AlikeAll.renderAllFrom_eq hchildren (depth + 1)
    simp only [renderAllFrom] at hlines
    rw [renderFrom, renderFrom, hlines]

/-- Forests that look alike are printed alike. -/
theorem AlikeAll.renderAllFrom_eq {ms ns : List (Match Id)} (h : AlikeAll ms ns) (depth : Nat) :
    renderAllFrom display tab leaf depth ms = renderAllFrom display tab leaf depth ns := by
  cases h with
  | nil => rfl
  | cons h hrest =>
    rw [renderAllFrom, renderAllFrom, h.renderFrom_eq depth, hrest.renderAllFrom_eq depth]

end

end Layout

mutual

/-- Matches that look alike are equally high. -/
theorem Alike.height_eq {m n : Match Id} (h : Alike m n) : m.height = n.height := by
  cases h with
  | leaf id span => rfl
  | inner id span span' hchildren =>
    have hheight := AlikeAll.heightAll_eq hchildren
    simp only [heightAll] at hheight
    rw [height, height, hheight]

/-- Forests that look alike are equally high. -/
theorem AlikeAll.heightAll_eq {ms ns : List (Match Id)} (h : AlikeAll ms ns) :
    heightAll ms = heightAll ns := by
  cases h with
  | nil => rfl
  | cons h hrest => rw [heightAll, heightAll, h.height_eq, hrest.heightAll_eq]

end

/-! ## Reading the lines -/

section Reading

variable {display : Id → String} {tab : Nat} {leaf : Span → String}

/-- What comes after an identifier ends it. -/
theorem endsId_afterId (depth : Nat) (m : Match Id) (r : List Char) :
    EndsId ((m.afterId display tab leaf depth).toList ++ r) := by
  obtain ⟨id, span, _ | ⟨child, children⟩⟩ := m
  · rw [afterId_leaf]
    exact Or.inl rfl
  · rw [afterId_inner]
    exact Or.inr rfl

/-- After its indentation, a line does not go on with two spaces. -/
theorem outdented_two (h : Legible display) (depth : Nat) (m : Match Id) (r : List Char) :
    Outdented 2 ((display m.id).toList ++ ((m.afterId display tab leaf depth).toList ++ r)) := by
  have hspace := h.no_space m.id
  cases hid : (display m.id).toList with
  | nil =>
    obtain ⟨id, span, _ | ⟨child, children⟩⟩ := m
    · rw [afterId_leaf]
      simp [Outdented, List.replicate]
    · rw [afterId_inner]
      exact Outdented.cons (by decide) (by decide)
  | cons c rest =>
    rw [hid] at hspace
    exact Outdented.cons (fun hc => hspace (by rw [hc, List.head?_cons])) (by decide)

/-- A match is not printed as deep as its children would be. -/
theorem outdented_renderFrom (h : Legible display) (htab : 2 ≤ tab) (depth : Nat) (m : Match Id)
    (r : List Char) :
    Outdented ((depth + 1) * tab) ((m.renderFrom display tab leaf depth).toList ++ r) := by
  rw [renderFrom_toList, List.append_assoc, List.append_assoc]
  refine ((outdented_two h depth m r).indent (depth * tab)).mono ?_
  rw [Nat.succ_mul]
  omega

/-- The lines of a forest are not lines from inside a match at the same depth. -/
theorem outdented_renderAllFrom (h : Legible display) (htab : 2 ≤ tab) (depth : Nat)
    (ms : List (Match Id)) {r : List Char} (hr : Outdented ((depth + 1) * tab) r) :
    Outdented ((depth + 1) * tab) ((renderAllFrom display tab leaf depth ms).toList ++ r) := by
  cases ms with
  | nil => exact hr
  | cons m rest =>
    rw [renderAllFrom, String.toList_append, List.append_assoc]
    exact outdented_renderFrom h htab depth m _

/-- Words for leaves that can be told from the line break after them. -/
def LeafReadsBack (leaf : Span → String) : Prop :=
  Text.ReadsBack (fun span => (leaf span).toList) fun r => r.head? = some '\n'

mutual

/-- The lines of a match, and what stands after them. -/
theorem alike_of_renderFrom (h : Legible display) (htab : 2 ≤ tab) (hleaf : LeafReadsBack leaf)
    (depth : Nat) (m n : Match Id) {r r' : List Char} (hr : Outdented ((depth + 1) * tab) r)
    (hr' : Outdented ((depth + 1) * tab) r')
    (heq : (m.renderFrom display tab leaf depth).toList ++ r =
      (n.renderFrom display tab leaf depth).toList ++ r') : Alike m n ∧ r = r' := by
  simp only [renderFrom_toList, List.append_assoc, List.append_cancel_left_eq] at heq
  obtain ⟨hid, hafter⟩ :=
    h.reads_back (endsId_afterId depth m r) (endsId_afterId depth n r') heq
  obtain ⟨id, span, children⟩ := m
  obtain ⟨_, span', children'⟩ := n
  obtain rfl : id = _ := hid
  match children, children' with
  | [], [] =>
    simp only [afterId_leaf, List.cons.injEq, true_and] at hafter
    obtain ⟨rfl, hrest⟩ := hleaf rfl rfl hafter
    exact ⟨.leaf id span, (List.cons.inj hrest).2⟩
  | [], child' :: rest' =>
    rw [afterId_leaf, afterId_inner] at hafter
    exact absurd (List.cons.inj hafter).1 (by decide)
  | child :: rest, [] =>
    rw [afterId_leaf, afterId_inner] at hafter
    exact absurd (List.cons.inj hafter).1 (by decide)
  | child :: rest, child' :: rest' =>
    rw [afterId_inner, afterId_inner] at hafter
    obtain ⟨hchildren, hrest⟩ := alike_of_renderAllFrom h htab hleaf (depth + 1) (child :: rest)
      (child' :: rest') hr hr' (List.cons.inj hafter).2
    exact ⟨.inner id span span' hchildren, hrest⟩

/-- The lines of a forest are over where the text is outdented. -/
theorem alike_of_renderAllFrom (h : Legible display) (htab : 2 ≤ tab) (hleaf : LeafReadsBack leaf)
    (depth : Nat) (ms ns : List (Match Id)) {r r' : List Char} (hr : Outdented (depth * tab) r)
    (hr' : Outdented (depth * tab) r')
    (heq : (renderAllFrom display tab leaf depth ms).toList ++ r =
      (renderAllFrom display tab leaf depth ns).toList ++ r') : AlikeAll ms ns ∧ r = r' := by
  have hwidth : depth * tab ≤ (depth + 1) * tab := Nat.mul_le_mul_right tab (Nat.le_succ depth)
  match ms, ns with
  | [], [] => exact ⟨.nil, heq⟩
  | [], n :: ns =>
    simp only [renderAllFrom, String.toList_append, renderFrom_toList, List.append_assoc] at heq
    exact absurd heq (hr.ne_append _)
  | m :: ms, [] =>
    simp only [renderAllFrom, String.toList_append, renderFrom_toList, List.append_assoc] at heq
    exact absurd heq.symm (hr'.ne_append _)
  | m :: ms, n :: ns =>
    simp only [renderAllFrom, String.toList_append, List.append_assoc] at heq
    obtain ⟨hmn, hrest⟩ := alike_of_renderFrom h htab hleaf depth m n
      (outdented_renderAllFrom h htab depth ms (hr.mono hwidth))
      (outdented_renderAllFrom h htab depth ns (hr'.mono hwidth)) heq
    obtain ⟨hall, hafter⟩ := alike_of_renderAllFrom h htab hleaf depth ms ns hr hr' hrest
    exact ⟨.cons hmn hall, hafter⟩

end

/-- The layout tells trees apart that are not alike, if a level is at least two spaces wide. -/
theorem render_eq_iff_alike (h : Legible display) (htab : 2 ≤ tab) (hleaf : LeafReadsBack leaf)
    (m n : Match Id) : m.render display tab leaf = n.render display tab leaf ↔ Alike m n := by
  constructor
  · intro heq
    have hend : Outdented ((0 + 1) * tab) [] := Outdented.nil (by omega)
    refine (alike_of_renderFrom h htab hleaf 0 m n hend hend ?_).1
    exact congrArg (·.toList ++ []) heq
  · exact fun halike => halike.renderFrom_eq display tab leaf 0

end Reading

/-! ## Outlines -/

/-- A span is printed as two numbers with two dots between them. -/
theorem showSpan_append (span : Span) (r : List Char) :
    (showSpan span).toList ++ r =
      Nat.toDigits 10 span.start ++ '.' :: '.' :: (Nat.toDigits 10 span.stop ++ r) := by
  simp [showSpan]

/-- A span is read back from its two numbers. -/
theorem readsBack_showSpan : LeafReadsBack showSpan := by
  have hdigits := Text.readsBack_toDigits (b := 10) (by decide) (by decide)
  have hdots (r : List Char) : Text.NoDigit ('.' :: r) :=
    Text.noDigit_of_head? rfl fun k => Nat.digitChar_ne _ (by decide)
  have hbreak {r : List Char} (hr : r.head? = some '\n') : Text.NoDigit r :=
    Text.noDigit_of_head? hr fun k => Nat.digitChar_ne _ (by decide)
  rintro ⟨start, stop⟩ ⟨start', stop'⟩ r r' hr hr' h
  simp only [showSpan_append] at h
  obtain ⟨rfl, hrest⟩ := hdigits (hdots _) (hdots _) h
  simp only [List.cons.injEq, true_and] at hrest
  obtain ⟨rfl, rfl⟩ := hdigits (hbreak hr) (hbreak hr') hrest
  exact ⟨rfl, rfl⟩

/-- An outline is the printed match, provided that no line is indented too far. -/
theorem outline?_eq_some_iff {display : Id → String} {m : Match Id} {text : String} :
    m.outline? display = some text ↔ m.fits 4 = true ∧ m.render display 4 showSpan = text := by
  simp [outline?, render?]

/-- A tree can be told from its outline, up to the spans of inner matches: the trees with a given
outline are those that are alike. For a tree that is deeper than a field is wide there is no
outline, but the lines that would be in it tell as much. -/
theorem outline_unambiguous {display : Id → String} (h : Legible display) (m n : Match Id) :
    (∀ text, m.outline? display = some text → (n.outline? display = some text ↔ Alike m n)) ∧
      (m.render display 4 showSpan = n.render display 4 showSpan ↔ Alike m n) := by
  have hlines := @render_eq_iff_alike Id display 4 showSpan h (by decide) readsBack_showSpan m n
  refine ⟨fun text htext => ?_, hlines⟩
  obtain ⟨hfits, rfl⟩ := outline?_eq_some_iff.1 htext
  rw [outline?_eq_some_iff, ← hlines]
  constructor
  · exact fun hn => hn.2.symm
  · intro heq
    refine ⟨?_, heq.symm⟩
    rw [fits, ← (hlines.1 heq).height_eq]
    exact hfits

/-- Identifiers with blanks, colons, quotes and a sign. An outline that is like another one up to
the indentation of its last line is the outline of another tree. -/
theorem outline_unambiguous_quoted :
    let last : Match Label := ⟨.text "\"\n", ⟨3, 1⟩, []⟩
    let beside (span : Span) : Match Label :=
      ⟨.text " : 1", ⟨0, 9⟩, [⟨.text "", span, [⟨.number (-1), ⟨0, 2⟩, []⟩]⟩, last]⟩
    let inside : Match Label :=
      ⟨.text " : 1", ⟨0, 9⟩, [⟨.text "", ⟨0, 2⟩, [⟨.number (-1), ⟨0, 2⟩, []⟩, last]⟩]⟩
    let text := "\" : 1\"\n    \"\"\n        -1 : 0..2\n    \"\\\"\\n\" : 3..1\n"
    Legible Label.display ∧ (beside ⟨0, 2⟩).outline? Label.display = some text ∧
      Alike (beside ⟨0, 2⟩) (beside ⟨7, 5⟩) ∧ ¬ Alike (beside ⟨0, 2⟩) inside := by
  intro last beside inside text
  have hlegible : Legible Label.display := Label.legible
  have htext : (beside ⟨0, 2⟩).outline? Label.display = some text := by decide +kernel
  refine ⟨hlegible, htext, ?_, fun halike => ?_⟩
  · refine ((outline_unambiguous hlegible (beside ⟨0, 2⟩) (beside ⟨7, 5⟩)).1 text htext).1 ?_
    decide +kernel
  · have hinside := ((outline_unambiguous hlegible (beside ⟨0, 2⟩) inside).1 text htext).2 halike
    revert hinside
    decide +kernel

end Match

end Peg
