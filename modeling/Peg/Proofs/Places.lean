import Mathlib.Data.Prod.Lex
import Mathlib.Order.Basic
import Peg.Proofs.Lines

/-!
# Places tell offsets apart

The place of an offset comes from one walk over the characters before it, which counts line feeds
and starts the column anew behind each of them. Two things are read off it
(`Text.places_identify`).

* The line is one more than the number of line feeds before the offset, and the column one more than
  the number of characters behind the last of them.
* Places are ordered by line and then by column, and offsets come in the order of their places. So
  no two offsets at which the text can be cut have the same place.

The second one is shown character by character. Whatever the character is, the place behind it comes
after the place before it (`Place.lt_next`), so the place behind a text is passed as soon as
anything is added to the text (`Place.after_lt_append`). How many bytes the characters take up does
not matter: of two offsets in one text, the larger one has more characters before it.
-/

namespace Peg.Text

/-! ## The order of places -/

namespace Place

/-- The line and the column, where the line counts first. -/
def key (p : Place) : Nat ×ₗ Nat := toLex (p.line, p.column)

/-- A place is told by its line and its column. -/
theorem key_injective : Function.Injective key := by
  intro p q h
  cases p
  cases q
  simpa [key] using h

/-- Places are ordered by line, and within a line by column. -/
instance : LinearOrder Place := LinearOrder.lift' key key_injective

/-- Places are ordered by their lines, and on one line by their columns. -/
theorem lt_iff {p q : Place} : p < q ↔ p.line < q.line ∨ p.line = q.line ∧ p.column < q.column :=
  Prod.Lex.lt_iff

/-- A character leads to a later place, on the same line or at the beginning of the next one. -/
theorem lt_next (p : Place) (c : Char) : p < p.next c := by
  rw [lt_iff]
  unfold next
  split
  · exact Or.inl (Nat.lt_succ_self _)
  · exact Or.inr ⟨rfl, Nat.lt_succ_self _⟩

/-- Moving over characters never leads to an earlier place. -/
theorem le_foldl_next (p : Place) (text : List Char) : p ≤ text.foldl next p := by
  induction text generalizing p with
  | nil => exact le_refl p
  | cons c text ih => exact (p.lt_next c).le.trans (ih (p.next c))

/-- The place behind a text is passed by what comes after it. -/
theorem after_lt_append (before : List Char) {mid : List Char} (h : mid ≠ []) :
    after before < after (before ++ mid) := by
  obtain ⟨c, rest, rfl⟩ := List.exists_cons_of_ne_nil h
  unfold after
  rw [List.foldl_append, List.foldl_cons]
  exact (lt_next _ c).trans_le (le_foldl_next _ rest)

/-- Of two beginnings of one text, the one with more bytes leads to the later place. -/
theorem after_lt_after {before after before' after' : List Char}
    (h : before ++ after = before' ++ after') (hlt : size before < size before') :
    Place.after before < Place.after before' := by
  obtain ⟨mid, hmid, rfl, -⟩ := Row.exists_append_of_size_lt h hlt
  exact after_lt_append before hmid

end Place

/-! ## The place of an offset -/

/-- A text can be cut at its boundaries, and the place of a boundary is the one behind the first
part. -/
theorem exists_cut {text : List Char} {p : Nat} (h : isBoundary text p = true) :
    ∃ before after, text = before ++ after ∧ size before = p ∧
      place? text p = some (Place.after before) := by
  obtain ⟨after, hdrop⟩ := Option.isSome_iff_exists.1 h
  obtain ⟨before, htake, hcat, hsize⟩ := Row.take?_append_drop? hdrop
  have hle : p ≤ size text := by
    rw [← hcat, ← hsize]
    exact (Nat.le_add_right _ _).trans_eq (Row.size_append _ _ _).symm
  refine ⟨before, after, hcat.symm, hsize, ?_⟩
  rw [place?, Nat.min_eq_left hle, take?, htake, Option.map_some]

/-- What the place of an offset in a text says: the offset is behind so many line feeds, and the
line that it is on has so many characters before it. -/
structure Place.Tells (text : List Char) (offset : Nat) (place : Place) : Prop where
  counts : ∃ lines line after, text = lines ++ line ++ after ∧ size (lines ++ line) = offset ∧
    (lines = [] ∨ lines.getLast? = some '\n') ∧ '\n' ∉ line ∧
    place.line = (lines ++ line).count '\n' + 1 ∧ place.column = line.length + 1

/-- The place after a text counts the line feeds of the text, and the characters of its last line.
-/
theorem Place.after_tells (before after : List Char) :
    Tells (before ++ after) (size before) (Place.after before) := by
  have hnone := lineFeed_notMem_lastLine before
  rw [Place.after_eq]
  rcases lastLine_cases before with ⟨-, hwhole⟩ | ⟨start, hstart⟩
  · refine ⟨[], before, after, rfl, rfl, Or.inl rfl, hwhole ▸ hnone, rfl, ?_⟩
    rw [hwhole]
  · have hsplit : start ++ ['\n'] ++ lastLine before = before := by
      rw [List.append_assoc, List.singleton_append, ← hstart]
    refine ⟨start ++ ['\n'], lastLine before, after, ?_, ?_, Or.inr ?_, hnone, ?_, rfl⟩
    · rw [hsplit]
    · rw [hsplit]
    · exact List.getLast?_concat
    · rw [hsplit]

/-- Every offset at which a text can be cut has a place, which counts the lines and the characters
before it, and two of them are in the order of their places. -/
theorem places_identify (text : String) {p q : Nat} (hp : isBoundary text.toList p = true)
    (hq : isBoundary text.toList q = true) :
    ∃ P Q : Place, place? text.toList p = some P ∧ place? text.toList q = some Q ∧
      P.Tells text.toList p ∧ Q.Tells text.toList q ∧ (P < Q ↔ p < q) ∧ (P = Q ↔ p = q) := by
  obtain ⟨before, after, htext, rfl, hP⟩ := exists_cut hp
  obtain ⟨before', after', htext', rfl, hQ⟩ := exists_cut hq
  have hcat : before ++ after = before' ++ after' := htext.symm.trans htext'
  refine ⟨_, _, hP, hQ, htext ▸ Place.after_tells before after,
    htext' ▸ Place.after_tells before' after', ?_⟩
  rcases Nat.lt_trichotomy (size before) (size before') with hlt | heq | hlt
  · have hlt' := Place.after_lt_after hcat hlt
    exact ⟨iff_of_true hlt' hlt, iff_of_false hlt'.ne hlt.ne⟩
  · have hsame : place? text.toList (size before) = place? text.toList (size before') := by
      rw [heq]
    have heq' : Place.after before = Place.after before' :=
      Option.some.inj (hP.symm.trans (hsame.trans hQ))
    exact ⟨iff_of_false heq'.not_lt heq.not_lt, iff_of_true heq' heq⟩
  · have hlt' := Place.after_lt_after hcat.symm hlt
    exact ⟨iff_of_false hlt'.not_gt hlt.not_gt, iff_of_false hlt'.ne' hlt.ne'⟩

/-- Behind a character of two bytes, and behind the line feed after it: the column gets smaller, and
the place comes later. -/
theorem places_identify_wide :
    let text := "ab\ncdé\nf"
    isBoundary text.toList 7 = true ∧ isBoundary text.toList 8 = true ∧
      ∃ P Q : Place, place? text.toList 7 = some P ∧ place? text.toList 8 = some Q ∧
        P.Tells text.toList 7 ∧ Q.Tells text.toList 8 ∧ (P < Q ↔ 7 < 8) ∧ (P = Q ↔ 7 = 8) ∧
        P = ⟨2, 4⟩ ∧ Q = ⟨3, 1⟩ := by
  intro text
  have hp : isBoundary text.toList 7 = true := by decide
  have hq : isBoundary text.toList 8 = true := by decide
  obtain ⟨P, Q, hP, hQ, htells, htells', hlt, heq⟩ := places_identify text hp hq
  have hat : place? text.toList 7 = some ⟨2, 4⟩ ∧ place? text.toList 8 = some ⟨3, 1⟩ := by decide
  refine ⟨hp, hq, P, Q, hP, hQ, htells, htells', hlt, heq, ?_, ?_⟩
  · exact Option.some.inj (hP.symm.trans hat.1)
  · exact Option.some.inj (hQ.symm.trans hat.2)

end Peg.Text
