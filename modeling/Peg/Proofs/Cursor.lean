import Mathlib.Algebra.GroupWithZero.Nat
import Peg.Proofs.Boundary
import Peg.State
import Peg.Text.Offset

/-!
# Counting elements with the cursor

`State.advance` is told a number of elements and moves the cursor over them; positions are offsets,
so it has to find out how wide each of them is. `State.advance_counts` says that it counts elements
and nothing else, for texts and for rows whose positions are indices. What it passes are the next
elements, as many as it was told or all that are left, and it stops where they end. Two moves are
one move over both numbers of elements, and `Source.peekNth` looks at the element that would be
under the cursor after a move.

Everything is told by what remains of a source from a position on (`Source.remaining?`): a walk over
`n` elements drops the first `n` of these (`Source.remaining?_walk`). That two walks are one
(`Source.walk_add`) holds at every position, since a walk that has ended early does not go on.
-/

namespace Peg

variable {α Id : Type}

/-! ## Walking -/

/-- The size of a row is the sum of the widths. -/
theorem Row.size_eq_sum (width : α → Nat) (row : List α) :
    size width row = (row.map width).sum := by
  induction row with
  | nil => rfl
  | cons a rest ih => rw [size, ih, List.map_cons, List.sum_cons]

namespace Source

variable {s : Source α} {p : Nat} {rest : List α}

/-- Two walks are one walk over the elements of both. -/
theorem walk_add (s : Source α) (p m n : Nat) : s.walk p (m + n) = s.walk (s.walk p m) n := by
  induction m generalizing p with
  | zero => rw [Nat.zero_add, walk]
  | succ m ih =>
    rw [Nat.succ_add]
    cases hat : s.elementAt p with
    | none =>
      -- where no element starts, the second walk ends as well
      cases n <;> simp only [walk, hat]
    | some x => simp only [walk, hat, ih]

/-- A walk drops elements from what remains. -/
theorem remaining?_walk (h : s.remaining? p = some rest) (n : Nat) :
    s.remaining? (s.walk p n) = some (rest.drop n) := by
  induction n generalizing p rest with
  | zero => exact h
  | succ n ih =>
    have hat := elementAt_of_remaining? h
    cases rest with
    | nil =>
      simp only [List.head?_nil, Option.map_none] at hat
      simpa only [walk, hat, List.drop_nil] using h
    | cons a rest =>
      simp only [List.head?_cons, Option.map_some] at hat
      simpa only [walk, hat, List.drop_succ_cons] using ih (remaining?_add_width h)

/-- A walk ends behind the elements that it drops. -/
theorem walk_eq_add_size (h : s.remaining? p = some rest) (n : Nat) :
    s.walk p n = p + Row.size s.width (rest.take n) := by
  have hend := add_size_of_remaining? h
  have hend' := add_size_of_remaining? (remaining?_walk h n)
  have hsplit := Row.size_append s.width (rest.take n) (rest.drop n)
  rw [List.take_append_drop] at hsplit
  omega

/-- The element some elements ahead is the one that a walk over these leads to. -/
theorem peekNth_eq (s : Source α) (p n : Nat) :
    s.peekNth p n = (s.elementAt (s.walk p n)).map Prod.fst := by
  induction n generalizing p with
  | zero => rfl
  | succ n ih =>
    cases hat : s.elementAt p with
    | none => simp only [peekNth, walk, hat, Option.map_none]
    | some x => simp only [peekNth, walk, hat, ih]

/-- In a slice of elements, what remains at an index is the list without its first elements. -/
theorem remaining?_ofList {row : List α} (h : p ≤ row.length) :
    (ofList row).remaining? p = some (row.drop p) := by
  refine remaining?_eq_some_iff.2 ⟨row.take p, List.take_append_drop p row, ?_⟩
  exact (Row.size_one _).trans (List.length_take_of_le h)

end Source

/-! ## Moving the cursor -/

namespace State

variable {s : Source α} {st : State Id} {rest : List α}

/-- Two moves are one move over the elements of both, and they leave the same state. -/
theorem advance_advance (s : Source α) (m n : Nat) (st : State Id) :
    (st.advance s m).advance s n = st.advance s (m + n) := by
  have hle : s.walk st.position m ≤ s.walk st.position (m + n) := by
    rw [s.walk_add]
    exact s.le_walk _ n
  simp only [advance, ← s.walk_add, Nat.max_assoc, Nat.max_eq_right hle]

/-- The element under the cursor is the first of those that remain. -/
theorem peek_eq_head? (h : s.remaining? st.position = some rest) : st.peek s = rest.head? := by
  rw [peek, Source.elementAt_of_remaining? h, Option.map_map]
  exact Option.map_id'

/-- What moving and looking ahead come to where the given elements remain. -/
structure Counts (s : Source α) (st : State Id) (rest : List α) : Prop where
  /-- A move passes the next `n` elements, or all of them if there are fewer, and ends on a
  boundary. -/
  remaining : ∀ n, s.remaining? (st.advance s n).position = some (rest.drop n)
  /-- It goes as far as these elements are wide together, -/
  position : ∀ n, (st.advance s n).position = st.position + ((rest.take n).map s.width).sum
  /-- and not beyond the end of the source. -/
  le_size : ∀ n, (st.advance s n).position ≤ s.size
  /-- Two moves leave the state that one move over both numbers of elements leaves. -/
  twice : ∀ m n, (st.advance s m).advance s n = st.advance s (m + n)
  /-- If more than `n` elements remain, looking `n` elements ahead shows the one that is under the
  cursor after a move over `n` elements. -/
  ahead : ∀ n, n < rest.length → ∃ a, rest[n]? = some a ∧ s.peekNth st.position n = some a ∧
    (st.advance s n).peek s = some a
  /-- Otherwise there is nothing to be seen. -/
  beyond : ∀ n, rest.length ≤ n → s.peekNth st.position n = none

/-- The cursor counts the elements that remain, in every source. -/
theorem counts_of_remaining? (h : s.remaining? st.position = some rest) : st.Counts s rest := by
  have hrest := Source.remaining?_walk h
  have hahead : ∀ n, (st.advance s n).peek s = rest[n]? := by
    intro n
    rw [peek_eq_head? (hrest n), List.head?_drop]
  have hpeek : ∀ n, s.peekNth st.position n = rest[n]? :=
    fun n => (s.peekNth_eq st.position n).trans (hahead n)
  constructor
  case remaining => exact hrest
  case position =>
    intro n
    rw [← Row.size_eq_sum]
    exact Source.walk_eq_add_size h n
  case le_size => exact fun n => Source.Boundary.le_size ⟨_, hrest n⟩
  case twice => exact fun m n => st.advance_advance s m n
  case ahead =>
    intro n hn
    have hat := List.getElem?_eq_getElem hn
    exact ⟨_, hat, (hpeek n).trans hat, (hahead n).trans hat⟩
  case beyond =>
    intro n hn
    rw [hpeek, List.getElem?_eq_none hn]

/-- The cursor counts elements: characters from every place where a text can be cut, and the members
of a row from every index. -/
theorem advance_counts :
    (∀ (text : String) (st : State Id), Text.isBoundary text.toList st.position = true →
      ∃ rest, Text.drop? st.position text.toList = some rest ∧ st.Counts (.ofText text) rest) ∧
    ∀ (row : List α) (st : State Id), st.position ≤ row.length →
      st.Counts (.ofList row) (row.drop st.position) := by
  constructor
  · intro text st hcut
    obtain ⟨rest, hrest⟩ := Option.isSome_iff_exists.1 hcut
    exact ⟨rest, hrest, counts_of_remaining? hrest⟩
  · intro row st hle
    exact counts_of_remaining? (Source.remaining?_ofList hle)

/-- Over characters of one, two and four bytes, from behind the first one: the second move asks for
more elements than there are. -/
theorem advance_counts_wide :
    let st : State Nat := { position := 1, furthest := 1 }
    Text.isBoundary "hé😀".toList st.position = true ∧ st.position ≤ [3, 5, 7].length ∧
      (∃ rest, Text.drop? st.position "hé😀".toList = some rest ∧ rest = ['é', '😀'] ∧
        st.Counts (.ofText "hé😀") rest) ∧
      st.Counts (.ofList [3, 5, 7]) [5, 7] := by
  intro st
  obtain ⟨htext, hrow⟩ := @advance_counts Nat Nat
  have hcut : Text.isBoundary "hé😀".toList st.position = true := by decide
  have hle : st.position ≤ [3, 5, 7].length := by decide
  obtain ⟨rest, hrest, hcounts⟩ := htext "hé😀" st hcut
  have heq : Text.drop? st.position "hé😀".toList = some ['é', '😀'] := by decide
  exact ⟨hcut, hle, ⟨rest, hrest, Option.some.inj (hrest.symm.trans heq), hcounts⟩,
    hrow [3, 5, 7] st hle⟩

end State

end Peg
