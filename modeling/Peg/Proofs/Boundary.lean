import Peg.Source

/-!
# Boundaries

A position is a *boundary* of a source if the source can be cut there. Cursors that only ever move
over whole elements stay on boundaries, and on a boundary the two questions "is there an element
here" and "is this before the end" have the same answer (`Boundary.lt_walk_one`). That is what makes
every loop that moves over one element at a time come to an end: `after` counts the elements that
are left, and it goes down whenever a cursor moves forward from one boundary to another
(`Boundary.after_lt`).
-/

namespace Peg.Source

variable {α : Type} {s : Source α} {p q : Nat} {a : α} {rest : List α}

/-- A position at which the source can be cut. -/
def Boundary (s : Source α) (p : Nat) : Prop := ∃ rest, s.remaining? p = some rest

/-- The number of elements from a position on. -/
def after (s : Source α) (p : Nat) : Nat := ((s.remaining? p).getD []).length

/-! ## Cutting at a boundary -/

/-- What remains at a position is an end of the source, and the position is the size of what comes
before it. -/
theorem remaining?_eq_some_iff :
    s.remaining? p = some rest ↔
      ∃ first, first ++ rest = s.elements ∧ Row.size s.width first = p := by
  constructor
  · intro h
    obtain ⟨first, -, hcat, hsize⟩ := Row.take?_append_drop? h
    exact ⟨first, hcat, hsize⟩
  · rintro ⟨first, hcat, rfl⟩
    rw [remaining?, ← hcat]
    exact Row.drop?_size_append s.width_pos first rest

/-- The element at a boundary is the first of those that remain there. -/
theorem elementAt_of_remaining? (h : s.remaining? p = some rest) :
    s.elementAt p = rest.head?.map fun a => (a, s.width a) := by
  obtain ⟨first, hcat, hsize⟩ := remaining?_eq_some_iff.1 h
  have hlen : (Row.layout s.width first).length = p := by
    rw [Row.length_layout s.width_pos, hsize]
  rw [elementAt_eq, ← hcat, Row.layout_append,
    List.getElem?_append_right (Nat.le_of_eq hlen), hlen, Nat.sub_self]
  cases rest with
  | nil => rfl
  | cons a rest => rfl

/-- Past an element, the rest remains. -/
theorem remaining?_add_width (h : s.remaining? p = some (a :: rest)) :
    s.remaining? (p + s.width a) = some rest := by
  obtain ⟨first, hcat, hsize⟩ := remaining?_eq_some_iff.1 h
  refine remaining?_eq_some_iff.2 ⟨first ++ [a], by simpa using hcat, ?_⟩
  rw [Row.size_append, hsize, Row.size, Row.size, Nat.add_zero]

/-- A boundary and the size of what remains there make up the size of the source. -/
theorem add_size_of_remaining? (h : s.remaining? p = some rest) :
    p + Row.size s.width rest = s.size := by
  obtain ⟨first, hcat, hsize⟩ := remaining?_eq_some_iff.1 h
  rw [size_eq, ← hcat, Row.size_append, hsize]

/-- A row is at least as wide as it is long, since no element is empty. -/
theorem length_le_rowSize (s : Source α) (row : List α) : row.length ≤ Row.size s.width row := by
  induction row with
  | nil => exact Nat.le_refl 0
  | cons a rest ih =>
    have := s.width_pos a
    simp only [List.length_cons, Row.size]
    omega

/-! ## Boundaries and the number of elements left -/

/-- A source begins on a boundary. -/
theorem boundary_zero (s : Source α) : s.Boundary 0 :=
  ⟨s.elements, remaining?_eq_some_iff.2 ⟨[], rfl, rfl⟩⟩

/-- A source ends on a boundary. -/
theorem boundary_size (s : Source α) : s.Boundary s.size :=
  ⟨[], remaining?_eq_some_iff.2 ⟨s.elements, List.append_nil _, (size_eq s).symm⟩⟩

/-- No boundary is beyond the end of the source. -/
theorem Boundary.le_size (h : s.Boundary p) : p ≤ s.size := by
  obtain ⟨rest, hrest⟩ := h
  have := add_size_of_remaining? hrest
  omega

/-- The elements left at a boundary are those that remain there. -/
theorem after_of_remaining? (h : s.remaining? p = some rest) : s.after p = rest.length := by
  simp [after, h]

/-- No more elements are left than there is width left. -/
theorem Boundary.after_add_le_size (h : s.Boundary p) : s.after p + p ≤ s.size := by
  obtain ⟨rest, hrest⟩ := h
  have hlen := length_le_rowSize s rest
  have hsize := add_size_of_remaining? hrest
  rw [after_of_remaining? hrest]
  omega

/-- Fewer elements are left at a later boundary. -/
theorem Boundary.after_lt (hp : s.Boundary p) (hq : s.Boundary q) (hpq : p < q) :
    s.after q < s.after p := by
  obtain ⟨rest, hrest⟩ := hp
  obtain ⟨last, hlast⟩ := hq
  obtain ⟨first, hcat, hsize⟩ := remaining?_eq_some_iff.1 hrest
  obtain ⟨first', hcat', hsize'⟩ := remaining?_eq_some_iff.1 hlast
  rw [after_of_remaining? hrest, after_of_remaining? hlast]
  rw [← hsize, ← hsize'] at hpq
  obtain ⟨mid, hmid, -, rfl⟩ := Row.exists_append_of_size_lt (hcat.trans hcat'.symm) hpq
  have := List.length_pos_iff.2 hmid
  rw [List.length_append]
  omega

/-- No more elements are left at a boundary that is not earlier. -/
theorem Boundary.after_le (hp : s.Boundary p) (hq : s.Boundary q) (hpq : p ≤ q) :
    s.after q ≤ s.after p := by
  rcases Nat.eq_or_lt_of_le hpq with rfl | hlt
  · exact Nat.le_refl _
  · exact Nat.le_of_lt (hp.after_lt hq hlt)

/-! ## Walking from a boundary -/

/-- An element ends on a boundary if it starts on one. -/
theorem Boundary.add_width {w : Nat} (h : s.Boundary p) (hat : s.elementAt p = some (a, w)) :
    s.Boundary (p + w) := by
  obtain ⟨rest, hrest⟩ := h
  rw [elementAt_of_remaining? hrest] at hat
  cases rest with
  | nil => cases hat
  | cons b rest =>
    cases hat
    exact ⟨rest, remaining?_add_width hrest⟩

/-- Walking never goes back. -/
theorem le_walk (s : Source α) (p n : Nat) : p ≤ s.walk p n := by
  fun_induction s.walk p n with
  | case1 p => exact Nat.le_refl p
  | case2 p n h => exact Nat.le_refl p
  | case3 p n a w h ih => omega

/-- Walking from a boundary ends on one. -/
theorem Boundary.walk (h : s.Boundary p) (n : Nat) : s.Boundary (s.walk p n) := by
  fun_induction s.walk p n with
  | case1 p => exact h
  | case2 p n hnone => exact h
  | case3 p n a w hsome ih => exact ih (h.add_width hsome)

/-- Before the end of the source, a step over one element gets further. -/
theorem Boundary.lt_walk_one (h : s.Boundary p) (hp : p < s.size) : p < s.walk p 1 := by
  obtain ⟨rest, hrest⟩ := h
  cases rest with
  | nil =>
    have := add_size_of_remaining? hrest
    simp only [Row.size] at this
    omega
  | cons a rest =>
    have hat := elementAt_of_remaining? hrest
    simp only [List.head?_cons, Option.map_some] at hat
    have := s.width_pos a
    simp only [Source.walk, hat]
    omega

/-- There is no boundary inside an element. -/
theorem Boundary.walk_one_le (hp : s.Boundary p) (hq : s.Boundary q) (hpq : p < q) :
    s.walk p 1 ≤ q := by
  obtain ⟨rest, hrest⟩ := hp
  cases rest with
  | nil =>
    have hend := add_size_of_remaining? hrest
    have hle := hq.le_size
    simp only [Row.size] at hend
    omega
  | cons a rest =>
    have hnext := remaining?_add_width hrest
    have hat := elementAt_of_remaining? hrest
    simp only [List.head?_cons, Option.map_some] at hat
    simp only [Source.walk, hat]
    refine Nat.le_of_not_lt fun hinside => ?_
    -- fewer elements would be left at `q` than at `p`, and more than after the one at `p`
    have hfewer := Boundary.after_lt ⟨_, hrest⟩ hq hpq
    have hmore := hq.after_lt ⟨_, hnext⟩ hinside
    rw [after_of_remaining? hrest, List.length_cons] at hfewer
    rw [after_of_remaining? hnext] at hmore
    omega

end Peg.Source
