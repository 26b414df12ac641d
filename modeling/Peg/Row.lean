import Peg.Span

/-!
# Rows of elements and their positions

Elements of a row take up positions: an element of width `w` takes up `w` of them, and the next one
begins right after it. A position lies *on a boundary* when the elements before it take up exactly
that many positions. A row can be cut at a boundary and nowhere else, so the cuts below answer
`none` at a position inside an element or beyond the end. Nothing is rounded and nothing is clamped.

The width is a function of the element: the characters of a text have the widths of their UTF-8
forms, and where positions are plain indices every element has width one.

* `drop?_size_append`, `take?_size_append`: a row can be cut after each of its beginnings.
* `take?_append_drop?`: wherever it can be cut, the two parts are the whole row.
-/

namespace Peg.Row

variable {α : Type}

/-- The number of positions a row takes up. -/
def size (width : α → Nat) : List α → Nat
  | [] => 0
  | a :: rest => width a + size width rest

/-- The row after its first `n` positions. -/
def drop? (width : α → Nat) : Nat → List α → Option (List α)
  | 0, row => some row
  | _ + 1, [] => none
  | n + 1, a :: rest => if width a ≤ n + 1 then drop? width (n + 1 - width a) rest else none

/-- The first `n` positions of a row. -/
def take? (width : α → Nat) : Nat → List α → Option (List α)
  | 0, _ => some []
  | _ + 1, [] => none
  | n + 1, a :: rest =>
    if width a ≤ n + 1 then (take? width (n + 1 - width a) rest).map (a :: ·) else none

/-- The part of a row that a span covers. The span must be ordered, must lie within the row, and
must have both ends on a boundary. -/
def slice? (width : α → Nat) (span : Span) (row : List α) : Option (List α) :=
  if span.start ≤ span.stop then
    (drop? width span.start row).bind (take? width (span.stop - span.start))
  else none

/-- Whether a row can be cut at a position. -/
def isBoundary (width : α → Nat) (row : List α) (p : Nat) : Bool := (drop? width p row).isSome

/-- The cells of a row, one for each position: an element in its first, nothing in the others. -/
def layout (width : α → Nat) : List α → List (Option α)
  | [] => []
  | a :: rest => some a :: (List.replicate (width a - 1) none ++ layout width rest)

/-! ## Cutting -/

/-- The sizes of two rows add up. -/
theorem size_append (width : α → Nat) (a b : List α) :
    size width (a ++ b) = size width a + size width b := by
  induction a with
  | nil => simp [size]
  | cons x rest ih => simp [size, ih, Nat.add_assoc]

/-- If every element is one wide, the size is the length. -/
theorem size_one (row : List α) : size (fun _ => 1) row = row.length := by
  induction row with
  | nil => rfl
  | cons a rest ih => rw [size, ih, List.length_cons, Nat.add_comm]

/-- Of two beginnings of one row, the larger one goes on where the smaller one ends. -/
theorem exists_append_of_size_lt {width : α → Nat} {a b c d : List α} (h : a ++ b = c ++ d)
    (hlt : size width a < size width c) : ∃ mid, mid ≠ [] ∧ c = a ++ mid ∧ b = mid ++ d := by
  rcases List.append_eq_append_iff.1 h with ⟨mid, rfl, rfl⟩ | ⟨mid, rfl, -⟩
  · refine ⟨mid, ?_, rfl, rfl⟩
    rintro rfl
    rw [List.append_nil] at hlt
    exact Nat.lt_irrefl _ hlt
  · rw [size_append] at hlt
    omega

/-- Dropping the size of a first part leaves the second. -/
theorem drop?_size_append {width : α → Nat} (pos : ∀ x, 0 < width x) (a b : List α) :
    drop? width (size width a) (a ++ b) = some b := by
  induction a with
  | nil => cases b <;> rfl
  | cons x rest ih =>
    have hx := pos x
    obtain ⟨k, hk⟩ : ∃ k, width x + size width rest = k + 1 :=
      ⟨width x + size width rest - 1, by omega⟩
    have hle : width x ≤ k + 1 := by omega
    have hsub : k + 1 - width x = size width rest := by omega
    simp only [size, List.cons_append, hk, drop?, if_pos hle, hsub, ih]

/-- Taking the size of a first part gives the first part. -/
theorem take?_size_append {width : α → Nat} (pos : ∀ x, 0 < width x) (a b : List α) :
    take? width (size width a) (a ++ b) = some a := by
  induction a with
  | nil => cases b <;> rfl
  | cons x rest ih =>
    have hx := pos x
    obtain ⟨k, hk⟩ : ∃ k, width x + size width rest = k + 1 :=
      ⟨width x + size width rest - 1, by omega⟩
    have hle : width x ≤ k + 1 := by omega
    have hsub : k + 1 - width x = size width rest := by omega
    simp only [size, List.cons_append, hk, take?, if_pos hle, hsub, ih, Option.map_some]

/-- Both cuts exist at the same positions, and the two parts are the whole row. -/
theorem take?_append_drop? {width : α → Nat} {n : Nat} {row last : List α}
    (h : drop? width n row = some last) :
    ∃ first, take? width n row = some first ∧ first ++ last = row ∧ size width first = n := by
  fun_induction drop? width n row with
  | case1 row =>
    cases h
    exact ⟨[], by cases last <;> simp [take?, size]⟩
  | case2 => cases h
  | case3 n a row hle ih =>
    obtain ⟨first, h₁, h₂, h₃⟩ := ih h
    refine ⟨a :: first, by simp [take?, hle, h₁], by simp [h₂], ?_⟩
    simp only [size, h₃]
    omega
  | case4 => cases h

/-! ## Cells -/

/-- Two rows are laid out one after the other. -/
theorem layout_append (width : α → Nat) (a b : List α) :
    layout width (a ++ b) = layout width a ++ layout width b := by
  induction a with
  | nil => rfl
  | cons x rest ih => simp [layout, ih]

/-- A row is laid out over as many positions as its size. -/
theorem length_layout {width : α → Nat} (pos : ∀ x, 0 < width x) (row : List α) :
    (layout width row).length = size width row := by
  induction row with
  | nil => rfl
  | cons x rest ih =>
    have hx := pos x
    simp only [layout, size, List.length_cons, List.length_append, List.length_replicate, ih]
    omega

end Peg.Row

namespace Peg

/-- The elements a span covers in a row whose positions are indices. -/
def Span.elements? {α : Type} (span : Span) (row : List α) : Option (List α) :=
  Row.slice? (fun _ => 1) span row

end Peg
