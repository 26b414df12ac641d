import Peg.Row

/-!
# Sources

A source is a row of elements to be parsed. Its positions are laid out once, as an array of cells,
so that looking an element up takes the same time wherever it stands. The field `cells_eq` says that
the array is the layout of the row: two sources with the same elements and widths are the same
source, and `elementAt_eq` and `size_eq` turn statements about the array into statements about the
row.
-/

namespace Peg

/-- A row of elements, by position. -/
structure Source (α : Type) where
  /-- The elements in order. -/
  elements : List α
  /-- How many positions an element takes up. -/
  width : α → Nat
  /-- Every element takes up at least one position. -/
  width_pos : ∀ a, 0 < width a
  /-- The elements by position. -/
  cells : Array (Option α)
  /-- The array is the layout of the elements. -/
  cells_eq : cells = (Row.layout width elements).toArray

namespace Source

variable {α : Type}

/-- The source of a row of elements with the given widths. -/
def ofElements (width : α → Nat) (width_pos : ∀ a, 0 < width a) (elements : List α) : Source α where
  elements := elements
  width := width
  width_pos := width_pos
  cells := (Row.layout width elements).toArray
  cells_eq := rfl

/-- The source of a row in which every element takes up one position. -/
def ofList (elements : List α) : Source α :=
  ofElements (fun _ => 1) (fun _ => Nat.one_pos) elements

/-- The source of a text, whose positions are byte offsets. -/
def ofText (text : String) : Source Char :=
  ofElements Char.utf8Size Char.utf8Size_pos text.toList

/-- The position after the last element. -/
def size (s : Source α) : Nat := s.cells.size

/-- The element that starts at a position, with its width. There is none inside an element, and
none at the end or beyond it. -/
def elementAt (s : Source α) (p : Nat) : Option (α × Nat) :=
  (s.cells[p]?).join.map fun a => (a, s.width a)

/-! ## Walking over elements -/

/-- The position reached from `p` over at most `n` elements; the walk ends early where no element
starts. -/
def walk (s : Source α) (p : Nat) : Nat → Nat
  | 0 => p
  | n + 1 =>
    match s.elementAt p with
    | none => p
    | some (_, w) => s.walk (p + w) n

/-- The element `n` elements after the one at `p`. -/
def peekNth (s : Source α) (p : Nat) : Nat → Option α
  | 0 => (s.elementAt p).map Prod.fst
  | n + 1 =>
    match s.elementAt p with
    | none => none
    | some (_, w) => s.peekNth (p + w) n

/-- Whether the elements from `p` on pass the given tests one by one. -/
def passes (s : Source α) (p : Nat) : List (α → Bool) → Bool
  | [] => true
  | test :: rest =>
    match s.elementAt p with
    | none => false
    | some (a, w) => test a && s.passes (p + w) rest

/-- The elements from a position on, if an element starts there or the source ends there. -/
def remaining? (s : Source α) (p : Nat) : Option (List α) := Row.drop? s.width p s.elements

/-! ## Small facts -/

/-- The cell at a position holds the element that starts there. -/
theorem elementAt_eq (s : Source α) (p : Nat) :
    s.elementAt p = ((Row.layout s.width s.elements)[p]?).join.map fun a => (a, s.width a) := by
  simp [elementAt, s.cells_eq]

/-- A source ends where the widths of its elements add up to. -/
theorem size_eq (s : Source α) : s.size = Row.size s.width s.elements := by
  rw [size, s.cells_eq, List.size_toArray, Row.length_layout s.width_pos]

end Source

end Peg
