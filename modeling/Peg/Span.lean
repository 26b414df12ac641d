/-!
# Spans

A position is a natural number: a byte offset in a text, an index in a row of other elements. A
span is a pair of positions. Nothing asks that a span starts before it stops, because spans are
also made by callers: one that does not is *empty*, has length zero, and covers nothing that can be
cut out of a source.
-/

namespace Peg

/-- A stretch of a source, from `start` up to but not including `stop`. -/
structure Span where
  /-- The first position of the span. -/
  start : Nat
  /-- The position just after the span. -/
  stop : Nat
deriving DecidableEq

namespace Span

/-- The span of a single position, which covers nothing. -/
def point (p : Nat) : Span := ⟨p, p⟩

/-- A span is empty when it does not stop after its start. -/
def isEmpty (s : Span) : Bool := decide (s.stop ≤ s.start)

/-- The number of positions a span covers; an empty span covers none. -/
def length (s : Span) : Nat := s.stop - s.start

/-- The span with its end moved up to its start, if it stops before it. -/
def clamped (s : Span) : Span := ⟨s.start, max s.start s.stop⟩

/-! ## Small facts -/

/-- A clamped span stops at or after its start. -/
theorem clamped_ordered (s : Span) : s.clamped.start ≤ s.clamped.stop :=
  Nat.le_max_left _ _

end Span

end Peg
