import Peg.Span

/-!
# The span of a record

A record of parsed parts has a span of its own, read off the spans of its fields:

1. a field that is marked as the span gives both ends;
2. otherwise, fields named `start` and `end`, if both are there, give one end each;
3. otherwise the first field gives the start and the last one the end.

A record in which two fields are marked, or which has no field at all, has no span. A variant
holds a single part and has the span of that part.
-/

namespace Peg

/-- A field of a record: its name if it has one, whether it is marked as the record's span, and
the span of the part it holds. -/
structure Field where
  /-- The name; a field of a tuple has none. -/
  name : Option String
  /-- Whether this field is marked as the span of the record. -/
  marked : Bool
  /-- The span of the part. -/
  span : Span
deriving DecidableEq

namespace Field

/-- A field with a name. -/
def named (name : String) (span : Span) : Field := ⟨some name, false, span⟩

/-- A field without a name. -/
def unnamed (span : Span) : Field := ⟨none, false, span⟩

/-- The same field, marked as the span of its record. -/
def mark (f : Field) : Field := { f with marked := true }

end Field

/-- The two fields that give a record its ends, the one for the start first. -/
def Record.ends? (fields : List Field) : Option (Field × Field) :=
  match fields.filter (·.marked) with
  | [field] => some (field, field)
  | _ :: _ :: _ => none
  | [] =>
    match fields.find? (·.name == some "start"), fields.find? (·.name == some "end") with
    | some first, some last => some (first, last)
    | _, _ =>
      match fields.head?, fields.getLast? with
      | some first, some last => some (first, last)
      | _, _ => none

/-- The span of a record with the given fields. -/
def Record.span? (fields : List Field) : Option Span :=
  (Record.ends? fields).map fun (first, last) => ⟨first.span.start, last.span.stop⟩

end Peg
