import Peg.Span

/-!
# Matches

A match is a tagged stretch of the source together with the matches found inside it, in order. What
a run of a grammar reports is a *forest*: a list of matches.

Trees are taken apart by pairs of functions, one for a match and one for a list of matches. All of
them recur on the data, so they compute in proofs as they do when they are run.
-/

namespace Peg

/-- A tagged stretch of the source, and the matches inside it. -/
structure Match (Id : Type) where
  /-- The tag. -/
  id : Id
  /-- The stretch of the source that was matched. -/
  span : Span
  /-- The matches recorded while the tagged expression was parsed. -/
  children : List (Match Id)

namespace Match

variable {Id : Type}

/-! ## Counting -/

mutual

/-- The number of matches in a tree, its root included. -/
def count : Match Id → Nat
  | ⟨_, _, children⟩ => countAll children + 1

/-- The number of matches in a forest, at every depth. -/
def countAll : List (Match Id) → Nat
  | [] => 0
  | m :: rest => count m + countAll rest

end

/-! ## Listing and searching -/

mutual

/-- The matches of a tree in pre-order, each with its depth below a root at the given depth. -/
def preorderFrom (depth : Nat) : Match Id → List (Nat × Match Id)
  | ⟨id, span, children⟩ => (depth, ⟨id, span, children⟩) :: preorderAllFrom (depth + 1) children

/-- The matches of a forest in pre-order, its roots at the given depth. -/
def preorderAllFrom (depth : Nat) : List (Match Id) → List (Nat × Match Id)
  | [] => []
  | m :: rest => preorderFrom depth m ++ preorderAllFrom depth rest

end

/-- The matches of a forest in pre-order, with depths; the roots have depth zero. -/
def preorder (forest : List (Match Id)) : List (Nat × Match Id) := preorderAllFrom 0 forest

mutual

/-- The first match in pre-order, the root included, that carries the tag. -/
def find? [DecidableEq Id] (tag : Id) : Match Id → Option (Match Id)
  | ⟨id, span, children⟩ =>
    if id = tag then some ⟨id, span, children⟩ else findAll? tag children

/-- The first match of a forest, in pre-order, that carries the tag. -/
def findAll? [DecidableEq Id] (tag : Id) : List (Match Id) → Option (Match Id)
  | [] => none
  | m :: rest =>
    match find? tag m with
    | some found => some found
    | none => findAll? tag rest

end

/-! ## Equality -/

mutual

/-- Equality of matches is decided by tag, span and children. -/
def decEq [DecidableEq Id] : (a b : Match Id) → Decidable (a = b)
  | ⟨i, s, cs⟩, ⟨j, t, ds⟩ =>
    if hid : i = j then
      if hspan : s = t then
        match decEqAll cs ds with
        | isTrue h => isTrue (by rw [hid, hspan, h])
        | isFalse h => isFalse (by rintro ⟨⟩; exact h rfl)
      else isFalse (by rintro ⟨⟩; exact hspan rfl)
    else isFalse (by rintro ⟨⟩; exact hid rfl)

/-- Equality of forests is decided match by match. -/
def decEqAll [DecidableEq Id] : (a b : List (Match Id)) → Decidable (a = b)
  | [], [] => isTrue rfl
  | [], _ :: _ => isFalse nofun
  | _ :: _, [] => isFalse nofun
  | m :: ms, n :: ns =>
    match decEq m n, decEqAll ms ns with
    | isTrue h, isTrue h' => isTrue (by rw [h, h'])
    | isFalse h, _ => isFalse (by rintro ⟨⟩; exact h rfl)
    | _, isFalse h => isFalse (by rintro ⟨⟩; exact h rfl)

end

/-- Trees of matches can be compared. -/
instance [DecidableEq Id] : DecidableEq (Match Id) := decEq

end Match

end Peg
