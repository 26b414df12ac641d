import Peg.Parser

/-!
# Effects

A parser is handed a state with a history: records, a furthest position, a log. An *effect* is what
one run adds to that history, told without it: where the cursor ends, the furthest position reached
on the way, and the records and log entries that are new. `Effect.on` carries an effect out on a
state.

Going back to a checkpoint cuts lists to their old lengths. On effects the same thing is forgetting
the records (`Effect.undo`), and `on_restore` says that the two agree: whatever a run appended, the
cut at the counts of its start is exact. Everything that is proved about backtracking rests on this
one equation.

`Parser.Does` says that a parser has a given effect at a place, that is, for a given position and a
given stack of frames, whatever the rest of the state may be.
-/

namespace Peg

/-- What a run adds to a state. -/
structure Effect (Id : Type) where
  /-- Where the cursor ends. -/
  stop : Nat
  /-- The furthest position reached on the way. -/
  reach : Nat
  /-- The new matches, oldest first. -/
  forest : List (Match Id)
  /-- The new syntax errors, oldest first. -/
  errors : List (SyntaxError Id)
  /-- The new entries of the log, newest first. -/
  events : List Event

namespace Effect

variable {Id : Type}

/-- Moves the cursor and does nothing else. -/
def jump (p : Nat) : Effect Id := ⟨p, p, [], [], []⟩

/-- One effect after another. -/
def andThen (a b : Effect Id) : Effect Id :=
  ⟨b.stop, max a.reach b.reach, a.forest ++ b.forest, a.errors ++ b.errors, b.events ++ a.events⟩

/-- Goes back to the beginning: only the furthest position and the log remain. -/
def undo (pos : Nat) (a : Effect Id) : Effect Id := ⟨pos, a.reach, [], [], a.events⟩

/-- Goes back to the beginning after a failure. -/
def settle (v : Verdict) (pos : Nat) (a : Effect Id) : Effect Id :=
  if v.isFailure then a.undo pos else a

/-- Puts a match around all new matches. -/
def wrap (id : Id) (pos : Nat) (a : Effect Id) : Effect Id :=
  { a with forest := [⟨id, ⟨pos, a.stop⟩, a.forest⟩] }

/-- Adds an entry to the log. -/
def note (e : Event) (a : Effect Id) : Effect Id := { a with events := e :: a.events }

/-- Adds a syntax error. -/
def report (e : SyntaxError Id) (a : Effect Id) : Effect Id := { a with errors := a.errors ++ [e] }

/-- The same effect with other log entries. -/
def logged (events : List Event) (a : Effect Id) : Effect Id := { a with events := events }

/-- The state after an effect. -/
def on (a : Effect Id) (st : State Id) : State Id :=
  { st with
    position := a.stop
    furthest := max st.furthest a.reach
    forest := st.forest ++ a.forest
    errors := st.errors ++ a.errors
    log := a.events ++ st.log }

/-! ## Carrying effects out -/

section on

variable (a b : Effect Id) (st : State Id)

/-- The cursor is left where the effect stops. -/
@[simp] theorem on_position : (a.on st).position = a.stop := rfl

/-- The mark is raised to what the effect reaches. -/
@[simp] theorem on_furthest : (a.on st).furthest = max st.furthest a.reach := rfl

/-- Two effects in a row are carried out one after the other. -/
@[simp] theorem andThen_on : (a.andThen b).on st = b.on (a.on st) := by
  simp [andThen, on, Nat.max_assoc]

/-- A last log entry of an effect is noted after the effect. -/
@[simp] theorem note_on (e : Event) : (a.note e).on st = (a.on st).note e := rfl

/-- A cursor that stays within what was reached before leaves no trace. -/
theorem jump_on (h : st.position ≤ st.furthest) : (jump st.position).on st = st := by
  simp [jump, on, Nat.max_eq_left h]

/-- Cutting the lists to their old lengths is forgetting what was appended. -/
@[simp] theorem on_restore : (a.on st).restore st.checkpoint = (a.undo st.position).on st := by
  simp [on, State.restore, State.checkpoint, undo]

/-- Taking a failure back after an effect is carrying out the effect as it is settled. -/
theorem settle_on (v : Verdict) :
    Parser.settle st.checkpoint (v, a.on st) = (v, (a.settle v st.position).on st) := by
  cases v <;> simp [Parser.settle, settle, Verdict.isFailure]

end on

/-! ## Settling -/

/-- A success is not taken back. -/
@[simp] theorem settle_ok (pos : Nat) (a : Effect Id) : a.settle .ok pos = a := rfl

/-- Taking an effect back leaves what it reached. -/
@[simp] theorem settle_reach (v : Verdict) (pos : Nat) (a : Effect Id) :
    (a.settle v pos).reach = a.reach := by
  unfold settle
  split <;> rfl

/-- Taking an effect back leaves its log entries. -/
theorem settle_events (v : Verdict) (pos : Nat) (a : Effect Id) :
    (a.settle v pos).events = a.events := by
  unfold settle
  split <;> rfl

/-- What is taken back does not depend on the log entries. -/
theorem logged_settle (v : Verdict) (pos : Nat) (l : List Event) (a : Effect Id) :
    (a.logged l).settle v pos = (a.settle v pos).logged l := by
  unfold settle
  split <;> rfl

end Effect

/-! ## Parsers that have an effect -/

/-- A state is at a place if its cursor and its frames are as given, and the cursor is not beyond
the furthest position. -/
structure State.At {Id : Type} (st : State Id) (fs : List (Frame Id)) (pos : Nat) : Prop where
  position_eq : st.position = pos
  frames_eq : st.frames = fs
  le_furthest : pos ≤ st.furthest

namespace State.At

variable {α Id : Type} {st : State Id} {fs : List (Frame Id)} {pos : Nat}

/-- Resetting the mark to the cursor does not move the state. -/
theorem resetFurthest (hst : st.At fs pos) : st.resetFurthest.At fs pos :=
  ⟨hst.position_eq, hst.frames_eq, Nat.le_of_eq hst.position_eq.symm⟩

/-- A log entry does not move the state. -/
theorem note (hst : st.At fs pos) (e : Event) : (st.note e).At fs pos :=
  ⟨hst.position_eq, hst.frames_eq, hst.le_furthest⟩

/-- A state is at the end if its position is. -/
theorem atEnd_iff {s : Source α} (hst : st.At fs pos) : st.atEnd s = true ↔ s.size ≤ pos := by
  simp [State.atEnd, State.hasInput, hst.position_eq]

end State.At

/-- Every run begins at the beginning of the source, outside of all rules. -/
theorem State.initial_at {Id : Type} : (State.initial : State Id).At [] 0 :=
  ⟨rfl, rfl, Nat.le_refl 0⟩

/-- At a place, a parser comes back with a verdict and an effect that do not depend on what was
recorded before. -/
def Parser.Does {Id : Type} (p : Parser Id) (fs : List (Frame Id)) (pos : Nat) (v : Verdict)
    (a : Effect Id) : Prop :=
  ∀ st : State Id, st.At fs pos → p st = (v, a.on st)

namespace Effect

variable {Id : Type} {a b : Effect Id} {st : State Id} {fs : List (Frame Id)} {pos : Nat}

/-- After an effect that reached at least its end, the state is at the place of that end. -/
theorem on_at (hst : st.At fs pos) (h : a.stop ≤ a.reach) : (a.on st).At fs a.stop :=
  ⟨rfl, hst.frames_eq, Nat.le_trans h (Nat.le_max_right _ _)⟩

/-- Two effects that cannot be told apart on any state are the same. -/
theorem eq_of_on_eq (h : ∀ st : State Id, st.At fs pos → a.on st = b.on st) (ha : pos ≤ a.reach)
    (hb : pos ≤ b.reach) : a = b := by
  -- the state without any history shows all parts of an effect
  let clean : State Id := { position := pos, furthest := pos, frames := fs }
  have hclean := h clean ⟨rfl, rfl, Nat.le_refl pos⟩
  obtain ⟨stop, reach, forest, errors, events⟩ := a
  obtain ⟨stop', reach', forest', errors', events'⟩ := b
  simp only [on, clean, List.nil_append, List.append_nil, State.mk.injEq, Nat.max_eq_right ha,
    Nat.max_eq_right hb] at hclean
  obtain ⟨rfl, rfl, rfl, rfl, -, rfl⟩ := hclean
  rfl

end Effect

namespace Parser

variable {Id : Type} {p : Parser Id} {fs : List (Frame Id)} {pos : Nat} {v w : Verdict}
  {a b : Effect Id}

/-- A parser has at most one verdict and effect at a place. -/
theorem Does.unique (h : p.Does fs pos v a) (h' : p.Does fs pos w b) (ha : pos ≤ a.reach)
    (hb : pos ≤ b.reach) : v = w ∧ a = b := by
  have hboth : ∀ st : State Id, st.At fs pos → (v, a.on st) = (w, b.on st) := fun st hst =>
    (h st hst).symm.trans (h' st hst)
  refine ⟨?_, Effect.eq_of_on_eq (fun st hst => (Prod.mk.inj (hboth st hst)).2) ha hb⟩
  exact (Prod.mk.inj (hboth { position := pos, furthest := pos, frames := fs }
    ⟨rfl, rfl, Nat.le_refl pos⟩)).1

end Parser

end Peg
