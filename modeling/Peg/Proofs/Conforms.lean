import Peg.Proofs.Boundary
import Peg.Proofs.Runs

/-!
# What every run keeps to

A run of a plain expression never moves the cursor backwards and never beyond the end, it ends on a
boundary, a failure leaves no records and the cursor where it was, and a signal of left recursion
can only be raised by a rule that was entered at the very position at which the run began.
`Conforms` collects these facts, and `Runs.conforms` proves them for every task from the same facts
about the rules of the grammar (`Regular`).

The last of them is what carries the others through loops and skipping. These do not go back to
where they began when a round is given up on a signal, or do so by a count. But no rule can have
been entered beyond the position at which the frames were made, so a signal can only come from a
part that is still there (`Regular.eq_of_signal`).
-/

namespace Peg

variable {α Id : Type}

/-- An effect that moves forward within a source, from one boundary to another. -/
structure Effect.Within (s : Source α) (pos : Nat) (a : Effect Id) : Prop where
  le_stop : pos ≤ a.stop
  stop_le_reach : a.stop ≤ a.reach
  reach_le_size : a.reach ≤ s.size
  boundary : s.Boundary a.stop

/-- An effect that leaves the cursor where it was and records nothing. -/
structure Effect.Silent (pos : Nat) (a : Effect Id) : Prop where
  stop_eq : a.stop = pos
  forest_eq : a.forest = []
  errors_eq : a.errors = []

/-- What holds of every run of a task. The rules that may signal left recursion, and where, are
given by `L`. -/
structure Conforms (s : Source α) (L : Nat → Nat → Prop) (t : Task α Id) (pos : Nat) (v : Verdict)
    (a : Effect Id) : Prop extends a.Within s pos where
  answer : v.isAnswer = true
  silent : t.isSettled = true → v.isFailure = true → a.Silent pos
  signal : ∀ q, v = .leftRecursion q → L q pos

/-- The rules of a grammar do what they should from a position on, and no signal can be raised
beyond that position. -/
structure Regular (s : Source α) (L : Nat → Nat → Prop) (floor : Nat)
    (C : Nat → Nat → Verdict → Effect Id → Prop) : Prop where
  conforms : ∀ i p v a, floor ≤ p → s.Boundary p → C i p v a →
    Conforms s L (.expr (.rule i) : Task α Id) p v a
  early : ∀ q p, L q p → p ≤ floor

/-! ## Effects within a source -/

namespace Effect

variable {s : Source α} {pos : Nat} {a b : Effect Id}

/-- Staying on a boundary is within the source. -/
theorem Within.jump (hpos : s.Boundary pos) : (jump pos : Effect Id).Within s pos :=
  ⟨Nat.le_refl pos, Nat.le_refl pos, hpos.le_size, hpos⟩

/-- Moving forward to a boundary is within the source. -/
theorem Within.jumpTo {stop : Nat} (hle : pos ≤ stop) (hstop : s.Boundary stop) :
    (Effect.jump stop : Effect Id).Within s pos :=
  ⟨hle, Nat.le_refl stop, hstop.le_size, hstop⟩

/-- An effect reaches at least as far as its start. -/
theorem Within.le_reach (ha : a.Within s pos) : pos ≤ a.reach :=
  Nat.le_trans ha.le_stop ha.stop_le_reach

/-- Two effects in a row are within the source if each is, from where it starts. -/
theorem Within.andThen (ha : a.Within s pos) (hb : b.Within s a.stop) :
    (a.andThen b).Within s pos where
  le_stop := Nat.le_trans ha.le_stop hb.le_stop
  stop_le_reach := Nat.le_trans hb.stop_le_reach (Nat.le_max_right _ _)
  reach_le_size := Nat.max_le.2 ⟨ha.reach_le_size, hb.reach_le_size⟩
  boundary := hb.boundary

/-- An effect may be cut back to any boundary between its ends. -/
theorem Within.undo {stop : Nat} (ha : a.Within s pos) (hle : pos ≤ stop) (hreach : stop ≤ a.reach)
    (hstop : s.Boundary stop) : (a.undo stop).Within s pos :=
  ⟨hle, hreach, ha.reach_le_size, hstop⟩

/-- An effect may be taken back to its start. -/
theorem Within.undo_start (ha : a.Within s pos) (hpos : s.Boundary pos) :
    (a.undo pos).Within s pos :=
  ha.undo (Nat.le_refl pos) ha.le_reach hpos

/-- Taking an effect back on failure keeps it within the source. -/
theorem Within.settle (ha : a.Within s pos) (hpos : s.Boundary pos) (v : Verdict) :
    (a.settle v pos).Within s pos := by
  unfold Effect.settle
  split
  · exact ha.undo_start hpos
  · exact ha

/-- Staying is silent. -/
theorem silent_jump (pos : Nat) : (jump pos : Effect Id).Silent pos := ⟨rfl, rfl, rfl⟩

/-- What is taken back is silent. -/
theorem silent_undo (pos : Nat) (a : Effect Id) : (a.undo pos).Silent pos := ⟨rfl, rfl, rfl⟩

/-- A failure that is taken back is silent. -/
theorem silent_settle {v : Verdict} (pos : Nat) (a : Effect Id) (hv : v.isFailure = true) :
    (a.settle v pos).Silent pos := by
  rw [Effect.settle, if_pos hv]
  exact silent_undo pos a

/-- Two silent effects in a row are silent. -/
theorem Silent.andThen (ha : a.Silent pos) (hb : b.Silent pos) : (a.andThen b).Silent pos where
  stop_eq := hb.stop_eq
  forest_eq := by rw [Effect.andThen, ha.forest_eq, hb.forest_eq]; rfl
  errors_eq := by rw [Effect.andThen, ha.errors_eq, hb.errors_eq]; rfl

/-- On a state, an effect without records only raises the furthest position and the log. -/
theorem Silent.on_eq {st : State Id} (ha : a.Silent st.position) :
    a.on st = { st with
      furthest := max st.furthest a.reach
      log := a.events ++ st.log } := by
  simp [Effect.on, ha.stop_eq, ha.forest_eq, ha.errors_eq]

end Effect

/-! ## Every run conforms -/

section runs

variable {s : Source α} {L : Nat → Nat → Prop} {floor : Nat}
  {C : Nat → Nat → Verdict → Effect Id → Prop}

/-- A signal raised at or after the beginning of a run was raised at the beginning. -/
theorem Regular.eq_of_signal (hC : Regular s L floor C) {q p pos : Nat} (h : L q p)
    (hfloor : floor ≤ pos) (hle : pos ≤ p) : p = pos :=
  Nat.le_antisymm (Nat.le_trans (hC.early q p h) hfloor) hle

/-- Fewer rules, asked at later positions only, are regular if more of them are. -/
theorem Regular.restrict {C' : Nat → Nat → Verdict → Effect Id → Prop} {pos : Nat}
    (hC : Regular s L floor C) (hsub : ∀ i p v a, C' i p v a → C i p v a) (hfloor : floor ≤ pos) :
    Regular s L pos C' where
  conforms := fun i p v a hp hbp h =>
    hC.conforms i p v a (Nat.le_trans hfloor hp) hbp (hsub i p v a h)
  early := fun q p hq => Nat.le_trans (hC.early q p hq) hfloor

/-- A terminal moves forward to a boundary. -/
theorem Reads.jump_within {pos stop : Nat} {e : Expr α Id} (h : Reads s pos e (some stop))
    (hpos : s.Boundary pos) : (Effect.jump stop : Effect Id).Within s pos := by
  generalize hr : some stop = r at h
  cases h with
  | satisfy test =>
    split at hr <;> cases hr
    exact .jumpTo (s.le_walk pos 1) (hpos.walk 1)
  | literal tests =>
    split at hr <;> cases hr
    exact .jumpTo (s.le_walk pos _) (hpos.walk _)
  | endOfInput =>
    split at hr <;> cases hr
    exact .jump hpos

/-- An expression that takes its failures back conforms if the task inside it does. -/
theorem Conforms.settle {t : Task α Id} {e : Expr α Id} {pos : Nat} {v : Verdict} {a : Effect Id}
    (h : Conforms s L t pos v a) (hpos : s.Boundary pos) :
    Conforms s L (.expr e) pos v (a.settle v pos) where
  toWithin := h.toWithin.settle hpos v
  answer := h.answer
  silent := fun _ hv => Effect.silent_settle pos a hv
  signal := h.signal

/-- A conforming continuation of a conforming match conforms, except that it may leave records when
it fails. -/
theorem Conforms.andThen (hC : Regular s L floor C) {t t' t'' : Task α Id} {pos : Nat} {v : Verdict}
    {a b : Effect Id} (ht : t''.isSettled = false) (ha : Conforms s L t pos .ok a)
    (hb : Conforms s L t' a.stop v b) (hfloor : floor ≤ pos) :
    Conforms s L t'' pos v (a.andThen b) where
  toWithin := ha.toWithin.andThen hb.toWithin
  answer := hb.answer
  silent := fun h => by rw [ht] at h; cases h
  signal := fun q hq => by
    have h := hb.signal q hq
    rwa [hC.eq_of_signal h hfloor ha.le_stop] at h

/-- A mismatch and what is tried after it. -/
theorem Conforms.afterMismatch {t t' t'' : Task α Id} {pos : Nat} {v : Verdict} {a b : Effect Id}
    (ha : Conforms s L t pos .mismatch a) (hb : Conforms s L t' pos v b) (hpos : s.Boundary pos)
    (ht : t'.isSettled = true) : Conforms s L t'' pos v ((a.undo pos).andThen b) where
  toWithin := (ha.toWithin.undo_start hpos).andThen hb.toWithin
  answer := hb.answer
  silent := fun _ hv => (Effect.silent_undo pos a).andThen (hb.silent ht hv)
  signal := hb.signal

/-- Repetition as long as possible never ends in a mismatch. -/
theorem Runs.ne_mismatch {t : Task α Id} {pos : Nat} {v : Verdict} {a : Effect Id}
    (h : Runs s C t pos v a) (ht : t.isRepetition = true) : v ≠ .mismatch := by
  induction h with
  | loopEnd | loopStay | skipAtEnd | skipFound => exact nofun
  | loopSignal | skipSignal => exact nofun
  | loopMore _ _ _ _ ih => exact ih rfl
  | skipNext _ _ _ _ ih => exact ih rfl
  | _ => cases ht

/-- Every run of a task from a boundary conforms, if the rules of the grammar are regular. -/
theorem Runs.conforms (hC : Regular s L floor C) {t : Task α Id} {pos : Nat} {v : Verdict}
    {a : Effect Id} (h : Runs s C t pos v a) (hfloor : floor ≤ pos) (hpos : s.Boundary pos) :
    Conforms s L t pos v a := by
  induction h with
  | reads hr => exact ⟨hr.jump_within hpos, rfl, nofun, nofun⟩
  | misses hr => exact ⟨.jump hpos, rfl, fun _ _ => Effect.silent_jump _, nofun⟩
  | rule h => exact hC.conforms _ _ _ _ hfloor hpos h
  | sequence _ ih => exact (ih hfloor hpos).settle hpos
  | choiceNil => exact ⟨.jump hpos, rfl, fun _ _ => Effect.silent_jump _, nofun⟩
  | choiceNext _ _ ih₁ ih₂ =>
    exact (ih₁ hfloor hpos).afterMismatch (ih₂ hfloor hpos) hpos rfl
  | choiceDone _ _ ih => exact (ih hfloor hpos).settle hpos
  | group _ ih => exact { ih hfloor hpos with }
  | star _ ih => exact (ih hfloor hpos).settle hpos
  | plusOnce _ _ ih => exact (ih hfloor hpos).settle hpos
  | @plusMore pos e v a b _ hmoved _ ih₁ ih₂ =>
    have ha := ih₁ hfloor hpos
    have hb := ih₂ (Nat.le_trans hfloor ha.le_stop) ha.boundary
    have hab : Conforms s L (.loop e) pos v (a.andThen b) := .andThen hC rfl ha hb hfloor
    exact hab.settle hpos
  | @optional pos e v a _ ih =>
    have h := ih hfloor hpos
    cases v with
    | ok => exact ⟨h.toWithin, rfl, nofun, nofun⟩
    | mismatch => exact ⟨h.toWithin.undo_start hpos, rfl, nofun, nofun⟩
    | leftRecursion q => exact h.settle hpos
    | fault => cases h.answer
    | exhausted => cases h.answer
  | ahead _ ih =>
    have h := ih hfloor hpos
    exact ⟨h.toWithin.undo_start hpos, h.answer, fun _ _ => Effect.silent_undo _ _, h.signal⟩
  | @notAhead pos e v a _ ih =>
    have h := ih hfloor hpos
    have hundo := h.toWithin.undo_start hpos
    cases v with
    | ok => exact ⟨hundo, rfl, fun _ _ => Effect.silent_undo _ _, nofun⟩
    | mismatch => exact ⟨hundo, rfl, nofun, nofun⟩
    | leftRecursion q => exact ⟨hundo, rfl, fun _ _ => Effect.silent_undo _ _, h.signal⟩
    | fault => cases h.answer
    | exhausted => cases h.answer
  | times _ ih => exact (ih hfloor hpos).settle hpos
  | tagOk _ ih =>
    have h := ih hfloor hpos
    exact ⟨⟨h.le_stop, h.stop_le_reach, h.reach_le_size, h.boundary⟩, rfl, nofun, nofun⟩
  | tagFail _ _ ih => exact (ih hfloor hpos).settle hpos
  | recoverAtEnd _ _ ih => exact { ih hfloor hpos with }
  | recoverPass _ _ _ ih => exact { ih hfloor hpos with }
  | @recoverOk pos e f id a b _ _ _ ih₁ ih₂ =>
    have h : Conforms s L (.expr f) pos .ok ((a.undo pos).andThen b) :=
      (ih₁ hfloor hpos).afterMismatch (ih₂ hfloor hpos) hpos rfl
    exact ⟨⟨h.le_stop, h.stop_le_reach, h.reach_le_size, h.boundary⟩, rfl, nofun, nofun⟩
  | @recoverFail pos e f id v a b _ _ _ _ ih₁ ih₂ =>
    have h : Conforms s L (.expr f) pos v ((a.undo pos).andThen b) :=
      (ih₁ hfloor hpos).afterMismatch (ih₂ hfloor hpos) hpos rfl
    exact h.settle hpos
  | skipBefore _ ih => exact { ih hfloor hpos with }
  | skipPast _ ih => exact { ih hfloor hpos with }
  | itemsNil => exact ⟨.jump hpos, rfl, nofun, nofun⟩
  | itemsCons _ _ ih₁ ih₂ =>
    have ha := ih₁ hfloor hpos
    exact .andThen hC rfl ha (ih₂ (Nat.le_trans hfloor ha.le_stop) ha.boundary) hfloor
  | itemsFail _ _ ih =>
    have h := ih hfloor hpos
    exact ⟨h.toWithin, h.answer, nofun, h.signal⟩
  | loopEnd _ ih => exact ⟨(ih hfloor hpos).toWithin.undo_start hpos, rfl, nofun, nofun⟩
  | loopStay _ _ ih => exact ⟨(ih hfloor hpos).toWithin, rfl, nofun, nofun⟩
  | loopMore _ _ _ ih₁ ih₂ =>
    have ha := ih₁ hfloor hpos
    exact .andThen hC rfl ha (ih₂ (Nat.le_trans hfloor ha.le_stop) ha.boundary) hfloor
  | loopSignal _ ih =>
    have h := ih hfloor hpos
    exact ⟨h.toWithin, rfl, nofun, h.signal⟩
  | skipAtEnd _ => exact ⟨.jump hpos, rfl, nofun, nofun⟩
  | @skipFound pos past e a _ _ ih =>
    have h := ih hfloor hpos
    refine ⟨?_, rfl, nofun, nofun⟩
    cases past with
    | false => exact h.toWithin.undo_start hpos
    | true => exact h.toWithin.undo h.le_stop h.stop_le_reach h.boundary
  | @skipNext pos past e v a b hlt _ hrest ih₁ ih₂ =>
    have ha := ih₁ hfloor hpos
    -- a mismatch leaves the cursor where it was, so one step over an element gets further
    have hstop := (ha.silent rfl rfl).stop_eq
    rw [hstop] at ih₂
    have hnext := hpos.lt_walk_one hlt
    have hb := ih₂ (by omega) (hpos.walk 1)
    have hb' : b.Within s a.stop :=
      ⟨by rw [hstop]; exact Nat.le_trans (Nat.le_of_lt hnext) hb.le_stop, hb.stop_le_reach,
        hb.reach_le_size, hb.boundary⟩
    -- beyond the first position there is no signal, so the rest of the skipping does not fail
    have hsignal : ∀ q, v ≠ .leftRecursion q := fun q hq => by
      have := hC.early q _ (hb.signal q hq)
      omega
    refine ⟨ha.toWithin.andThen hb', hb.answer, fun _ hv => ?_, fun q hq => absurd hq (hsignal q)⟩
    cases v with
    | mismatch => exact absurd rfl (hrest.ne_mismatch rfl)
    | leftRecursion q => exact absurd rfl (hsignal q)
    | ok | fault | exhausted => cases hv
  | skipSignal _ _ ih =>
    have h := ih hfloor hpos
    exact ⟨h.toWithin, rfl, h.silent, h.signal⟩

end runs

end Peg
