import Peg.Expr.Operator
import Peg.Proofs.Law

/-!
# Runs of flat chains

The operators keep chains flat: the sequence of two sequences is one sequence of all their items.
A run does not notice this. Items in a row do what the parts of the row do one after the other
(`Runs.items_append`, `Runs.items_split`), an expression does what its items do in a row
(`Runs.sequenceItems`, `Runs.of_sequenceItems`), and so for the alternatives of a choice
(`Runs.choice_append`, `Runs.choice_split`, `Runs.choiceItems`, `Runs.of_choiceItems`).
-/

namespace Peg

variable {α Id : Type}

/-! ## Plain chains -/

namespace Expr

variable {e l r : Expr α Id} {es es' : List (Expr α Id)}

/-- Two lists in a row are plain if each is. -/
theorem allPlain_append_iff : Expr.allPlain (es ++ es') = true ↔
    Expr.allPlain es = true ∧ Expr.allPlain es' = true := by
  simp only [allPlain_iff, List.forall_mem_append]

/-- An expression is plain if its items in a row are. -/
theorem allPlain_sequenceItems : Expr.allPlain e.sequenceItems = e.isPlain := by
  cases e with
  | sequence items => rfl
  | _ => exact Bool.and_true _

/-- An expression is plain if its alternatives are. -/
theorem allPlain_choiceItems : Expr.allPlain e.choiceItems = e.isPlain := by
  cases e with
  | choice items => rfl
  | _ => exact Bool.and_true _

/-- Plain expressions one after the other are plain. -/
theorem isPlain_andThen (hl : l.isPlain = true) (hr : r.isPlain = true) :
    (l.andThen r).isPlain = true := by
  rw [← allPlain_sequenceItems] at hl hr
  exact allPlain_append_iff.2 ⟨hl, hr⟩

/-- A plain expression or else another is plain. -/
theorem isPlain_orElse (hl : l.isPlain = true) (hr : r.isPlain = true) :
    (l.orElse r).isPlain = true := by
  rw [← allPlain_choiceItems] at hl hr
  exact allPlain_append_iff.2 ⟨hl, hr⟩

end Expr

/-! ## Effects -/

namespace Effect

variable {pos : Nat} {a b c : Effect Id}

/-- Effects in a row may be grouped as one likes. -/
theorem andThen_assoc (a b c : Effect Id) :
    (a.andThen b).andThen c = a.andThen (b.andThen c) := by
  simp [andThen, Nat.max_assoc]

/-- Staying where a run ended is part of the run. -/
theorem andThen_jump (h : a.stop ≤ a.reach) : a.andThen (.jump a.stop) = a := by
  simp [andThen, jump, Nat.max_eq_left h]

/-- What was taken back need not be taken back again. -/
theorem settle_settle (v : Verdict) (a : Effect Id) (pos : Nat) :
    (a.settle v pos).settle v pos = a.settle v pos := by
  unfold settle
  split <;> rfl

/-- What is taken back need not have been taken back before. -/
theorem settle_andThen_settle (v : Verdict) (a b : Effect Id) (pos q : Nat) :
    (a.andThen (b.settle v q)).settle v pos = (a.andThen b).settle v pos := by
  unfold settle
  split <;> rfl

/-- There is nothing to take back from an effect without records. -/
theorem Silent.undo_eq (h : a.Silent pos) : a.undo pos = a := by
  obtain ⟨stop, reach, forest, errors, events⟩ := a
  obtain ⟨rfl, rfl, rfl⟩ := h
  rfl

end Effect

/-! ## Runs -/

variable {s : Source α} {L : Nat → Nat → Prop} {floor pos : Nat}
  {C : Nat → Nat → Verdict → Effect Id → Prop} {e : Expr α Id} {es es' : List (Expr α Id)}
  {v : Verdict} {a b : Effect Id}

/-- An expression that fails has taken everything back already. -/
theorem Conforms.settle_eq (h : Conforms s L (.expr e) pos v a) : a.settle v pos = a := by
  unfold Effect.settle
  split
  · exact (h.silent rfl ‹_›).undo_eq
  · rfl

/-- Going back after a mismatch changes nothing. -/
theorem Conforms.undo_andThen_jump (h : Conforms s L (.expr e) pos .mismatch a) :
    (a.undo pos).andThen (.jump pos) = a := by
  have hsilent := h.silent rfl rfl
  have hjump := Effect.andThen_jump h.stop_le_reach
  rw [hsilent.stop_eq] at hjump
  rw [hsilent.undo_eq, hjump]

namespace Runs

/-- Items in a row: if all of the first part match, the rest goes on from where they ended. -/
theorem items_append (h : Runs s C (.items es) pos .ok a) (h' : Runs s C (.items es') a.stop v b)
    (hb : a.stop ≤ b.reach) : Runs s C (.items (es ++ es')) pos v (a.andThen b) := by
  induction es generalizing pos a with
  | nil =>
    cases h
    have hb' : pos ≤ b.reach := hb
    rw [Effect.jump_andThen hb']
    exact h'
  | cons e es ih =>
    cases h with
    | itemsCons hfirst hrest =>
      rw [Effect.andThen_assoc]
      exact .itemsCons hfirst (ih hrest h' hb)
    | itemsFail _ hv => exact absurd rfl hv

/-- Items in a row: if the first part does not match, the rest does not matter. -/
theorem items_append_fail (h : Runs s C (.items es) pos v a) (hv : v ≠ .ok) :
    Runs s C (.items (es ++ es')) pos v a := by
  induction es generalizing pos a with
  | nil =>
    cases h
    exact absurd rfl hv
  | cons e es ih =>
    cases h with
    | itemsCons hfirst hrest => exact .itemsCons hfirst (ih hrest)
    | itemsFail hfirst hv' => exact .itemsFail hfirst hv'

/-- Items in a row: either all of the first part match and the rest goes on from where they ended,
or the rest does not matter. -/
theorem items_split (hC : Regular s L floor C) (hfloor : floor ≤ pos) (hpos : s.Boundary pos)
    (h : Runs s C (.items (es ++ es')) pos v a) :
    (v ≠ .ok ∧ Runs s C (.items es) pos v a) ∨
      ∃ a₁ b, Runs s C (.items es) pos .ok a₁ ∧ Runs s C (.items es') a₁.stop v b ∧
        a = a₁.andThen b := by
  induction es generalizing pos a with
  | nil =>
    have hreach := (h.conforms hC hfloor hpos).le_reach
    exact .inr ⟨.jump pos, a, .itemsNil, h, (Effect.jump_andThen hreach).symm⟩
  | cons e es ih =>
    cases h with
    | itemsCons hfirst hrest =>
      have hwithin := (hfirst.conforms hC hfloor hpos).toWithin
      rcases ih (Nat.le_trans hfloor hwithin.le_stop) hwithin.boundary hrest with
        ⟨hv, h₁⟩ | ⟨a₁, b, h₁, h₂, rfl⟩
      · exact .inl ⟨hv, .itemsCons hfirst h₁⟩
      · exact .inr ⟨_, b, .itemsCons hfirst h₁, h₂, (Effect.andThen_assoc _ a₁ b).symm⟩
    | itemsFail hfirst hv => exact .inl ⟨hv, .itemsFail hfirst hv⟩

/-- Alternatives: if none of the first part matches, the rest is tried. -/
theorem choice_append (h : Runs s C (.expr (.choice es)) pos .mismatch a)
    (h' : Runs s C (.expr (.choice es')) pos v b) (hb : pos ≤ b.reach) :
    Runs s C (.expr (.choice (es ++ es'))) pos v (a.andThen b) := by
  induction es generalizing a with
  | nil =>
    cases h with
    | choiceNil =>
      rw [Effect.jump_andThen hb]
      exact h'
    | misses hr => cases hr
  | cons e es ih =>
    cases h with
    | choiceNext hfirst hrest =>
      rw [Effect.andThen_assoc]
      exact .choiceNext hfirst (ih hrest)
    | choiceDone _ hv => exact absurd rfl hv
    | misses hr => cases hr

/-- Alternatives: if one of the first part matches or signals, the rest does not matter. -/
theorem choice_append_done (h : Runs s C (.expr (.choice es)) pos v a) (hv : v ≠ .mismatch) :
    Runs s C (.expr (.choice (es ++ es'))) pos v a := by
  induction es generalizing a with
  | nil =>
    cases h with
    | choiceNil => exact absurd rfl hv
    | reads hr => cases hr
    | misses hr => cases hr
  | cons e es ih =>
    cases h with
    | choiceNext hfirst hrest => exact .choiceNext hfirst (ih hrest)
    | choiceDone hfirst hv' => exact .choiceDone hfirst hv'
    | reads hr => cases hr
    | misses hr => cases hr

/-- Alternatives: either the rest does not matter, or none of the first part matches and the rest is
tried. -/
theorem choice_split (hC : Regular s L floor C) (hfloor : floor ≤ pos) (hpos : s.Boundary pos)
    (h : Runs s C (.expr (.choice (es ++ es'))) pos v a) :
    (v ≠ .mismatch ∧ Runs s C (.expr (.choice es)) pos v a) ∨
      ∃ a₁ b, Runs s C (.expr (.choice es)) pos .mismatch a₁ ∧
        Runs s C (.expr (.choice es')) pos v b ∧ a = a₁.andThen b := by
  induction es generalizing a with
  | nil =>
    have hreach := (h.conforms hC hfloor hpos).le_reach
    exact .inr ⟨.jump pos, a, .choiceNil, h, (Effect.jump_andThen hreach).symm⟩
  | cons e es ih =>
    cases h with
    | choiceNext hfirst hrest =>
      rcases ih hrest with ⟨hv, h₁⟩ | ⟨a₁, b, h₁, h₂, rfl⟩
      · exact .inl ⟨hv, .choiceNext hfirst h₁⟩
      · exact .inr ⟨_, b, .choiceNext hfirst h₁, h₂, (Effect.andThen_assoc _ a₁ b).symm⟩
    | choiceDone hfirst hv => exact .inl ⟨hv, .choiceDone hfirst hv⟩
    | reads hr => cases hr
    | misses hr => cases hr

/-- A row of one item does what the item does. -/
theorem items_single (h : Runs s C (.expr e) pos v a) (hreach : a.stop ≤ a.reach) :
    Runs s C (.items [e]) pos v a := by
  by_cases hv : v = .ok
  · subst hv
    rw [← Effect.andThen_jump hreach]
    exact .itemsCons h .itemsNil
  · exact .itemsFail h hv

/-- A row of one expression runs as the expression. -/
theorem of_items_single (hC : Regular s L floor C) (hfloor : floor ≤ pos) (hpos : s.Boundary pos)
    (h : Runs s C (.items [e]) pos v a) : Runs s C (.expr e) pos v a := by
  cases h with
  | itemsCons hfirst hrest =>
    cases hrest
    rwa [Effect.andThen_jump (hfirst.conforms hC hfloor hpos).stop_le_reach]
  | itemsFail hfirst _ => exact hfirst

/-- A choice with one alternative does what the alternative does. -/
theorem choice_single (h : Runs s C (.expr e) pos v a) (hconf : Conforms s L (.expr e) pos v a) :
    Runs s C (.expr (.choice [e])) pos v a := by
  by_cases hv : v = .mismatch
  · subst hv
    have hrun := Runs.choiceNext h .choiceNil
    rwa [hconf.undo_andThen_jump] at hrun
  · rw [← hconf.settle_eq]
    exact .choiceDone h hv

/-- A choice of one expression runs as the expression. -/
theorem of_choice_single (hC : Regular s L floor C) (hfloor : floor ≤ pos) (hpos : s.Boundary pos)
    (h : Runs s C (.expr (.choice [e])) pos v a) : Runs s C (.expr e) pos v a := by
  cases h with
  | choiceNext hfirst hrest =>
    have hconf := hfirst.conforms hC hfloor hpos
    cases hrest with
    | choiceNil => rwa [hconf.undo_andThen_jump]
    | reads hr => cases hr
    | misses hr => cases hr
  | choiceDone hfirst _ => rwa [(hfirst.conforms hC hfloor hpos).settle_eq]
  | reads hr => cases hr
  | misses hr => cases hr

/-- An expression does what its items do in a row, and takes it back if they fail. -/
theorem sequenceItems (h : Runs s C (.expr e) pos v a) (hconf : Conforms s L (.expr e) pos v a) :
    ∃ a', Runs s C (.items e.sequenceItems) pos v a' ∧ a'.settle v pos = a := by
  cases e with
  | sequence items =>
    cases h with
    | sequence hitems => exact ⟨_, hitems, rfl⟩
    | reads hr => cases hr
    | misses hr => cases hr
  | _ => exact ⟨a, h.items_single hconf.stop_le_reach, hconf.settle_eq⟩

/-- The items of an expression in a row run as the expression, up to what is taken back on
failure. -/
theorem of_sequenceItems (hC : Regular s L floor C) (hfloor : floor ≤ pos) (hpos : s.Boundary pos)
    (h : Runs s C (.items e.sequenceItems) pos v a) :
    Runs s C (.expr e) pos v (a.settle v pos) := by
  have hsingle (hone : e.sequenceItems = [e]) : Runs s C (.expr e) pos v (a.settle v pos) := by
    rw [hone] at h
    have hrun := h.of_items_single hC hfloor hpos
    rwa [(hrun.conforms hC hfloor hpos).settle_eq]
  cases e with
  | sequence items => exact .sequence h
  | _ => exact hsingle rfl

/-- An expression does what the choice of its alternatives does. -/
theorem choiceItems (h : Runs s C (.expr e) pos v a) (hconf : Conforms s L (.expr e) pos v a) :
    Runs s C (.expr (.choice e.choiceItems)) pos v a := by
  cases e with
  | choice items => exact h
  | _ => exact h.choice_single hconf

/-- The choice of the alternatives of an expression runs as the expression. -/
theorem of_choiceItems (hC : Regular s L floor C) (hfloor : floor ≤ pos) (hpos : s.Boundary pos)
    (h : Runs s C (.expr (.choice e.choiceItems)) pos v a) : Runs s C (.expr e) pos v a := by
  cases e with
  | choice items => exact h
  | _ => exact h.of_choice_single hC hfloor hpos

end Runs

end Peg
