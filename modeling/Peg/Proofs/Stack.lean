import Mathlib.Data.Finset.Card
import Mathlib.Data.Finset.Prod
import Peg.Proofs.Boundary
import Peg.State

/-!
# Stacks of frames

The frames of a run are a stack, the innermost frame first. In a run of plain expressions the
cursor never goes back behind a frame, so the positions of the frames descend from the top of the
stack, and strictly so for the frames of one rule (`Stack`). Two things follow:

* the innermost frame of a rule tells whether the rule is being parsed at the cursor at all
  (`Stack.ne_position_of_answer?`), so it is enough to look at that one;
* no rule has two frames at one position (`Stack.nodup_places`), so a stack has at most as many
  frames as there are rules and positions together (`Stack.length_le`), which bounds the nesting of
  rules.
-/

namespace Peg

variable {α Id : Type}

namespace Frame

/-- Where a frame was made: its rule and its position. -/
def place (f : Frame Id) : Nat × Nat := (f.rule, f.position)

/-- How a rule answers at a position, if its innermost frame was made there. -/
def answer? (fs : List (Frame Id)) (rule pos : Nat) : Option (Mode Id) :=
  ((fs.find? fun f => f.rule == rule).filter fun f => f.position == pos).map (·.mode)

/-- A rule that was entered at a position and has not answered there yet. -/
def Signals (fs : List (Frame Id)) (rule pos : Nat) : Prop := answer? fs rule pos = some .fresh

/-- A frame of the rule decides, and answers only at its own position; other frames are passed
over. -/
theorem answer?_cons (f : Frame Id) (fs : List (Frame Id)) (rule pos : Nat) :
    answer? (f :: fs) rule pos =
      if f.rule = rule then (if f.position = pos then some f.mode else none)
      else answer? fs rule pos := by
  unfold answer?
  by_cases hrule : f.rule = rule
  · by_cases hpos : f.position = pos <;> simp [hrule, hpos, Option.filter]
  · simp [hrule]

/-- The innermost frame answers for its rule at its position. -/
theorem answer?_cons_self (i pos : Nat) (m : Mode Id) (fs : List (Frame Id)) :
    answer? (⟨i, pos, m⟩ :: fs) i pos = some m := by
  rw [answer?_cons, if_pos rfl, if_pos rfl]

/-- The innermost frame is passed over for other rules. -/
theorem answer?_cons_ne {i q : Nat} (h : q ≠ i) (p pos : Nat) (m : Mode Id)
    (fs : List (Frame Id)) : answer? (⟨i, p, m⟩ :: fs) q pos = answer? fs q pos := by
  rw [answer?_cons, if_neg h.symm]

/-- An answer comes from a frame of the rule at that position. -/
theorem exists_of_answer? {fs : List (Frame Id)} {rule pos : Nat} {m : Mode Id}
    (h : answer? fs rule pos = some m) :
    ∃ f, fs.find? (fun f => f.rule == rule) = some f ∧ f ∈ fs ∧ f.rule = rule ∧
      f.position = pos ∧ f.mode = m := by
  simp only [answer?, Option.map_eq_some_iff, Option.filter_eq_some_iff] at h
  obtain ⟨f, ⟨hfind, hpos⟩, hmode⟩ := h
  refine ⟨f, hfind, List.mem_of_find?_eq_some hfind, ?_, by simpa using hpos, hmode⟩
  simpa using List.find?_some hfind

/-- Frames at other positions give no answer. -/
theorem answer?_eq_none {fs : List (Frame Id)} {rule pos : Nat} (h : ∀ f ∈ fs, f.position ≠ pos) :
    answer? fs rule pos = none := by
  cases hanswer : answer? fs rule pos with
  | none => rfl
  | some m =>
    obtain ⟨f, -, hf, -, hposition, -⟩ := exists_of_answer? hanswer
    exact absurd hposition (h f hf)

/-- The innermost frame of a rule is the one that gets the mode. -/
theorem setMode_cons_self (i pos : Nat) (m m' : Mode Id) (fs : List (Frame Id)) :
    setMode i m' (⟨i, pos, m⟩ :: fs) = ⟨i, pos, m'⟩ :: fs := by
  simp [setMode]

/-- Giving a frame a mode moves no frame. -/
theorem map_place_setMode (i : Nat) (m : Mode Id) (fs : List (Frame Id)) :
    (setMode i m fs).map place = fs.map place := by
  induction fs with
  | nil => rfl
  | cons f fs ih =>
    rw [setMode]
    split
    · rfl
    · rw [List.map_cons, List.map_cons, ih]

/-- Giving a frame a mode adds no frame. -/
theorem length_setMode (i : Nat) (m : Mode Id) (fs : List (Frame Id)) :
    (setMode i m fs).length = fs.length := by
  induction fs with
  | nil => rfl
  | cons f fs ih =>
    unfold setMode
    split
    · rfl
    · rw [List.length_cons, List.length_cons, ih]

end Frame

/-- A mode that fits a frame at a position: a result that stands for the rule ends at a boundary
that is not before the position. -/
def Mode.Fits (s : Source α) (pos : Nat) : Mode Id → Prop
  | .fresh => True
  | .seeding => True
  | .growing stop _ _ => s.Boundary stop ∧ pos ≤ stop

/-- A stack of frames of the first `n` rules, none of which is beyond `floor`. -/
structure Stack (s : Source α) (n floor : Nat) (fs : List (Frame Id)) : Prop where
  rule_lt : ∀ f ∈ fs, f.rule < n
  position_le : ∀ f ∈ fs, f.position ≤ floor
  ordered : fs.Pairwise fun f g =>
    g.position ≤ f.position ∧ (f.rule = g.rule → g.position < f.position)
  mode_fits : ∀ f ∈ fs, f.mode.Fits s f.position

namespace Stack

variable {s : Source α} {n floor pos : Nat} {fs : List (Frame Id)}

/-- An empty list of frames is a stack. -/
theorem nil (s : Source α) (n floor : Nat) : Stack s n floor ([] : List (Frame Id)) :=
  ⟨nofun, nofun, .nil, nofun⟩

/-- A stack stays one when the cursor moves forward. -/
theorem raise (h : Stack s n floor fs) (hle : floor ≤ pos) : Stack s n pos fs :=
  { h with position_le := fun f hf => Nat.le_trans (h.position_le f hf) hle }

/-- Where the innermost frame of a rule gives no answer, no frame of the rule was made. -/
theorem ne_position_of_answer? {i : Nat} (h : Stack s n floor fs) (hle : floor ≤ pos)
    (hnone : Frame.answer? fs i pos = none) : ∀ f ∈ fs, f.rule = i → f.position ≠ pos := by
  obtain ⟨-, hpos, hord, -⟩ := h
  induction fs with
  | nil => exact nofun
  | cons f fs ih =>
    intro g hg hrule
    rw [List.pairwise_cons] at hord
    by_cases hf : f.rule = i
    · -- `f` is the innermost frame of the rule, and it is not at this position
      have hne : f.position ≠ pos := by
        intro hat
        rw [Frame.answer?_cons, if_pos hf, if_pos hat] at hnone
        cases hnone
      rcases List.mem_cons.1 hg with rfl | hg'
      · exact hne
      · have hbelow := (hord.1 g hg').2 (hf.trans hrule.symm)
        have := hpos f List.mem_cons_self
        omega
    · have hnone' : Frame.answer? fs i pos = none := by
        rwa [Frame.answer?_cons, if_neg hf] at hnone
      rcases List.mem_cons.1 hg with rfl | hg'
      · exact absurd hrule hf
      · exact ih hnone' (fun f' hf' => hpos f' (List.mem_cons_of_mem f hf')) hord.2 g hg' hrule

/-- To find out how a rule answers at a position, it makes no difference whether all its frames are
looked at or only the innermost one. -/
theorem find?_eq_answer? (h : Stack s n floor fs) (hle : floor ≤ pos) (i : Nat) :
    (fs.find? fun f => f.rule == i && f.position == pos).map (·.mode) = Frame.answer? fs i pos := by
  cases hanswer : Frame.answer? fs i pos with
  | none =>
    have hnone : (fs.find? fun f => f.rule == i && f.position == pos) = none := by
      rw [List.find?_eq_none]
      intro f hf hboth
      simp only [Bool.and_eq_true, beq_iff_eq] at hboth
      exact h.ne_position_of_answer? hle hanswer f hf hboth.1 hboth.2
    rw [hnone]
    rfl
  | some m =>
    obtain ⟨f, hfind, -, hrule, hpos, hmode⟩ := Frame.exists_of_answer? hanswer
    obtain ⟨-, before, behind, hcat, hbefore⟩ := List.find?_eq_some_iff_append.1 hfind
    have hsome : (fs.find? fun f => f.rule == i && f.position == pos) = some f := by
      refine List.find?_eq_some_iff_append.2
        ⟨by simp [hrule, hpos], before, behind, hcat, fun g hg => ?_⟩
      have := hbefore g hg
      simp only [Bool.not_eq_true', Bool.and_eq_false_iff] at this ⊢
      exact Or.inl this
    rw [hsome, Option.map_some, hmode]

/-- A rule that is not being parsed at a position may be entered there. -/
theorem push {i : Nat} {m : Mode Id} (h : Stack s n floor fs) (hle : floor ≤ pos) (hi : i < n)
    (hnone : Frame.answer? fs i pos = none) (hm : m.Fits s pos) :
    Stack s n pos (⟨i, pos, m⟩ :: fs) where
  rule_lt := List.forall_mem_cons.2 ⟨hi, h.rule_lt⟩
  position_le := List.forall_mem_cons.2 ⟨Nat.le_refl pos, (h.raise hle).position_le⟩
  ordered := by
    refine List.pairwise_cons.2 ⟨fun f hf => ?_, h.ordered⟩
    have hbelow := (h.raise hle).position_le f hf
    refine ⟨hbelow, fun hrule => Nat.lt_of_le_of_ne hbelow ?_⟩
    exact h.ne_position_of_answer? hle hnone f hf hrule.symm
  mode_fits := List.forall_mem_cons.2 ⟨hm, h.mode_fits⟩

/-- The innermost frame may change its mode. -/
theorem changeMode {i p : Nat} {m m' : Mode Id} (h : Stack s n floor (⟨i, p, m⟩ :: fs))
    (hm : m'.Fits s p) : Stack s n floor (⟨i, p, m'⟩ :: fs) := by
  obtain ⟨hrule, hpos, hord, hfits⟩ := h
  rw [List.forall_mem_cons] at hrule hpos hfits
  rw [List.pairwise_cons] at hord
  exact ⟨List.forall_mem_cons.2 hrule, List.forall_mem_cons.2 hpos, List.pairwise_cons.2 hord,
    List.forall_mem_cons.2 ⟨hm, hfits.2⟩⟩

/-- No rule has two frames at one position. -/
theorem nodup_places (h : Stack s n floor fs) : (fs.map Frame.place).Nodup := by
  rw [List.Nodup, List.pairwise_map]
  refine h.ordered.imp fun {f g} hfg hsame => ?_
  have hposition : f.position = g.position := congrArg Prod.snd hsame
  exact absurd hposition (Nat.ne_of_gt (hfg.2 (congrArg Prod.fst hsame)))

/-- There are at most as many frames as rules and positions together. -/
theorem length_le (h : Stack s n floor fs) : fs.length ≤ n * (floor + 1) := by
  have hsub : (fs.map Frame.place).toFinset ⊆ Finset.range n ×ˢ Finset.range (floor + 1) := by
    intro x hx
    simp only [List.mem_toFinset, List.mem_map] at hx
    obtain ⟨f, hf, rfl⟩ := hx
    have := h.position_le f hf
    simp only [Finset.mem_product, Finset.mem_range, Frame.place]
    exact ⟨h.rule_lt f hf, by omega⟩
  calc fs.length = (fs.map Frame.place).toFinset.card := by
        rw [List.toFinset_card_of_nodup h.nodup_places, List.length_map]
    _ ≤ (Finset.range n ×ˢ Finset.range (floor + 1)).card := Finset.card_le_card hsub
    _ = n * (floor + 1) := by rw [Finset.card_product, Finset.card_range, Finset.card_range]

/-- A rule signals at most where the cursor is. -/
theorem signals_le {q p : Nat} (h : Stack s n floor fs) (hq : Frame.Signals fs q p) :
    p ≤ floor := by
  obtain ⟨f, -, hf, -, rfl, -⟩ := Frame.exists_of_answer? hq
  exact h.position_le f hf

/-- What a stack answers with fits where it is asked. -/
theorem fits_of_answer? {i : Nat} {m : Mode Id} (h : Stack s n floor fs)
    (hm : Frame.answer? fs i pos = some m) : m.Fits s pos := by
  obtain ⟨f, -, hf, -, rfl, rfl⟩ := Frame.exists_of_answer? hm
  exact h.mode_fits f hf

end Stack

end Peg
