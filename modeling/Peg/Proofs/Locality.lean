import Peg.Proofs.Translation

/-!
# A parse depends only on the remaining input

What comes before the cursor is not looked at again: neither the elements, nor the records that were
made, nor the frames of rules that were entered earlier. So parsing from the end of a row `u` in
`u ++ v` is parsing `v` from its beginning, with all positions moved by the size of `u`
(`Grammar.parse_rest`).

The two runs are compared in two steps. A row lies in every row that ends with it
(`Source.embeds_append`), so a run over `v` can be read as a run over `u ++ v` outside of all rules.
And frames that were made before the cursor are never asked, whatever they are, so the parsers do
above them what is derivable outside of all rules (`Grammar.runs_done_above`). The frames below need
not be a stack of a parse.
-/

namespace Peg

variable {α Id : Type}

/-! ## Frames that were made earlier -/

section below

variable {s : Source α} {g : Grammar α Id} {i p pos floor : Nat} {fs below : List (Frame Id)}
  {v : Verdict} {a : Effect Id}

/-- Frames at other positions make no difference below a stack. -/
theorem Frame.answer?_append (h : ∀ f ∈ below, f.position ≠ p) :
    Frame.answer? (fs ++ below) i p = Frame.answer? fs i p := by
  induction fs with
  | nil => exact Frame.answer?_eq_none h
  | cons f fs ih => rw [List.cons_append, Frame.answer?_cons, Frame.answer?_cons, ih]

/-- An answer of a stack does not depend on what is below it. -/
theorem Frame.Signals.append (below : List (Frame Id)) (h : Frame.Signals fs i p) :
    Frame.Signals (fs ++ below) i p := by
  unfold Frame.Signals at h ⊢
  obtain ⟨f, hfind, -, -, hposition, hmode⟩ := Frame.exists_of_answer? h
  simp [Frame.answer?, List.find?_append, hfind, hposition, hmode]

/-- More frames below do not make a body less lawful. -/
theorem Body.Lawful.append {B : Body Id} (below : List (Frame Id)) (hB : B.Lawful s i pos fs) :
    B.Lawful s i pos (fs ++ below) := by
  intro m v a hm h
  have hconf := hB m v a hm h
  exact { hconf with signal := fun q hq => (hconf.signal q hq).append below }

namespace Grammar

/-- The parser of a rule does what is derivable for it, also above frames that were made earlier. -/
theorem callBy_does_above (d : Nat) {bound : Nat} (hbound : d + s.size < bound)
    (hfs : Stack s g.size floor fs) (hbelow : ∀ f ∈ below, f.position < floor) (hfloor : floor ≤ p)
    (hp : s.Boundary p) (h : g.Derives Invokes s d fs i p v a) :
    (g.callBy Parser.invoke s bound i).Does (fs ++ below) p v a := by
  induction d generalizing bound fs floor i p v a with
  | zero => exact h.elim
  | succ d ih =>
    obtain ⟨bound, rfl⟩ : ∃ n, bound = n + 1 := ⟨bound - 1, by omega⟩
    have hearlier : ∀ f ∈ below, f.position < p := fun f hf =>
      Nat.lt_of_lt_of_le (hbelow f hf) hfloor
    cases hbody : g.body? i with
    | none =>
      simp only [Derives, hbody] at h
      obtain ⟨rfl, rfl⟩ := h
      simp only [callBy, hbody]
      exact Parser.does_mismatch
    | some e =>
      simp only [Derives, hbody] at h
      simp only [callBy, hbody]
      have hsame : Frame.answer? (fs ++ below) i p = Frame.answer? fs i p :=
        Frame.answer?_append fun f hf => Nat.ne_of_lt (hearlier f hf)
      rw [← hsame] at h
      refine h.does hp (by omega) fun hnone => ?_
      rw [hsame] at hnone
      refine ⟨(body_lawful (invokes_lawful s) d hfs hfloor hp hbody hnone).append below, ?_⟩
      intro m w b hm hrun
      have hpush := hfs.push hfloor (lt_size_of_body? hbody) hnone hm
      have hloops : (g.settingBy Parser.invoke s bound).source.size < bound :=
        show s.size < bound by omega
      refine Runs.does (regular (invokes_lawful s) d hpush) (fun j q w' b' hq hbq hj => ?_) hloops
        hrun (Nat.le_refl p) hp
      exact ih (by omega) hpush hearlier hq hbq hj

/-- The parser of a task does what is derivable for it, also above frames that were made earlier. -/
theorem runs_done_above {d bound : Nat} (hbound : d + s.size < bound) {t : Task α Id}
    (hfs : Stack s g.size pos fs) (hbelow : ∀ f ∈ below, f.position < pos) (hpos : s.Boundary pos)
    (h : Runs s (g.Derives Invokes s d fs) t pos v a) :
    t.Done (g.setting s bound) (fs ++ below) pos v a := by
  rw [setting_eq_settingBy]
  have hloops : (g.settingBy Parser.invoke s bound).source.size < bound :=
    show s.size < bound by omega
  refine h.does (regular (invokes_lawful s) d hfs) (fun j q w b hq hbq hj => ?_) hloops
    (Nat.le_refl pos) hpos
  exact callBy_does_above d hbound hfs hbelow hq hbq hj

end Grammar

end below

/-! ## A row at the end of another one -/

/-- Moves all positions forward by a number. -/
def Renaming.shift (n : Nat) : Renaming Id Id :=
  .along ⟨(n + ·), fun _ _ h => Nat.add_le_add_left h n⟩

/-- Moves all positions forward by a number, and keeps the elements. -/
def Translation.shift (n : Nat) : Translation α α Id Id where
  toRenaming := .shift n
  element a := a

namespace Source

variable {width : α → Nat} (hwidth : ∀ a, 0 < width a) (u v : List α)

/-- Behind a beginning of a row are the elements of the rest. -/
theorem elementAt_append (p : Nat) :
    (ofElements width hwidth (u ++ v)).elementAt (Row.size width u + p) =
      (ofElements width hwidth v).elementAt p := by
  have hlen : (Row.layout width u).length = Row.size width u := Row.length_layout hwidth u
  rw [elementAt_eq, elementAt_eq]
  simp only [ofElements, Row.layout_append]
  rw [List.getElem?_append_right (by omega), hlen, Nat.add_sub_cancel_left]

/-- A source with a part in front is as much wider as that part is. -/
theorem size_append :
    (ofElements width hwidth (u ++ v)).size =
      Row.size width u + (ofElements width hwidth v).size := by
  rw [size_eq, size_eq]
  exact Row.size_append width u v

/-- A row lies in every row that ends with it. -/
theorem embeds_append :
    (Translation.shift (Row.size width u) : Translation α α Id Id).Embeds
      (ofElements width hwidth v) (ofElements width hwidth (u ++ v)) where
  lt_of_lt := by
    intro p q _ _ hlt
    exact Nat.add_lt_add_left hlt _
  size_eq := (size_append hwidth u v).symm
  some_element := by
    intro p w a _ hat
    exact ⟨a, w, (elementAt_append hwidth u v p).trans hat, rfl, Nat.add_assoc _ p w⟩
  no_element := by
    intro p _ hat
    exact (elementAt_append hwidth u v p).trans hat

end Source

/-! ## Parsing the rest of a row -/

/-- A state goes on to another one as the state without any history goes on to `fresh`, with all
positions moved forward by `n`. -/
structure State.Resumes (n : Nat) (fresh st st' : State Id) : Prop where
  position_eq : st'.position = n + fresh.position
  furthest_eq : st'.furthest = max st.furthest (n + fresh.furthest)
  forest_eq : st'.forest = st.forest ++ (Renaming.shift n).trees fresh.forest
  errors_eq : st'.errors = st.errors ++ fresh.errors.map (Renaming.shift n).error
  frames_eq : st'.frames = st.frames

/-- An effect that is read further on is a state that goes on. -/
theorem Effect.Renamed.resumes {n : Nat} {a a' : Effect Id} (h : a.Renamed (.shift n) a')
    (st : State Id) : State.Resumes n (a.on .initial) st (a'.on st) where
  position_eq := h.stop_eq
  furthest_eq := by
    show max st.furthest a'.reach = max st.furthest (n + max 0 a.reach)
    rw [h.reach_eq, Nat.zero_max]
    rfl
  forest_eq := congrArg (st.forest ++ ·) h.forest_eq
  errors_eq := congrArg (st.errors ++ ·) h.errors_eq
  frames_eq := rfl

namespace Grammar

/-- From the end of `u` in `u ++ v`, in any state whose frames were made earlier and whose cursor is
not beyond the furthest position, a plain expression comes out as it does over `v` from the
beginning. -/
theorem parse_rest (g : Grammar α Id) (e : Expr α Id) (hg : g.isPlain = true)
    (he : e.isPlain = true) (width : α → Nat) (hwidth : ∀ a, 0 < width a) (u v : List α)
    (st : State Id) (hposition : st.position = Row.size width u)
    (hfurthest : st.position ≤ st.furthest) (hframes : ∀ f ∈ st.frames, f.position < st.position)
    (b b' : Nat) (hb : g.need (.ofElements width hwidth v) ≤ b)
    (hb' : g.need (.ofElements width hwidth (u ++ v)) ≤ b') :
    ∃ verdict fresh st', (verdict = .ok ∨ verdict = .mismatch) ∧
      e.parser (g.setting (.ofElements width hwidth v) b) .initial = (verdict, fresh) ∧
      e.parser (g.setting (.ofElements width hwidth (u ++ v)) b') st = (verdict, st') ∧
      State.Resumes (Row.size width u) fresh st st' := by
  let rest := Source.ofElements width hwidth v
  let whole := Source.ofElements width hwidth (u ++ v)
  let n := Row.size width u
  have hnil : Stack rest g.size 0 ([] : List (Frame Id)) := .nil rest g.size 0
  obtain ⟨w, a, hrun, hconf, hdone⟩ := exists_done (t := .expr e) (invokes_lawful rest)
    (invokes_realizedBy rest) hg he hnil rest.boundary_zero
  -- over the whole row, outside of all rules
  have hclosed : g.Closed fun _ => True := fun _ _ _ _ _ _ => trivial
  have hagree : (Translation.shift n : Translation α α Id Id).Agrees (fun _ => True) rest 0 [] [] :=
    fun _ _ _ _ _ => rfl
  obtain ⟨a', hrun', hrenamed⟩ := runs_translate (Source.embeds_append hwidth u v)
    (hclosed.bodies_translate _ hg) hnil hagree
    (.expr (e.translates_self _ he fun _ _ => trivial)) rest.boundary_zero hrun
  -- over the whole row, above the frames of the state
  have hboundary : whole.Boundary n :=
    ⟨v, Source.remaining?_eq_some_iff.2 ⟨u, rfl, rfl⟩⟩
  have hnil' : Stack whole g.size n ([] : List (Frame Id)) := .nil whole g.size n
  have hroom : g.depth rest ([] : List (Frame Id)) + whole.size < b' := by
    have hlt : g.depth whole ([] : List (Frame Id)) + whole.size < b' :=
      depth_add_size_lt hnil' hboundary.le_size hb'
    have hsize : rest.size ≤ whole.size := Source.size_append hwidth u v ▸ Nat.le_add_left _ _
    have hmul : g.size * (rest.size + 1) ≤ g.size * (whole.size + 1) :=
      Nat.mul_le_mul_left _ (by omega)
    unfold depth at hlt ⊢
    omega
  rw [hposition] at hframes hfurthest
  have hdone' := runs_done_above hroom hnil' hframes hboundary hrun'
  rw [show (Translation.shift n : Translation α α Id Id).verdict w = w from
    Renaming.verdict_along _ w] at hdone'
  refine ⟨w, a.on .initial, a'.on st, hconf.ok_or_mismatch, ?_, ?_, hrenamed.resumes st⟩
  · rw [setting_eq_settingBy]
    exact hdone b hb _ State.initial_at
  · exact hdone' st ⟨hposition, rfl, hfurthest⟩

/-- Behind a character of two bytes, with matches, errors and frames of all modes left over from
before, the text is matched to its end. -/
theorem parse_rest_entangled :
    let st : State Nat :=
      { position := 2, furthest := 3, forest := [⟨7, ⟨0, 2⟩, []⟩], errors := [.record 8 1 ⟨0, 1⟩],
        frames := [⟨0, 1, .growing 2 [⟨0, ⟨1, 2⟩, []⟩] []⟩, ⟨1, 1, .seeding⟩, ⟨0, 0, .fresh⟩] }
    entangled.isPlain = true ∧ st.position = Row.size Char.utf8Size "é".toList ∧
      (∀ f ∈ st.frames, f.position < st.position) ∧
      ∃ fresh st',
        (Expr.rule 0).parser (entangled.setting .entangled 20) .initial = (.ok, fresh) ∧
        (Expr.rule 0).parser (entangled.setting (.ofText "éyxzx") 30) st = (.ok, st') ∧
        fresh.position = 4 ∧ State.Resumes 2 fresh st st' := by
  intro st
  have hwhole : Source.ofElements Char.utf8Size Char.utf8Size_pos
      ("é".toList ++ "yxzx".toList) = .ofText "éyxzx" := by rw [← String.toList_append]; rfl
  have hframes : ∀ f ∈ st.frames, f.position < st.position := by decide
  obtain ⟨w, fresh, st', -, hfresh, hst', hresumes⟩ :=
    parse_rest entangled (.rule 0) (by decide) rfl Char.utf8Size Char.utf8Size_pos "é".toList
      "yxzx".toList st (by decide) (by decide) hframes 20 30 (by decide +kernel) (by decide +kernel)
  rw [hwhole] at hst'
  have hresult : ((Expr.rule 0).parser (entangled.setting .entangled 20) .initial).1 = .ok ∧
      ((Expr.rule 0).parser (entangled.setting .entangled 20) .initial).2.position = 4 := by
    decide +kernel
  have hfresh' : (Expr.rule 0).parser (entangled.setting .entangled 20) .initial = (w, fresh) :=
    hfresh
  rw [hfresh'] at hresult
  obtain ⟨rfl, hstop⟩ := hresult
  exact ⟨by decide, by decide, hframes, fresh, st', hfresh', hst', hstop, hresumes⟩

end Grammar

end Peg
