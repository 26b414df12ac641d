import Peg.Proofs.Law

/-!
# Frames and open invocations

A rule that is reached looks at its innermost frame, and at nothing else, to find out whether it is
already being parsed at the cursor. That this is the right answer is shown here. The invocations
that are open when a call is made are read off the chain of calls that led to it (`Grammar.Active`),
with no frames in between. Then:

* the frames are the open invocations, one frame for each and in this order (`Active.places_eq`);
* they are a stack in the sense of `Peg.Proofs.Stack`, so the innermost frame of a rule is at the
  cursor if any frame of the rule is (`Stack.mem_places_iff`).

Together with what a call does to the frames, which is nothing in the end, these are the parts of
`Grammar.FramesDetect`.
-/

namespace Peg

variable {α Id : Type}

/-! ## Open invocations -/

/-- Where the frames of a state were made, innermost first. -/
def State.places (st : State Id) : List (Nat × Nat) := st.frames.map Frame.place

/-- The invocation that is open in the calls that a call makes, if it is one. -/
def Call.opened : Call α Id → List (Nat × Nat)
  | .task _ (.expr (.rule i)) st => [(i, st.position)]
  | _ => []

/-- The calls that are made in a parse, each with the invocations that are open then, innermost
first. -/
inductive Grammar.Active (g : Grammar α Id) (s : Source α) (start : Expr α Id) :
    List (Nat × Nat) → Call α Id → Prop
  | first : Active g s start [] (g.firstCall s start)
  | call {l : List (Nat × Nat)} {c c' : Call α Id} :
      Active g s start l c → Calls g s c c' → Active g s start (c.opened ++ l) c'

/-! ## One call -/

/-- A plain expression leaves the frames where they were made. -/
theorem State.Proper.places_after {g : Grammar α Id} {s : Source α} {b : Nat} {st st' : State Id}
    (h : st.Proper g s b) (hg : g.isPlain = true) {e : Expr α Id} (he : e.isPlain = true)
    {v : Verdict} (heq : e.parser (g.setting s b) st = (v, st')) : st'.places = st.places :=
  congrArg (List.map Frame.place) (h.frames_after hg he heq)

/-- A call makes its calls with the frames it found, below one for the rule it invokes. -/
theorem Calls.places_eq {g : Grammar α Id} {s : Source α} {c c' : Call α Id} (hg : g.isPlain = true)
    (h : Calls g s c c') (hc : c.Sound g s) :
    c'.state.places = c.opened ++ c.state.places := by
  cases h with
  | begins hbegins =>
    cases hbegins with
    | group => rfl
    | plus => rfl
    | optional => rfl
    | ahead => rfl
    | notAhead => rfl
    | tag => rfl
  | @item b before behind e st st' heq =>
    obtain ⟨hbefore, -⟩ := Expr.allPlain_split hc.1
    exact hc.2.places_after hg (e := .sequence before) hbefore heq
  | @alternative b before behind e st st' heq =>
    obtain ⟨hbefore, -⟩ := Expr.allPlain_split hc.1
    exact hc.2.places_after hg (e := .choice before) hbefore heq
  | @copy b k n e st st' hk heq =>
    obtain ⟨ht, hproper⟩ := hc
    have hcopies : (Expr.times e k).isPlain = true := ht
    exact hproper.places_after hg hcopies heq
  | star => rfl
  | @plus b e st st' heq _ =>
    have he : e.isPlain = true := hc.1
    exact hc.2.places_after hg he heq
  | round => rfl
  | nextRound heq _ => exact hc.2.places_after hg hc.1 heq
  | recoverAtEnd _ => rfl
  | recover _ => rfl
  | @fallback b e f id st st' _ heq =>
    have he := (Bool.and_eq_true_iff.1 hc.1).1
    have hplaces := hc.2.resetFurthest.places_after hg he heq
    exact hplaces
  | skipBefore => rfl
  | skipPast => rfl
  | token _ => rfl
  | nextSkip _ heq =>
    have hplaces := hc.2.places_after hg hc.1 heq
    exact hplaces
  | body _ _ => rfl
  | seed hbody hnone heq _ =>
    exact congrArg (List.map Frame.place) (hc.2.seeding hg hbody hnone heq).2.frames_eq
  | grow hbody hnone heq _ hseed =>
    obtain ⟨hproper, hat⟩ := hc.2.seeding hg hbody hnone heq
    have hplaces := hproper.places_after hg (Grammar.isPlain_body hg hbody) hseed
    exact hplaces.trans (congrArg (List.map Frame.place) hat.frames_eq)
  | regrow _ _ => exact Frame.map_place_setMode _ _ _
  | nextGrowth hsince _ heq _ =>
    have hplaces := (hc.2.regrown _ hsince).places_after hg hc.1 heq
    exact hplaces.trans (Frame.map_place_setMode _ _ _)

/-! ## The whole parse -/

namespace Grammar

variable {g : Grammar α Id} {s : Source α} {start : Expr α Id} {l : List (Nat × Nat)}
  {c : Call α Id}

/-- A call that is made with some invocations open arises in the parse. -/
theorem Active.arises (h : g.Active s start l c) : g.Arises s start c := by
  induction h with
  | first => exact .refl
  | call _ hstep ih => exact ih.tail hstep

/-- A call that arises in a parse is made with some invocations open. -/
theorem Arises.exists_active (h : g.Arises s start c) : ∃ l, g.Active s start l c := by
  induction h with
  | refl => exact ⟨_, .first⟩
  | tail _ hstep ih =>
    obtain ⟨l, hl⟩ := ih
    exact ⟨_, hl.call hstep⟩

/-- The frames are the open invocations. -/
theorem Active.places_eq (h : g.Active s start l c) (hg : g.isPlain = true)
    (hstart : start.isPlain = true) : c.state.places = l := by
  induction h with
  | first => rfl
  | call hcaller hstep ih => rw [hstep.places_eq hg (hcaller.arises.sound hg hstart), ih]

end Grammar

section stack

variable {s : Source α} {n pos : Nat} {fs : List (Frame Id)}

/-- A rule has a frame at the cursor if and only if its innermost frame is there. -/
theorem Stack.mem_places_iff (h : Stack s n pos fs) (q : Nat) :
    (q, pos) ∈ fs.map Frame.place ↔
      ∃ f, fs.find? (fun f => f.rule == q) = some f ∧ f.position = pos := by
  constructor
  · intro hmem
    obtain ⟨f, hf, hplace⟩ := List.mem_map.1 hmem
    have hrule : f.rule = q := congrArg Prod.fst hplace
    have hposition : f.position = pos := congrArg Prod.snd hplace
    cases hanswer : Frame.answer? fs q pos with
    | none => exact absurd hposition (h.ne_position_of_answer? (Nat.le_refl pos) hanswer f hf hrule)
    | some m =>
      obtain ⟨f', hfind, -, -, hat, -⟩ := Frame.exists_of_answer? hanswer
      exact ⟨f', hfind, hat⟩
  · rintro ⟨f, hfind, rfl⟩
    have hrule : f.rule = q := by simpa using List.find?_some hfind
    exact List.mem_map.2 ⟨f, List.mem_of_find?_eq_some hfind, Prod.ext hrule rfl⟩

/-- The frames of one rule are at descending positions, from the innermost one on. -/
theorem Stack.positions_descend (h : Stack s n pos fs) (q : Nat) :
    ((fs.filter fun f => f.rule == q).map (·.position)).Pairwise (· > ·) := by
  rw [List.pairwise_map, List.pairwise_filter]
  refine h.ordered.imp fun {f f'} hff' hf hf' => hff'.2 ?_
  exact (beq_iff_eq.1 hf).trans (beq_iff_eq.1 hf').symm

end stack

/-- What the frames tell in a parse: whenever something is run, whether a rule is being parsed at
the cursor. -/
structure Grammar.FramesDetect (g : Grammar α Id) (s : Source α) (start : Expr α Id) : Prop where
  /-- Every call that arises is made while certain invocations are open. -/
  active : ∀ {c}, g.Arises s start c → ∃ l, g.Active s start l c
  /-- The frames are the open invocations, innermost first. -/
  places : ∀ {l c}, g.Active s start l c → c.state.places = l
  /-- The frames of one rule are at descending positions, from the innermost one on. -/
  descending : ∀ {b t st}, g.Arises s start (.task b t st) → ∀ q,
    ((st.frames.filter fun f => f.rule == q).map (·.position)).Pairwise (· > ·)
  /-- No frame is beyond the cursor. -/
  le_cursor : ∀ {b t st}, g.Arises s start (.task b t st) → ∀ f ∈ st.frames,
    f.position ≤ st.position
  /-- A rule is being parsed at the cursor if and only if its innermost frame is there. -/
  detects : ∀ {l b t st}, g.Active s start l (.task b t st) → ∀ q,
    (q, st.position) ∈ l ↔ ∃ f, st.frame? q = some f ∧ f.position = st.position
  /-- No rule is being parsed twice at one position. -/
  nodup : ∀ {l b t st}, g.Active s start l (.task b t st) → l.Nodup
  /-- Every expression comes back with an answer, and with any answer it leaves the frames with their
  modes as it found them. -/
  returns : ∀ {b e st}, g.Arises s start (.task b (.expr e) st) →
    ∃ v st', e.parser (g.setting s b) st = (v, st') ∧ v.isAnswer = true ∧ st'.frames = st.frames

namespace Grammar

/-- Frames detect left recursion, and they detect nothing else. -/
theorem frames_detect (g : Grammar α Id) (s : Source α) (start : Expr α Id) (hg : g.isPlain = true)
    (hstart : start.isPlain = true) : g.FramesDetect s start where
  active h := h.exists_active
  places h := h.places_eq hg hstart
  descending h q := (h.sound hg hstart).2.stack.positions_descend q
  le_cursor h := (h.sound hg hstart).2.stack.position_le
  detects := by
    intro l b t st h q
    obtain ⟨-, hproper⟩ := h.arises.sound hg hstart
    rw [← h.places_eq hg hstart]
    exact hproper.stack.mem_places_iff q
  nodup := by
    intro l b t st h
    obtain ⟨-, hproper⟩ := h.arises.sound hg hstart
    rw [← h.places_eq hg hstart]
    exact hproper.stack.nodup_places
  returns := by
    intro b e st h
    obtain ⟨he, hproper⟩ := h.sound hg hstart
    obtain ⟨v, a, hconf, hdone⟩ := hproper.run hg (t := .expr e) he
    exact ⟨v, a.on st, hdone st hproper.at_self, hconf.answer, rfl⟩

/-- Inside the second rule the first one is reached again at the same position: its frame is not the
innermost one of the stack, but the innermost one of the rule. -/
theorem frames_detect_entangled :
    entangled.isPlain = true ∧ (Expr.rule 0 : Expr Char Nat).isPlain = true ∧
      ∃ (b : Nat) (st : State Nat),
        entangled.Active .entangled (.rule 0) [(1, 0), (0, 0)] (.task b (.expr (.rule 0)) st) ∧
        st.position = 0 ∧ st.frames = [⟨1, 0, .fresh⟩, ⟨0, 0, .fresh⟩] ∧
        (∃ f, st.frame? 0 = some f ∧ f.position = 0) ∧ [(1, 0), (0, 0)].Nodup := by
  have hdetect := frames_detect entangled .entangled (.rule 0) (by decide) rfl
  let st : State Nat := (State.initial.note (.started 2 4)).entered 0 "a"
  have hbound : entangled.enough .entangled = slack + 16 + 1 + 1 := by decide +kernel
  have hfirst : entangled.Active .entangled (.rule 0) [(0, 0)]
      (.task (slack + 16 + 1) (.expr (.choice [.tag (.sequence [.rule 1, .element 'x']) 0,
        .element 'y'])) st) := by
    refine .call (c := entangled.firstCall .entangled (.rule 0)) .first ?_
    rw [firstCall, hbound]
    exact .body rfl rfl
  have hsecond : entangled.Active .entangled (.rule 0) [(0, 0)]
      (.task (slack + 16 + 1) (.expr (.rule 1)) st) :=
    ((hfirst.call (@Calls.alternative _ _ _ _ _ [] _ _ _ _ rfl)).call (.begins (.tag _ _))).call
      (@Calls.item _ _ _ _ _ [] _ _ _ _ rfl)
  have hinner : entangled.Active .entangled (.rule 0) [(1, 0), (0, 0)]
      (.task (slack + 16) (.expr (.rule 0)) (st.entered 1 "b")) :=
    (((hsecond.call (.body rfl rfl)).call (@Calls.alternative _ _ _ _ _ [] _ _ _ _ rfl)).call
      (.begins (.tag _ _))).call (@Calls.item _ _ _ _ _ [] _ _ _ _ rfl)
  exact ⟨by decide, rfl, _, _, hinner, rfl, rfl,
    (hdetect.detects hinner 0).1 (by decide), hdetect.nodup hinner⟩

end Grammar

end Peg
