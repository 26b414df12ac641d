import Peg.Proofs.Inlining
import Peg.Proofs.Law
import Peg.Proofs.Translation

/-!
# Frames are invisible where definitions suffice

Wherever a parse comes to an end with every rule standing for its definition, the engine gives the
same result, and nothing is ever signalled (`Grammar.parser_agrees_with_inlining`). So the treatment
of left recursion changes nothing for parses that do without it, in whatever grammar they happen.

The reason is that such a parse never enters a rule again at a position where the rule is being
parsed. Take the least depth in which the rule has a result there. Its definition is then unfolded
in a smaller depth, in which the rule has no result at that position. So the parse of the
definition, which has one, does not ask for it. This is the invariant on frames that is carried
through the simulation (`Grammar.derives_of_unfolds`): a rule with a frame at the current position
has no result in the depth that is left.
-/

namespace Peg

variable {α Id : Type}

/-! ## Effects without a signal -/

/-- An effect in whose log no signal of left recursion appears. -/
def Effect.Quiet (a : Effect Id) : Prop := ∀ name p, Event.leftRecursion name p ∉ a.events

/-- Effects without signals are built from effects without signals. -/
theorem Effect.quiet_law (s : Source α) : Effect.Law s fun _ (a : Effect Id) => a.Quiet where
  jump := by
    intro pos stop _ _ _ name p
    exact List.not_mem_nil
  andThen := by
    intro pos a b _ _ ha hb name p hmem
    rcases List.mem_append.1 hmem with hmem | hmem
    · exact hb name p hmem
    · exact ha name p hmem
  undo := by
    intro pos stop a _ _ _ _ _ ha
    exact ha
  wrap := by
    intro pos a id _ _ ha
    exact ha
  recovered := by
    intro pos a b id _ _ _ ha hb name p hmem
    rcases List.mem_cons.1 hmem with hnote | hmem
    · cases hnote
    · rcases List.mem_append.1 hmem with hmem | hmem
      · exact hb name p hmem
      · exact ha name p hmem

/-- Entering and leaving a rule adds no signal. -/
theorem Effect.Quiet.framed {a : Effect Id} (ha : a.Quiet) (name : String) (pos : Nat)
    (v : Verdict) : (a.framed name pos v).Quiet := by
  intro name' p hmem
  simp only [Effect.framed, Effect.note, Effect.andThen, Effect.jump, List.mem_cons,
    List.mem_append, reduceCtorEq, List.not_mem_nil, or_false, false_or] at hmem
  exact ha name' p hmem

/-- Entry and exit of a rule show in the log only. -/
theorem Effect.framed_eq_logged {a : Effect Id} {pos : Nat} (h : pos ≤ a.reach) (name : String)
    (v : Verdict) : a.framed name pos v = a.logged (a.framed name pos v).events := by
  simp [Effect.framed, Effect.note, Effect.andThen, Effect.jump, Effect.logged,
    Nat.max_eq_right h]

namespace Grammar

variable {g : Grammar α Id} {s : Source α} {fs : List (Frame Id)} {floor n i p : Nat} {v : Verdict}
  {a : Effect Id}

/-- What a rule does if it signals nothing on the way. -/
def Quietly (g : Grammar α Id) (s : Source α) (d : Nat) (fs : List (Frame Id)) (i p : Nat)
    (v : Verdict) (a : Effect Id) : Prop :=
  g.Derives Invokes s d fs i p v a ∧ a.Quiet

/-- In a nesting of the given depth, no rule that is being parsed at a position has a result there
if rules stand for their definitions. -/
def Idle (g : Grammar α Id) (s : Source α) (n : Nat) (fs : List (Frame Id)) (pos : Nat) : Prop :=
  ∀ f ∈ fs, f.position = pos → ∀ v a, ¬ g.Unfolds s n f.rule pos v a

/-- A rule with a result in a given depth has it in a least depth. -/
theorem exists_least_unfolds (hp : s.Boundary p) (h : g.Unfolds s n i p v a) :
    ∃ k, k + 1 ≤ n ∧ g.Unfolds s (k + 1) i p v a ∧ ∀ w b, ¬ g.Unfolds s k i p w b := by
  induction n generalizing v a with
  | zero => exact h.elim
  | succ n ih =>
    by_cases hless : ∃ w b, g.Unfolds s n i p w b
    · obtain ⟨w, b, hb⟩ := hless
      obtain ⟨rfl, rfl⟩ := unfolds_unique hp h (unfolds_succ hb)
      obtain ⟨k, hk, hresult, hleast⟩ := ih hb
      exact ⟨k, Nat.le_succ_of_le hk, hresult, hleast⟩
    · exact ⟨n, Nat.le_refl _, h, fun w b hb => hless ⟨w, b, hb⟩⟩

/-- A rule that has a result when rules stand for their definitions is not being parsed where it
has it. -/
theorem Idle.answer?_eq_none (hidle : g.Idle s n fs floor) (hfs : Stack s g.size floor fs)
    (hfloor : floor ≤ p) (h : g.Unfolds s n i p v a) : Frame.answer? fs i p = none := by
  cases hanswer : Frame.answer? fs i p with
  | none => rfl
  | some m =>
    obtain ⟨f, -, hf, rfl, rfl, -⟩ := Frame.exists_of_answer? hanswer
    have hat : f.position = floor := Nat.le_antisymm (hfs.position_le f hf) hfloor
    exact absurd h (hat ▸ hidle f hf hat v a)

/-- A rule may be opened in a nesting too shallow for its result. -/
theorem Idle.push {k : Nat} {m : Mode Id} (hidle : g.Idle s n fs floor)
    (hfs : Stack s g.size floor fs) (hfloor : floor ≤ p) (hk : k ≤ n)
    (hleast : ∀ w b, ¬ g.Unfolds s k i p w b) : g.Idle s k (⟨i, p, m⟩ :: fs) p := by
  intro f hf hat w b hresult
  rcases List.mem_cons.1 hf with rfl | hf
  · exact hleast w b hresult
  · have hfloor' : f.position = floor :=
      Nat.le_antisymm (hfs.position_le f hf) (hat ▸ hfloor)
    have hp : p = floor := hat.symm.trans hfloor'
    exact hidle f hf hfloor' w b (hp ▸ unfolds_mono hk hresult)

/-- A task that comes out if rules stand for their definitions comes out in the same way above a
stack of frames, if its rules do. -/
theorem runs_quietly {d : Nat} {pos : Nat} (hfs : Stack s g.size pos fs) (hpos : s.Boundary pos)
    (hcall : ∀ i p v a, pos ≤ p → s.Boundary p → g.Unfolds s n i p v a →
      ∃ l, g.Quietly s d fs i p v (a.logged l))
    {e : Expr α Id} (he : e.isPlain = true) (h : Runs s (g.Unfolds s n) (.expr e) pos v a) :
    ∃ l, Runs s (g.Derives Invokes s d fs) (.expr e) pos v (a.logged l) ∧
      (a.logged l).Quiet := by
  have hregular := (unfolds_regular g s n).restrict (fun _ _ _ _ h => h) (Nat.zero_le pos)
  have hself : e.Translates .refl (fun _ => True) e := e.translates_self _ he fun _ _ => trivial
  obtain ⟨l, hrun⟩ := h.relog hregular (fun i p w b _ => hcall i p w b) (.expr hself)
    (Nat.le_refl pos) hpos
  have hquiet : Regular s (Frame.Signals fs) pos (g.Quietly s d fs) :=
    (regular (invokes_lawful s) d hfs).restrict (fun _ _ _ _ h => h.1) (Nat.le_refl pos)
  refine ⟨l, hrun.mono fun _ _ _ _ h => h.1, ?_⟩
  exact hrun.keeps (Effect.quiet_law s) hquiet (fun _ _ _ _ _ _ h => h.2) (Nat.le_refl pos) hpos

/-- What a rule does if rules stand for their definitions, it does above every stack of frames whose
rules have no result in the depth that is left, and it signals nothing. -/
theorem derives_of_unfolds (hg : g.isPlain = true) {d : Nat} (hd : n ≤ d)
    (hfs : Stack s g.size floor fs) (hidle : g.Idle s n fs floor) (hfloor : floor ≤ p)
    (hp : s.Boundary p) (h : g.Unfolds s n i p v a) :
    ∃ l, g.Quietly s d fs i p v (a.logged l) := by
  induction n using Nat.strongRecOn generalizing d fs floor i p v a with
  | ind n ih =>
    have hnone := hidle.answer?_eq_none hfs hfloor h
    obtain ⟨k, hk, hresult, hleast⟩ := exists_least_unfolds hp h
    obtain ⟨d, rfl⟩ : ∃ d', d = d' + 1 := ⟨d - 1, by omega⟩
    cases hbody : g.body? i with
    | none =>
      simp only [Unfolds, hbody] at hresult
      obtain ⟨rfl, rfl⟩ := hresult
      refine ⟨[], ?_, fun _ _ => List.not_mem_nil⟩
      simp only [Derives, hbody]
      exact ⟨trivial, rfl⟩
    | some e =>
      simp only [Unfolds, hbody] at hresult
      have hpush := hfs.push (m := .fresh) hfloor (lt_size_of_body? hbody) hnone trivial
      have hidle' := hidle.push (m := .fresh) hfs hfloor (by omega) hleast
      obtain ⟨l, hrun, hquiet⟩ := runs_quietly (d := d) hpush hp
        (fun j q w b hq hbq hb => ih k (by omega) (by omega) hpush hidle' hq hbq hb)
        (isPlain_body hg hbody) hresult
      have hconf := hresult.conforms (unfolds_regular g s k) (Nat.zero_le p) hp
      have hother : v ≠ .leftRecursion i := by
        rintro rfl
        exact hconf.signal i rfl
      have hreach : p ≤ (a.logged l).reach := hconf.le_reach
      refine ⟨((a.logged l).framed (g.name i) p v).events, ?_⟩
      have hlogged := Effect.framed_eq_logged hreach (g.name i) v
      refine ⟨?_, hlogged ▸ hquiet.framed (g.name i) p v⟩
      simp only [Derives, hbody, hnone]
      exact hlogged ▸ .once rfl hrun hother

/-- In every state that arises in a parse and in which no rule is being parsed at the cursor: if an
expression comes to an end with rules standing for their definitions, under any bound, then the
engine comes back with the same verdict, position, records and furthest position, and its log
holds no signal of left recursion. -/
theorem parser_agrees_with_inlining (g : Grammar α Id) (s : Source α) (start e : Expr α Id)
    (hg : g.isPlain = true) (hstart : start.isPlain = true) (he : e.isPlain = true) (b n : Nat)
    (st last : State Id) (v : Verdict) (hst : g.Context s start b st)
    (hnowhere : ∀ f ∈ st.frames, f.position ≠ st.position)
    (hinline : e.parser (g.inlineSetting s n) st = (v, last)) (hv : v ≠ .exhausted) :
    ∃ st' events, e.parser (g.setting s b) st = (v, st') ∧ st'.position = last.position ∧
      st'.forest = last.forest ∧ st'.errors = last.errors ∧ st'.furthest = last.furthest ∧
      st'.frames = st.frames ∧ st'.log = events ++ st.log ∧
      ∀ name p, Event.leftRecursion name p ∉ events := by
  have hproper := hst.proper hg hstart
  obtain ⟨a, hrun, rfl⟩ :=
    exists_runs_of_inline hg he hproper.boundary hproper.le_furthest hinline hv
  have hidle : g.Idle s n st.frames st.position := fun f hf hat =>
    absurd hat (hnowhere f hf)
  obtain ⟨l, hengine, hquiet⟩ := runs_quietly hproper.stack hproper.boundary
    (fun i p w c hp hbp hc => derives_of_unfolds hg (Nat.le_refl n) hproper.stack hidle hp hbp hc)
    he hrun
  exact ⟨(a.logged l).on st, l, hproper.parser_eq hg he hengine, rfl, rfl, rfl, rfl, rfl, rfl,
    hquiet⟩

/-- Between the two opening brackets, inside the frame that the rule has at the first of them, the
rule matches again as its definition does. -/
theorem parser_agrees_with_inlining_sums :
    let s : Source Char := .ofList ['(', '(', '7', ')', ')']
    sums.isPlain = true ∧ ∃ (b : Nat) (st last st' : State Nat) (events : List Event),
      sums.Context s (.rule 1) b st ∧ st.frames = [⟨1, 0, .fresh⟩] ∧ st.position = 1 ∧
      (Expr.rule 1).parser (sums.inlineSetting s 10) st = (.ok, last) ∧ last.position = 4 ∧
      (Expr.rule 1).parser (sums.setting s b) st = (.ok, st') ∧ st'.position = 4 ∧
      st'.forest = last.forest ∧ st'.log = events ++ st.log ∧
      ∀ name p, Event.leftRecursion name p ∉ events := by
  intro s
  obtain ⟨b, hb⟩ : ∃ b, sums.enough s = b + 1 := ⟨sums.need s + (slack - 1), rfl⟩
  let first : State Nat := State.initial.note (.started sums.size s.size)
  let st : State Nat := { first.entered 1 "term" with position := 1, furthest := 1 }
  have hcontext : sums.Context s (.rule 1) b st := by
    have hfirst : sums.Arises s (.rule 1) (.task (b + 1) (.expr (.rule 1)) first) := by
      rw [← hb]
      exact .refl
    have hbody := hfirst.tail (.body rfl rfl)
    have htag := hbody.tail (@Calls.alternative _ _ _ _ b [] _ _ _ _ rfl)
    have hsequence := htag.tail (.begins (.tag _ _))
    exact .made (hsequence.tail (@Calls.item _ _ _ _ b [.element '('] _ _ _ _ rfl))
  have hok : ((Expr.rule 1).parser (sums.inlineSetting s 10) st).1 = .ok ∧
      ((Expr.rule 1).parser (sums.inlineSetting s 10) st).2.position = 4 := by decide +kernel
  obtain ⟨last, hinline⟩ : ∃ last,
      (Expr.rule 1).parser (sums.inlineSetting s 10) st = (.ok, last) := ⟨_, Prod.ext hok.1 rfl⟩
  rw [hinline] at hok
  obtain ⟨st', events, hparser, hposition, hforest, -, -, -, hlog, hquiet⟩ :=
    parser_agrees_with_inlining sums s (.rule 1) (.rule 1) (by decide) rfl rfl b 10 st last .ok
      hcontext (by decide) hinline nofun
  exact ⟨by decide, b, st, last, st', events, hcontext, rfl, rfl, hinline, hok.2, hparser,
    hposition.trans hok.2, hforest, hlog, hquiet⟩

end Grammar

end Peg
