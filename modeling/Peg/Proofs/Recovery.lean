import Peg.Proofs.Termination

/-!
# Recovery reports what the failed part alone reached

`Expr.recover e id f` starts the furthest position anew for `e`, and `e` may do the same inside, any
number of times, merge it again, look ahead, and grow rules from seeds that are parsed again and
again. All of this leaves the furthest position of the whole parse behind, which may be beyond
everything that `e` has seen. The error is placed by `e` alone nevertheless. A plain expression has
one effect at a position and under the frames that stand there, and how far it gets is a part of the
effect (`State.Proper.reachAlone_eq`); the mark that `recover` reads is that part.

`Grammar.recovery_reports_part` says so for every state that arises in a parse, together with the
rest of what `recover` does: it is `e` unless `e` does not match, and then the records are those of
the fallback and one error.
-/

namespace Peg

variable {α Id : Type}

/-- The furthest position that an expression reaches from a state, whatever was reached before. -/
def Grammar.reachAlone (g : Grammar α Id) (s : Source α) (b : Nat) (e : Expr α Id)
    (st : State Id) : Nat :=
  (e.parser (g.setting s b) st.resetFurthest).2.furthest

/-- What recovery does in a state, told by what the part and the fallback do there. -/
structure Expr.Recovers (g : Grammar α Id) (s : Source α) (b : Nat) (e : Expr α Id) (id : Id)
    (f : Expr α Id) (st : State Id) : Prop where
  /-- The part matches, does not match, or signals left recursion. -/
  answer : (e.parser (g.setting s b) st).1.isAnswer = true
  /-- So does the fallback. -/
  fallback_answer : (f.parser (g.setting s b) st).1.isAnswer = true
  /-- At the end of the source, recovery is the part. -/
  atEnd : st.atEnd s = true →
    (Expr.recover e id f).parser (g.setting s b) st = e.parser (g.setting s b) st
  /-- If the part matches or signals, recovery is the part. -/
  pass : (e.parser (g.setting s b) st).1 ≠ .mismatch →
    (Expr.recover e id f).parser (g.setting s b) st = e.parser (g.setting s b) st
  /-- If the part does not match and the fallback does, the cursor and the records are those of the
  fallback alone, with one more error, which is placed where the part came to. -/
  recovered : ∀ {st₁ st₂ : State Id}, st.atEnd s = false →
    e.parser (g.setting s b) st = (.mismatch, st₁) → f.parser (g.setting s b) st = (.ok, st₂) →
    ∃ st₃ error, (Expr.recover e id f).parser (g.setting s b) st = (.ok, st₃) ∧
      st₃.position = st₂.position ∧ st₃.forest = st₂.forest ∧
      st₃.errors = st₂.errors ++ [error] ∧ st₃.frames = st.frames ∧ error.id = id ∧
      error.position = g.reachAlone s b e st ∧ error.skipped = ⟨st.position, st₂.position⟩
  /-- If neither matches, recovery fails as the fallback does, and nothing is left behind. -/
  failed : ∀ {st₁ st₂ : State Id} {v : Verdict}, st.atEnd s = false →
    e.parser (g.setting s b) st = (.mismatch, st₁) → f.parser (g.setting s b) st = (v, st₂) →
    v ≠ .ok → ∃ st₃, (Expr.recover e id f).parser (g.setting s b) st = (v, st₃) ∧
      st₃.position = st.position ∧ st₃.forest = st.forest ∧ st₃.errors = st.errors ∧
      st₃.frames = st.frames
  /-- How far the part comes depends on the position and the frames, and on nothing that was
  recorded or reached before. -/
  reach : ∀ x : State Id, x.position = st.position → x.frames = st.frames →
    g.reachAlone s b e x = g.reachAlone s b e st

section recover

variable {g : Grammar α Id} {s : Source α} {b : Nat} {e f : Expr α Id} {id : Id} {st x : State Id}
  {v w : Verdict} {a c : Effect Id}

/-- How far a plain expression comes is a part of its effect, on every state at the place. -/
theorem State.Proper.reachAlone_eq
    (hdone : (e.parser (g.setting s b)).Does st.frames st.position v a)
    (hreach : st.position ≤ a.reach) (hposition : x.position = st.position)
    (hframes : x.frames = st.frames) : g.reachAlone s b e x = a.reach := by
  have hx : x.resetFurthest.At st.frames st.position :=
    ⟨hposition, hframes, Nat.le_of_eq hposition.symm⟩
  unfold Grammar.reachAlone
  rw [hdone _ hx, Effect.on_furthest, State.resetFurthest, hposition, Nat.max_eq_right hreach]

/-- The state after a recovery has the records of the fallback and one error. -/
theorem Effect.recovered_on (id : Id) (hle : st.position ≤ c.stop) :
    let st' := ((((a.undo st.position).andThen c).note (.recovered a.reach c.stop)).report
      (.record id a.reach ⟨st.position, c.stop⟩)).on st
    st'.forest = (c.on st).forest ∧ ∃ error, st'.errors = (c.on st).errors ++ [error] ∧
      error.id = id ∧ error.position = a.reach ∧ error.skipped = ⟨st.position, c.stop⟩ := by
  intro st'
  constructor
  · simp [st', Effect.on, Effect.report, Effect.note, Effect.andThen, Effect.undo]
  · refine ⟨.record id a.reach ⟨st.position, c.stop⟩, ?_, rfl, rfl, ?_⟩
    · simp [st', Effect.on, Effect.report, Effect.note, Effect.andThen, Effect.undo]
    · simp [SyntaxError.record, Span.clamped, Nat.max_eq_right hle]

/-- A recovery that fails leaves everything but the furthest position and the log as it was. -/
theorem State.Proper.recover_silent (h : st.Proper g s b) (hg : g.isPlain = true)
    (he : e.isPlain = true) (hf : f.isPlain = true)
    (heq : (Expr.recover e id f).parser (g.setting s b) st = (v, x)) (hv : v.isFailure = true) :
    x.position = st.position ∧ x.forest = st.forest ∧ x.errors = st.errors ∧
      x.frames = st.frames := by
  have hplain : (Expr.recover e id f).isPlain = true := Bool.and_eq_true_iff.2 ⟨he, hf⟩
  obtain ⟨a, hconf, rfl⟩ := h.exists_effect hg hplain heq
  rw [(hconf.silent rfl hv).on_eq]
  exact ⟨rfl, rfl, rfl, rfl⟩

namespace Grammar

/-- Recovery in a state that arises in a parse: the error is placed by what the part alone reached,
however far anything before it, around it or after it has come. -/
theorem recovery_reports_part (g : Grammar α Id) (s : Source α) (start e f : Expr α Id) (id : Id)
    (hg : g.isPlain = true) (hstart : start.isPlain = true) (he : e.isPlain = true)
    (hf : f.isPlain = true) {b : Nat} {st : State Id} (hst : g.Context s start b st) :
    Expr.Recovers g s b e id f st := by
  have hproper := hst.proper hg hstart
  have hself := hproper.at_self
  obtain ⟨v, a, hconf, hdone⟩ := hproper.run hg (t := .expr e) he
  obtain ⟨w, c, hconf', hdone'⟩ := hproper.run hg (t := .expr f) hf
  have heq : e.parser (g.setting s b) st = (v, a.on st) := hdone st hself
  have heq' : f.parser (g.setting s b) st = (w, c.on st) := hdone' st hself
  have hreach : ∀ x : State Id, x.position = st.position → x.frames = st.frames →
      g.reachAlone s b e x = a.reach := fun x hposition hframes =>
    State.Proper.reachAlone_eq hdone hconf.le_reach hposition hframes
  have hlt : st.atEnd s = false → st.position < s.size := by
    intro hend
    rwa [← Bool.not_eq_true, hself.atEnd_iff, Nat.not_le] at hend
  constructor
  case answer =>
    rw [heq]
    exact hconf.answer
  case fallback_answer =>
    rw [heq']
    exact hconf'.answer
  case atEnd =>
    intro hend
    rw [heq]
    exact Parser.Does.recover_atEnd hdone (hself.atEnd_iff.1 hend) st hself
  case pass =>
    intro hne
    rw [heq] at hne ⊢
    cases hend : st.atEnd s with
    | true => exact Parser.Does.recover_atEnd hdone (hself.atEnd_iff.1 hend) st hself
    | false =>
      exact Parser.Does.recover_pass hdone (hlt hend) hconf.le_reach hconf.answer hne st hself
  case recovered =>
    intro st₁ st₂ hend hmismatch hok
    cases heq.symm.trans hmismatch
    cases heq'.symm.trans hok
    have hrun := Parser.Does.recover_fallback id hdone (hlt hend) hconf.le_reach hdone' hself
    obtain ⟨hforest, error, herrors, hid, hposition, hskipped⟩ :=
      Effect.recovered_on (a := a) id hconf'.le_stop
    rw [← hreach st rfl rfl] at hposition
    exact ⟨_, error, hrun, rfl, hforest, herrors, rfl, hid, hposition, hskipped⟩
  case failed =>
    intro st₁ st₂ v' hend hmismatch hfail hne
    cases heq.symm.trans hmismatch
    cases heq'.symm.trans hfail
    have hrun := Parser.Does.recover_fallback id hdone (hlt hend) hconf.le_reach hdone' hself
    cases w with
    | ok => exact absurd rfl hne
    | mismatch | leftRecursion => exact ⟨_, hrun, hproper.recover_silent hg he hf hrun rfl⟩
    | fault | exhausted => cases hconf'.answer
  case reach =>
    intro x hposition hframes
    rw [hreach x hposition hframes, hreach st rfl rfl]

/-- A look at the whole text has gone to its end before the part begins, and the part comes to
position 2. -/
theorem recovery_reports_part_entangled :
    let e : Expr Char Nat := .sequence [.element 'y', .tag .any 5, .element 'q']
    let f : Expr Char Nat := .skipPast (.element 'z')
    let start : Expr Char Nat := .sequence [.ahead (.rule 0), .recover e 9 f]
    entangled.isPlain = true ∧ start.isPlain = true ∧ e.isPlain = true ∧ f.isPlain = true ∧
      ∃ (b : Nat) (st : State Nat), entangled.Context .entangled start b st ∧
        Expr.Recovers entangled .entangled b e 9 f st ∧ st.position = 0 ∧ st.furthest = 4 ∧
        entangled.reachAlone .entangled b e st = 2 ∧
        ∃ st₃, (Expr.recover e 9 f).parser (entangled.setting .entangled b) st = (.ok, st₃) ∧
          st₃.position = 3 ∧ st₃.forest = [] ∧ st₃.errors = [.record 9 2 ⟨0, 3⟩] := by
  intro e f start
  have hplain : start.isPlain = true ∧ e.isPlain = true ∧ f.isPlain = true := by decide
  let look (b : Nat) : Verdict × State Nat :=
    (Expr.sequence [.ahead (.rule 0)]).parser (entangled.setting .entangled b)
      (State.initial.note (.started 2 4))
  let result (b : Nat) : Verdict × State Nat :=
    (Expr.recover e 9 f).parser (entangled.setting .entangled b) (look b).2
  have hlook : (look (entangled.enough .entangled)).1 = .ok ∧
      (look (entangled.enough .entangled)).2.position = 0 ∧
      (look (entangled.enough .entangled)).2.furthest = 4 := by decide +kernel
  have hrun : (result (entangled.enough .entangled)).1 = .ok ∧
      (result (entangled.enough .entangled)).2.position = 3 ∧
      (result (entangled.enough .entangled)).2.forest = [] ∧
      (result (entangled.enough .entangled)).2.errors = [.record 9 2 ⟨0, 3⟩] ∧
      entangled.reachAlone .entangled (entangled.enough .entangled) e
        (look (entangled.enough .entangled)).2 = 2 := by decide +kernel
  have hfirst : Calls entangled .entangled (entangled.firstCall .entangled start)
      (.task (entangled.enough .entangled) (.expr (.recover e 9 f))
        (look (entangled.enough .entangled)).2) := by
    have hbefore : look (entangled.enough .entangled) =
        (.ok, (look (entangled.enough .entangled)).2) := by rw [← hlook.1]
    exact .item hbefore
  have hst : entangled.Context .entangled start (entangled.enough .entangled)
      (look (entangled.enough .entangled)).2 := .made (.single hfirst)
  -- from here on the bound is some number, so that nothing is evaluated again
  generalize entangled.enough .entangled = b at hlook hrun hst
  obtain ⟨-, hposition, hfurthest⟩ := hlook
  obtain ⟨hok, hstop, hforest, herrors, hreach⟩ := hrun
  obtain ⟨hstart, he, hf⟩ := hplain
  have hrecovers :=
    recovery_reports_part entangled .entangled start e f 9 (by decide) hstart he hf hst
  have heq : result b = (.ok, (result b).2) := by rw [← hok]
  exact ⟨by decide, hstart, he, hf, b, (look b).2, hst, hrecovers, hposition, hfurthest, hreach,
    (result b).2, heq, hstop, hforest, herrors⟩

end Grammar

end recover

end Peg
