import Peg.Proofs.Conforms

/-!
# Parsers do what the rules of runs say

Each combinator is shown to carry out the effect that the rules of `Runs` give it, on every state at
the place in question. `Runs.does` puts these together: whatever runs are derivable for a task, its
parser does exactly that, provided that the parsers of the grammar's rules do what `C` says and that
the bound on loops is above the size of the source.

A loop is compared under every bound above the number of elements that are left (`Task.Done`), so
that the induction can use up one round at a time.
-/

namespace Peg

variable {α Id : Type}

/-! ## Combinators -/

namespace Parser

variable {p : Parser Id} {ps : List (Parser Id)} {fs : List (Frame Id)} {pos : Nat} {v : Verdict}
  {a b : Effect Id}

/-- The parser that always succeeds changes nothing. -/
theorem does_succeed : (succeed : Parser Id).Does fs pos .ok (.jump pos) := by
  rintro st ⟨rfl, -, hle⟩
  rw [Effect.jump_on st hle, succeed]

/-- The parser that always fails changes nothing. -/
theorem does_mismatch : (mismatch : Parser Id).Does fs pos .mismatch (.jump pos) := by
  rintro st ⟨rfl, -, hle⟩
  rw [Effect.jump_on st hle, mismatch]

/-- An attempt keeps the effect of a success and takes back that of a failure. -/
theorem Does.attempt (h : p.Does fs pos v a) : (attempt p).Does fs pos v (a.settle v pos) := by
  intro st hst
  rw [Parser.attempt, h st hst, Effect.settle_on, hst.position_eq]

/-- A lookahead takes back the effect of every answer, of a success too. -/
theorem Does.lookahead (h : p.Does fs pos v a) (hv : v.isAnswer = true) :
    (lookahead p).Does fs pos v (a.undo pos) := by
  intro st hst
  rw [Parser.lookahead, h st hst, rewind, if_pos hv, Effect.on_restore, hst.position_eq]

/-- After a first parser that matches, the others continue from where it stopped. -/
theorem Does.inOrder_cons (h : p.Does fs pos .ok a) (ha : a.stop ≤ a.reach)
    (hps : (inOrder ps).Does fs a.stop v b) : (inOrder (p :: ps)).Does fs pos v (a.andThen b) := by
  intro st hst
  simp only [inOrder, h st hst, hps (a.on st) (Effect.on_at hst ha), Effect.andThen_on]

/-- A row ends with the first parser that does not match, and has the effect it left. -/
theorem Does.inOrder_fail (h : p.Does fs pos v a) (hv : v ≠ .ok) :
    (inOrder (p :: ps)).Does fs pos v a := by
  intro st hst
  simp only [inOrder, h st hst]
  cases v with
  | ok => exact absurd rfl hv
  | mismatch | leftRecursion | fault | exhausted => rfl

/-- A number of copies is a row of the same parser. -/
theorem iterate_eq_inOrder (p : Parser Id) (n : Nat) :
    iterate p n = inOrder (List.replicate n p) := by
  induction n with
  | zero => rfl
  | succ n ih =>
    funext st
    rw [List.replicate_succ, iterate, inOrder, ih]

/-- After an alternative that does not match, the next ones start from the same place. -/
theorem Does.choice_next (h : p.Does fs pos .mismatch a) (ha : pos ≤ a.reach)
    (hps : (choice ps).Does fs pos v b) :
    (choice (p :: ps)).Does fs pos v ((a.undo pos).andThen b) := by
  intro st hst
  have hnext := hps ((a.undo pos).on st) (Effect.on_at hst ha)
  -- going back keeps the counts, so the next alternative has the same checkpoint
  have hback : ((a.undo pos).on st).checkpoint = st.checkpoint := by
    simp [State.checkpoint, Effect.undo, Effect.on, hst.position_eq]
  rw [choice, hback] at hnext
  simp only [choice, firstOf, h st hst, Effect.on_restore, hst.position_eq, hnext,
    Effect.andThen_on]

/-- An alternative that matches or signals decides the choice. -/
theorem Does.choice_done (h : p.Does fs pos v a) (hv : v ≠ .mismatch) :
    (choice (p :: ps)).Does fs pos v (a.settle v pos) := by
  intro st hst
  simp only [choice, firstOf, h st hst, ← hst.position_eq, ← Effect.settle_on]
  cases v with
  | mismatch => exact absurd rfl hv
  | ok | leftRecursion | fault | exhausted => rfl

/-- An option turns a mismatch into a success, after it has taken the effect back. -/
theorem Does.optional (h : p.Does fs pos v a) :
    (optional p).Does fs pos v.tolerated (a.settle v pos) := by
  intro st hst
  rw [Parser.optional, h.attempt st hst]
  cases v <;> rfl

/-- A negative lookahead turns the answer around and leaves only the reach behind. -/
theorem Does.notAhead (h : p.Does fs pos v a) (hv : v.isAnswer = true) :
    (notAhead p).Does fs pos v.negated (a.undo pos) := by
  intro st hst
  rw [Parser.notAhead, h.lookahead hv st hst]
  cases v <;> rfl

/-- A tag puts the matches of a success under one node, from the start to the stop. -/
theorem Does.tag_ok (h : p.Does fs pos .ok a) (id : Id) :
    (tag id p).Does fs pos .ok (a.wrap id pos) := by
  intro st hst
  rw [tag, h.attempt st hst]
  -- the new matches are exactly those behind the old ones
  have hlen : (a.on st).forest.length - ((a.on st).forest.length - st.forest.length) =
      st.forest.length := by
    simp [Effect.on]
  simp only [Effect.settle_ok, State.addMatch, hlen]
  rw [if_pos (by simp [Effect.on])]
  simp [Effect.on, Effect.wrap, hst.position_eq]

/-- A tag around a failure records no node and takes the effect back. -/
theorem Does.tag_fail (h : p.Does fs pos v a) (id : Id) (hv : v ≠ .ok) :
    (tag id p).Does fs pos v (a.settle v pos) := by
  intro st hst
  rw [tag, h.attempt st hst]
  cases v with
  | ok => exact absurd rfl hv
  | mismatch | leftRecursion | fault | exhausted => rfl

/-! ## Loops -/

section loops

variable {c : Checkpoint} {n q : Nat} {st : State Id}

/-- A loop ends with success at the first round that does not match. -/
theorem rounds_end (h : p.Does fs pos .mismatch a) (hst : st.At fs pos) :
    rounds p c (n + 1) st = settle c (.ok, (a.undo pos).on st) := by
  simp only [rounds, h st hst, Effect.on_restore, hst.position_eq]
  rfl

/-- A loop ends with success at the first round that matches without moving, and keeps it. -/
theorem rounds_stay (h : p.Does fs pos .ok a) (ha : a.stop = pos) (hst : st.At fs pos) :
    rounds p c (n + 1) st = settle c (.ok, a.on st) := by
  simp only [rounds, h st hst, Effect.on_position, ha, hst.position_eq, if_true]
  rfl

/-- A round that moved is followed by the rest of the loop. -/
theorem rounds_more (h : p.Does fs pos .ok a) (ha : a.stop ≠ pos) (hst : st.At fs pos) :
    rounds p c (n + 1) st = rounds p c n (a.on st) := by
  simp only [rounds, h st hst, Effect.on_position, hst.position_eq, if_neg ha]

/-- A signal in a round ends the loop, and the whole loop is taken back. -/
theorem rounds_signal (h : p.Does fs pos (.leftRecursion q) a) (hst : st.At fs pos) :
    rounds p c (n + 1) st = settle c (.leftRecursion q, a.on st) := by
  simp only [rounds, h st hst]

/-- A loop goes back to its beginning if one of its rounds fails with a signal. -/
theorem does_star {bound : Nat}
    (h : ∀ st : State Id, st.At fs pos →
      rounds p st.checkpoint bound st = settle st.checkpoint (v, a.on st)) :
    (star bound p).Does fs pos v (a.settle v pos) := by
  intro st hst
  rw [star, h st hst, Effect.settle_on, hst.position_eq]

/-- If the first run fails or does not move, it is all that a loop of at least one run does. -/
theorem Does.plus_once {bound : Nat} (h : p.Does fs pos v a) (hv : v = .ok → a.stop = pos) :
    (plus bound p).Does fs pos v (a.settle v pos) := by
  intro st hst
  simp only [plus, h.attempt st hst]
  cases v with
  | ok => simp [hv rfl, hst.position_eq]
  | mismatch | leftRecursion | fault | exhausted => rfl

/-- After a first run that moved, a loop of at least one run goes on as any loop does. -/
theorem Does.plus_more {bound : Nat} (h : p.Does fs pos .ok a) (ha : a.stop ≤ a.reach)
    (hmoved : a.stop ≠ pos) (hstar : (star bound p).Does fs a.stop v (b.settle v a.stop)) :
    (plus bound p).Does fs pos v ((a.andThen b).settle v pos) := by
  intro st hst
  have hmore := hstar.attempt (a.on st) (Effect.on_at hst ha)
  simp only [plus, h.attempt st hst, Effect.settle_ok, Effect.on_position, hst.position_eq,
    if_neg hmoved, hmore]
  rw [← Effect.andThen_on, Effect.settle_on, hst.position_eq]
  -- what the inner loop took back on failure is taken back again together with the first match
  cases v <;> rfl

end loops

/-! ## Recovery -/

section recovery

variable {s : Source α} {f : Parser Id} {id : Id}

/-- At the end of the source nothing is recovered: the primary decides. -/
theorem Does.recover_atEnd (h : p.Does fs pos v a) (hend : s.size ≤ pos) :
    (recover s id f p).Does fs pos v a := by
  intro st hst
  rw [recover, if_pos (hst.atEnd_iff.2 hend), h st hst]

/-- Starting the furthest position anew and merging it afterwards is invisible from outside. -/
theorem merge_on_reset {st : State Id} (hst : st.At fs pos) (ha : pos ≤ a.reach) :
    (a.on st.resetFurthest).mergeFurthest st.furthest = a.on st := by
  have hmax : max (max pos a.reach) st.furthest = max st.furthest a.reach := by
    rw [Nat.max_eq_right ha, Nat.max_comm]
  simp [Effect.on, State.resetFurthest, State.mergeFurthest, hst.position_eq, hmax]

/-- A primary that matches or signals is not recovered. -/
theorem Does.recover_pass (h : p.Does fs pos v a) (hlt : pos < s.size) (ha : pos ≤ a.reach)
    (hv : v.isAnswer = true) (hne : v ≠ .mismatch) : (recover s id f p).Does fs pos v a := by
  intro st hst
  rw [recover, if_neg (mt hst.atEnd_iff.1 (Nat.not_le.2 hlt)), h _ hst.resetFurthest]
  cases v with
  | mismatch => exact absurd rfl hne
  | ok | leftRecursion => simp only [Verdict.isAnswer, if_true, merge_on_reset hst ha]
  | fault | exhausted => cases hv

/-- After a primary that does not match, the fallback decides. If it matches, the error is
recorded behind what it recorded; if not, the primary and the fallback are taken back. -/
theorem Does.recover_fallback {w : Verdict} (id : Id) (h : p.Does fs pos .mismatch a)
    (hlt : pos < s.size) (ha : pos ≤ a.reach) (hf : f.Does fs pos w b) {st : State Id}
    (hst : st.At fs pos) :
    recover s id f p st =
      match w with
      | .ok => (.ok, (((a.undo pos).andThen b).note (.recovered a.reach b.stop)).report
          (.record id a.reach ⟨pos, b.stop⟩) |>.on st)
      | w => (w, (((a.undo pos).andThen b).settle w pos).on st) := by
  have hreached : (a.on st.resetFurthest).furthest = a.reach := by
    simp [State.resetFurthest, hst.position_eq, Nat.max_eq_right ha]
  have hback := hf ((a.undo pos).on st) (Effect.on_at hst ha)
  rw [recover, if_neg (mt hst.atEnd_iff.1 (Nat.not_le.2 hlt)), h _ hst.resetFurthest]
  simp only [merge_on_reset hst ha, Effect.on_restore, hst.position_eq, hback, hreached]
  rw [← Effect.andThen_on]
  cases w with
  | ok =>
    simp [Effect.on, Effect.report, Effect.note, Effect.andThen, State.note, State.addError]
  | mismatch | leftRecursion | fault | exhausted =>
    simp only [Effect.settle_on, hst.position_eq]

/-- At the end of the source a scan matches where it is. -/
theorem does_skip_atEnd {past : Bool} {n : Nat} (hend : s.size ≤ pos) :
    (skip s past p (n + 1)).Does fs pos .ok (.jump pos) := by
  intro st hst
  simp only [skip, if_pos (hst.atEnd_iff.2 hend), ← hst.position_eq,
    Effect.jump_on st (hst.position_eq ▸ hst.le_furthest)]

/-- A scan ends where its target matches: past the target or before it, as it is asked to. -/
theorem Does.skip_found {past : Bool} {n : Nat} (h : p.Does fs pos .ok a) (hlt : pos < s.size)
    (ha : a.Within s pos) :
    (skip s past p (n + 1)).Does fs pos .ok (a.undo (if past then a.stop else pos)) := by
  intro st hst
  have hstop : a.stop ≤ s.size := ha.boundary.le_size
  simp only [skip, if_neg (mt hst.atEnd_iff.1 (Nat.not_le.2 hlt)), h st hst, Effect.on_restore,
    Effect.on_position, hst.position_eq]
  cases past with
  | false => rfl
  | true => simp [State.setPosition, Effect.on, Effect.undo, Nat.min_eq_right hstop]

/-- Where its target does not match, a scan moves on by one element. -/
theorem Does.skip_next {past : Bool} {n : Nat} (h : p.Does fs pos .mismatch a)
    (hlt : pos < s.size) (hb : s.walk a.stop 1 ≤ b.reach)
    (hrest : (skip s past p n).Does fs (s.walk a.stop 1) v b) :
    (skip s past p (n + 1)).Does fs pos v (a.andThen b) := by
  intro st hst
  have hnext := hrest ((a.on st).advance s 1)
    ⟨rfl, hst.frames_eq, Nat.le_max_right _ _⟩
  simp only [skip, if_neg (mt hst.atEnd_iff.1 (Nat.not_le.2 hlt)), h st hst, hnext,
    Effect.andThen_on]
  -- the step over one element is already accounted for by where the rest begins
  have hreach : max (max (a.on st).furthest (s.walk a.stop 1)) b.reach =
      max (a.on st).furthest b.reach := by
    rw [Nat.max_assoc, Nat.max_eq_right hb]
  simp only [Effect.on, State.advance] at hreach ⊢
  rw [hreach]

/-- A signal from its target ends a scan. -/
theorem Does.skip_signal {past : Bool} {n q : Nat} (h : p.Does fs pos (.leftRecursion q) a)
    (hlt : pos < s.size) : (skip s past p (n + 1)).Does fs pos (.leftRecursion q) a := by
  intro st hst
  simp only [skip, if_neg (mt hst.atEnd_iff.1 (Nat.not_le.2 hlt)), h st hst]

end recovery

end Parser

/-! ## Expressions that look at the source -/

/-- A terminal does what its reading says: it goes to where the reading ends, or fails where it
is. -/
theorem Reads.does {env : Setting α Id} {fs : List (Frame Id)} {pos : Nat} {e : Expr α Id}
    {r : Option Nat} (h : Reads env.source pos e r) :
    (e.parser env).Does fs pos (if r.isSome then .ok else .mismatch) (.jump (r.getD pos)) := by
  intro st hst
  cases h with
  | satisfy test =>
    have hpeek : st.peek env.source = (env.source.elementAt pos).map Prod.fst := by
      rw [State.peek, hst.position_eq]
    simp only [Expr.parser, Parser.satisfy, hpeek]
    cases hat : env.source.elementAt pos with
    | none => exact Parser.does_mismatch st hst
    | some x =>
      by_cases hx : test x.1 = true
      · simp [hx, State.advance, Effect.on, Effect.jump, hst.position_eq]
      · simp only [Option.map_some, Option.any_some, if_neg hx]
        exact Parser.does_mismatch st hst
  | literal tests =>
    simp only [Expr.parser, Parser.literal, hst.position_eq]
    by_cases hpass : env.source.passes pos tests
    · simp [hpass, State.advance, Effect.on, Effect.jump, hst.position_eq]
    · simp only [if_neg hpass]
      exact Parser.does_mismatch st hst
  | endOfInput =>
    simp only [Expr.parser, Parser.endOfInput, hst.atEnd_iff]
    by_cases hend : env.source.size ≤ pos
    · simp only [if_pos hend]
      exact Parser.does_succeed st hst
    · simp only [if_neg hend]
      exact Parser.does_mismatch st hst

/-! ## Expressions -/

/-- The parser of a task comes back with a verdict and an effect at a place. Loops do so under every
bound above the number of elements that are left. -/
def Task.Done (env : Setting α Id) (fs : List (Frame Id)) (pos : Nat) (v : Verdict)
    (a : Effect Id) : Task α Id → Prop
  | .expr e => (e.parser env).Does fs pos v a
  | .items es => (Parser.inOrder (Expr.parsers env es)).Does fs pos v a
  | .loop e => ∀ n c st, env.source.after pos < n → st.At fs pos →
      Parser.rounds (e.parser env) c n st = Parser.settle c (v, a.on st)
  | .skip past e => ∀ n, env.source.after pos < n →
      (Parser.skip env.source past (e.parser env) n).Does fs pos v a

section does

variable {env : Setting α Id} {L : Nat → Nat → Prop} {floor : Nat}
  {C : Nat → Nat → Verdict → Effect Id → Prop} {fs : List (Frame Id)}

/-- The parser of a task does what is derivable for the task. -/
theorem Runs.does (hC : Regular env.source L floor C)
    (hcall : ∀ i p v a, floor ≤ p → env.source.Boundary p → C i p v a →
      (env.call i).Does fs p v a)
    (hbound : env.source.size < env.bound) {t : Task α Id} {pos : Nat} {v : Verdict}
    {a : Effect Id} (h : Runs env.source C t pos v a) (hfloor : floor ≤ pos)
    (hpos : env.source.Boundary pos) : t.Done env fs pos v a := by
  induction h with
  | reads hr => exact hr.does
  | misses hr => exact hr.does
  | rule h => exact hcall _ _ _ _ hfloor hpos h
  | sequence _ ih => exact (ih hfloor hpos).attempt
  | choiceNil => exact Parser.does_mismatch
  | choiceNext h₁ _ ih₁ ih₂ =>
    exact (ih₁ hfloor hpos).choice_next (h₁.conforms hC hfloor hpos).le_reach (ih₂ hfloor hpos)
  | choiceDone _ hv ih => exact (ih hfloor hpos).choice_done hv
  | group _ ih => exact ih hfloor hpos
  | star _ ih =>
    have hafter := hpos.after_add_le_size
    exact Parser.does_star fun st hst => ih hfloor hpos env.bound _ st (by omega) hst
  | plusOnce _ hv ih => exact (ih hfloor hpos).plus_once hv
  | plusMore h₁ hmoved _ ih₁ ih₂ =>
    have ha := h₁.conforms hC hfloor hpos
    have hafter := ha.boundary.after_add_le_size
    refine (ih₁ hfloor hpos).plus_more ha.stop_le_reach hmoved ?_
    exact Parser.does_star fun st hst =>
      ih₂ (Nat.le_trans hfloor ha.le_stop) ha.boundary env.bound _ st (by omega) hst
  | optional _ ih => exact (ih hfloor hpos).optional
  | ahead h ih => exact (ih hfloor hpos).lookahead (h.conforms hC hfloor hpos).answer
  | notAhead h ih => exact (ih hfloor hpos).notAhead (h.conforms hC hfloor hpos).answer
  | @times pos n e v a _ ih =>
    have h := ih hfloor hpos
    simp only [Task.Done, Expr.parsers_eq_map, List.map_replicate] at h
    rw [← Parser.iterate_eq_inOrder] at h
    exact h.attempt
  | tagOk _ ih => exact (ih hfloor hpos).tag_ok _
  | tagFail _ hv ih => exact (ih hfloor hpos).tag_fail _ hv
  | recoverAtEnd hend _ ih => exact (ih hfloor hpos).recover_atEnd hend
  | recoverPass hlt h hv ih =>
    have ha := h.conforms hC hfloor hpos
    exact (ih hfloor hpos).recover_pass hlt ha.le_reach ha.answer hv
  | recoverOk hlt h₁ _ ih₁ ih₂ =>
    intro st hst
    exact (ih₁ hfloor hpos).recover_fallback _ hlt (h₁.conforms hC hfloor hpos).le_reach
      (ih₂ hfloor hpos) hst
  | @recoverFail pos e f id v a b hlt h₁ _ hv ih₁ ih₂ =>
    intro st hst
    have h := (ih₁ hfloor hpos).recover_fallback id hlt
      (h₁.conforms hC hfloor hpos).le_reach (ih₂ hfloor hpos) hst
    cases v with
    | ok => exact absurd rfl hv
    | mismatch | leftRecursion | fault | exhausted => exact h
  | skipBefore _ ih =>
    have hafter := hpos.after_add_le_size
    exact ih hfloor hpos env.bound (by omega)
  | skipPast _ ih =>
    have hafter := hpos.after_add_le_size
    exact ih hfloor hpos env.bound (by omega)
  | itemsNil => exact Parser.does_succeed
  | itemsCons h₁ _ ih₁ ih₂ =>
    have ha := h₁.conforms hC hfloor hpos
    exact (ih₁ hfloor hpos).inOrder_cons ha.stop_le_reach
      (ih₂ (Nat.le_trans hfloor ha.le_stop) ha.boundary)
  | itemsFail _ hv ih => exact (ih hfloor hpos).inOrder_fail hv
  | loopEnd _ ih =>
    rintro (_ | n) c st hn hst
    · omega
    · exact Parser.rounds_end (ih hfloor hpos) hst
  | loopStay _ hstay ih =>
    rintro (_ | n) c st hn hst
    · omega
    · exact Parser.rounds_stay (ih hfloor hpos) hstay hst
  | loopMore h₁ hmoved _ ih₁ ih₂ =>
    have ha := h₁.conforms hC hfloor hpos
    rintro (_ | n) c st hn hst
    · omega
    · -- a round that moved leaves fewer elements to the next one
      have hfewer := hpos.after_lt ha.boundary (Nat.lt_of_le_of_ne ha.le_stop hmoved.symm)
      rw [Parser.rounds_more (ih₁ hfloor hpos) hmoved hst, Effect.andThen_on]
      exact ih₂ (Nat.le_trans hfloor ha.le_stop) ha.boundary n c _ (by omega)
        (Effect.on_at hst ha.stop_le_reach)
  | loopSignal _ ih =>
    rintro (_ | n) c st hn hst
    · omega
    · exact Parser.rounds_signal (ih hfloor hpos) hst
  | skipAtEnd hend =>
    rintro (_ | n) hn
    · omega
    · exact Parser.does_skip_atEnd hend
  | skipFound hlt h ih =>
    rintro (_ | n) hn
    · omega
    · exact (ih hfloor hpos).skip_found hlt (h.conforms hC hfloor hpos).toWithin
  | skipNext hlt h₁ h₂ ih₁ ih₂ =>
    have ha := h₁.conforms hC hfloor hpos
    have hstop := (ha.silent rfl rfl).stop_eq
    have hstep := hpos.lt_walk_one hlt
    rw [hstop] at h₂ ih₂
    have hb := h₂.conforms hC (by omega) (hpos.walk 1)
    rintro (_ | n) hn
    · omega
    · have hfewer := hpos.after_lt (hpos.walk 1) hstep
      refine (ih₁ hfloor hpos).skip_next hlt (by rw [hstop]; exact hb.le_reach) ?_
      rw [hstop]
      exact ih₂ (by omega) (hpos.walk 1) n (by omega)
  | skipSignal hlt _ ih =>
    rintro (_ | n) hn
    · omega
    · exact (ih hfloor hpos).skip_signal hlt

end does

end Peg
