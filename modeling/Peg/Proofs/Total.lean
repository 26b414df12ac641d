import Peg.Proofs.Conforms
import Peg.Proofs.Plain

/-!
# Every plain expression comes out somehow

If every rule of the grammar comes out with a verdict from a position on, then so does every plain
expression (`runnable_of_isPlain`). The only tasks for which this is not plain recursion on the
expression are the repetitions: a loop goes on only after a round that moved the cursor, skipping
only after a step over an element, and either way fewer elements are left.
-/

namespace Peg

variable {α Id : Type}

/-- Whether a task is built without scripts. -/
def Task.isPlain : Task α Id → Bool
  | expr e => e.isPlain
  | items es => Expr.allPlain es
  | loop e => e.isPlain
  | skip _ token => token.isPlain

/-- A task comes out somehow wherever it is begun from a position on. -/
def Task.Runnable (s : Source α) (C : Nat → Nat → Verdict → Effect Id → Prop) (floor : Nat)
    (t : Task α Id) : Prop :=
  ∀ pos, floor ≤ pos → s.Boundary pos → ∃ v a, Runs s C t pos v a

section total

variable {s : Source α} {L : Nat → Nat → Prop} {floor : Nat}
  {C : Nat → Nat → Verdict → Effect Id → Prop}

/-- A terminal comes out somehow. -/
theorem Reads.exists_runs {pos : Nat} {e : Expr α Id} {r : Option Nat} (h : Reads s pos e r) :
    ∃ v a, Runs s C (.expr e) pos v a := by
  cases r with
  | none => exact ⟨_, _, .misses h⟩
  | some stop => exact ⟨_, _, .reads h⟩

/-! ## From a part to the whole

A run of the part that comes first can be completed to a run of the whole, which reaches at least as
far as the part did. -/

/-- A run of the first item can be completed to a run of all of them. -/
theorem Runs.extend_items {pos : Nat} {e : Expr α Id} {es : List (Expr α Id)} {v : Verdict}
    {a : Effect Id} (h : Runs s C (.expr e) pos v a)
    (hrest : v = .ok → ∃ w b, Runs s C (.items es) a.stop w b) :
    ∃ w b, Runs s C (.items (e :: es)) pos w b ∧ a.reach ≤ b.reach := by
  by_cases hv : v = .ok
  · obtain ⟨w, b, hb⟩ := hrest hv
    subst hv
    exact ⟨_, _, .itemsCons h hb, Nat.le_max_left _ _⟩
  · exact ⟨_, _, .itemsFail h hv, Nat.le_refl _⟩

/-- A run of the first alternative can be completed to a run of the choice. -/
theorem Runs.extend_choice {pos : Nat} {e : Expr α Id} {es : List (Expr α Id)} {v : Verdict}
    {a : Effect Id} (h : Runs s C (.expr e) pos v a)
    (hrest : ∃ w b, Runs s C (.expr (.choice es)) pos w b) :
    ∃ w b, Runs s C (.expr (.choice (e :: es))) pos w b ∧ a.reach ≤ b.reach := by
  by_cases hv : v = .mismatch
  · subst hv
    obtain ⟨w, b, hb⟩ := hrest
    exact ⟨_, _, .choiceNext h hb, Nat.le_max_left _ _⟩
  · exact ⟨_, _, .choiceDone h hv, Nat.le_of_eq (Effect.settle_reach v pos a).symm⟩

/-- A round can be completed to a run of the loop. -/
theorem Runs.extend_loop {pos : Nat} {e : Expr α Id} {v : Verdict} {a : Effect Id}
    (h : Runs s C (.expr e) pos v a) (hv : v.isAnswer = true)
    (hrest : v = .ok → a.stop ≠ pos → ∃ w b, Runs s C (.loop e) a.stop w b) :
    ∃ w b, Runs s C (.loop e) pos w b ∧ a.reach ≤ b.reach := by
  cases v with
  | ok =>
    by_cases hstay : a.stop = pos
    · exact ⟨_, _, .loopStay h hstay, Nat.le_refl _⟩
    · obtain ⟨w, b, hb⟩ := hrest rfl hstay
      exact ⟨_, _, .loopMore h hstay hb, Nat.le_max_left _ _⟩
  | mismatch => exact ⟨_, _, .loopEnd h, Nat.le_refl _⟩
  | leftRecursion q => exact ⟨_, _, .loopSignal h, Nat.le_refl _⟩
  | fault => cases hv
  | exhausted => cases hv

/-- A trial of the token can be completed to a scan. -/
theorem Runs.extend_skip {pos : Nat} {past : Bool} {e : Expr α Id} {v : Verdict} {a : Effect Id}
    (h : Runs s C (.expr e) pos v a) (hlt : pos < s.size) (hv : v.isAnswer = true)
    (hrest : v = .mismatch → ∃ w b, Runs s C (.skip past e) (s.walk a.stop 1) w b) :
    ∃ w b, Runs s C (.skip past e) pos w b ∧ a.reach ≤ b.reach := by
  cases v with
  | ok => exact ⟨_, _, .skipFound hlt h, Nat.le_refl _⟩
  | mismatch =>
    obtain ⟨w, b, hb⟩ := hrest rfl
    exact ⟨_, _, .skipNext hlt h hb, Nat.le_max_left _ _⟩
  | leftRecursion q => exact ⟨_, _, .skipSignal hlt h, Nat.le_refl _⟩
  | fault => cases hv
  | exhausted => cases hv

/-- A first run can be completed to a loop of at least one run. -/
theorem Runs.extend_plus {pos : Nat} {e : Expr α Id} {v : Verdict} {a : Effect Id}
    (h : Runs s C (.expr e) pos v a) (hrest : v = .ok → ∃ w b, Runs s C (.loop e) a.stop w b) :
    ∃ w b, Runs s C (.expr (.plus e)) pos w b ∧ a.reach ≤ b.reach := by
  by_cases hmore : v = .ok ∧ a.stop ≠ pos
  · obtain ⟨w, b, hb⟩ := hrest hmore.1
    obtain ⟨rfl, hmoved⟩ := hmore
    refine ⟨_, _, .plusMore h hmoved hb, ?_⟩
    rw [Effect.settle_reach]
    exact Nat.le_max_left _ _
  · have hstay : v = .ok → a.stop = pos := fun hv =>
      Decidable.byContradiction fun hne => hmore ⟨hv, hne⟩
    exact ⟨_, _, .plusOnce h hstay, Nat.le_of_eq (Effect.settle_reach v pos a).symm⟩

/-- A run can be completed to one under a tag. -/
theorem Runs.extend_tag {pos : Nat} {e : Expr α Id} {id : Id} {v : Verdict} {a : Effect Id}
    (h : Runs s C (.expr e) pos v a) :
    ∃ w b, Runs s C (.expr (.tag e id)) pos w b ∧ a.reach ≤ b.reach := by
  by_cases hv : v = .ok
  · subst hv
    exact ⟨_, _, .tagOk h, Nat.le_refl _⟩
  · exact ⟨_, _, .tagFail h hv, Nat.le_of_eq (Effect.settle_reach v pos a).symm⟩

/-- A primary that does not match and a run of the fallback make up a recovery. -/
theorem Runs.extend_fallback {pos : Nat} {e f : Expr α Id} {v : Verdict} {a b : Effect Id}
    (he : Runs s C (.expr e) pos .mismatch a) (id : Id) (hlt : pos < s.size)
    (hf : Runs s C (.expr f) pos v b) :
    ∃ w c, Runs s C (.expr (.recover e id f)) pos w c ∧ max a.reach b.reach ≤ c.reach := by
  by_cases hv : v = .ok
  · subst hv
    exact ⟨_, _, .recoverOk hlt he hf, Nat.le_refl _⟩
  · exact ⟨_, _, .recoverFail hlt he hf hv, by rw [Effect.settle_reach]; exact Nat.le_refl _⟩

/-- A run of the primary can be completed to a recovery. -/
theorem Runs.extend_recover {pos : Nat} {e f : Expr α Id} {id : Id} {v : Verdict} {a : Effect Id}
    (hlt : pos < s.size) (h : Runs s C (.expr e) pos v a)
    (hrest : ∃ w b, Runs s C (.expr f) pos w b) :
    ∃ w b, Runs s C (.expr (.recover e id f)) pos w b ∧ a.reach ≤ b.reach := by
  by_cases hv : v = .mismatch
  · subst hv
    obtain ⟨w, b, hb⟩ := hrest
    obtain ⟨w', c, hc, hreach⟩ := h.extend_fallback id hlt hb
    exact ⟨w', c, hc, Nat.le_trans (Nat.le_max_left _ _) hreach⟩
  · exact ⟨_, _, .recoverPass hlt h hv, Nat.le_refl _⟩

/-! ## Tasks that come out -/

/-- Items in a row come out somehow if each of them does. -/
theorem Task.Runnable.items (hC : Regular s L floor C) {es : List (Expr α Id)}
    (h : ∀ e ∈ es, (Task.expr e).Runnable s C floor) : (Task.items es).Runnable s C floor := by
  induction es with
  | nil => exact fun _ _ _ => ⟨_, _, .itemsNil⟩
  | cons e es ih =>
    intro pos hfloor hpos
    obtain ⟨v, a, he⟩ := h e List.mem_cons_self pos hfloor hpos
    have ha := he.conforms hC hfloor hpos
    obtain ⟨w, b, hrun, -⟩ := he.extend_items fun _ =>
      ih (fun e' he' => h e' (List.mem_cons_of_mem e he')) a.stop
        (Nat.le_trans hfloor ha.le_stop) ha.boundary
    exact ⟨w, b, hrun⟩

/-- A choice comes out somehow if its alternatives do. -/
theorem Task.Runnable.choice {es : List (Expr α Id)}
    (h : ∀ e ∈ es, (Task.expr e).Runnable s C floor) :
    (Task.expr (.choice es)).Runnable s C floor := by
  induction es with
  | nil => exact fun _ _ _ => ⟨_, _, .choiceNil⟩
  | cons e es ih =>
    intro pos hfloor hpos
    obtain ⟨v, a, he⟩ := h e List.mem_cons_self pos hfloor hpos
    obtain ⟨w, b, hrun, -⟩ := he.extend_choice
      (ih (fun e' he' => h e' (List.mem_cons_of_mem e he')) pos hfloor hpos)
    exact ⟨w, b, hrun⟩

/-- A loop ends because every round but the last leaves fewer elements. -/
theorem Task.Runnable.loop (hC : Regular s L floor C) {e : Expr α Id}
    (h : (Task.expr e).Runnable s C floor) : (Task.loop e).Runnable s C floor := by
  intro pos
  induction hn : s.after pos using Nat.strongRecOn generalizing pos with
  | ind n ih =>
    intro hfloor hpos
    obtain ⟨v, a, he⟩ := h pos hfloor hpos
    have ha := he.conforms hC hfloor hpos
    obtain ⟨w, b, hrun, -⟩ := he.extend_loop ha.answer fun _ hmoved => by
      have hfewer := hpos.after_lt ha.boundary (Nat.lt_of_le_of_ne ha.le_stop hmoved.symm)
      exact ih (s.after a.stop) (hn ▸ hfewer) a.stop rfl (Nat.le_trans hfloor ha.le_stop)
        ha.boundary
    exact ⟨w, b, hrun⟩

/-- Skipping ends because every step leaves fewer elements. -/
theorem Task.Runnable.skip (hC : Regular s L floor C) {past : Bool} {e : Expr α Id}
    (h : (Task.expr e).Runnable s C floor) : (Task.skip past e).Runnable s C floor := by
  intro pos
  induction hn : s.after pos using Nat.strongRecOn generalizing pos with
  | ind n ih =>
    intro hfloor hpos
    by_cases hend : s.size ≤ pos
    · exact ⟨_, _, .skipAtEnd hend⟩
    · have hlt := Nat.lt_of_not_le hend
      obtain ⟨v, a, he⟩ := h pos hfloor hpos
      have ha := he.conforms hC hfloor hpos
      obtain ⟨w, b, hrun, -⟩ := he.extend_skip hlt ha.answer fun hv => by
        rw [(ha.silent rfl (by rw [hv]; rfl)).stop_eq]
        have hstep := hpos.lt_walk_one hlt
        have hfewer := hpos.after_lt (hpos.walk 1) hstep
        exact ih _ (hn ▸ hfewer) (s.walk pos 1) rfl (Nat.le_trans hfloor (Nat.le_of_lt hstep))
          (hpos.walk 1)
      exact ⟨w, b, hrun⟩

/-- A loop of at least one run comes out somehow if its expression does. -/
theorem Task.Runnable.plus (hC : Regular s L floor C) {e : Expr α Id}
    (h : (Task.expr e).Runnable s C floor) : (Task.expr (.plus e)).Runnable s C floor := by
  intro pos hfloor hpos
  obtain ⟨v, a, he⟩ := h pos hfloor hpos
  have ha := he.conforms hC hfloor hpos
  obtain ⟨w, b, hrun, -⟩ := he.extend_plus fun _ =>
    h.loop hC a.stop (Nat.le_trans hfloor ha.le_stop) ha.boundary
  exact ⟨w, b, hrun⟩

/-- A recovery comes out somehow if its primary and its fallback do. -/
theorem Task.Runnable.recover {e f : Expr α Id} {id : Id} (he : (Task.expr e).Runnable s C floor)
    (hf : (Task.expr f).Runnable s C floor) :
    (Task.expr (.recover e id f)).Runnable s C floor := by
  intro pos hfloor hpos
  obtain ⟨v, a, hv⟩ := he pos hfloor hpos
  by_cases hend : s.size ≤ pos
  · exact ⟨_, _, .recoverAtEnd hend hv⟩
  · obtain ⟨w, b, hrun, -⟩ := hv.extend_recover (Nat.lt_of_not_le hend) (hf pos hfloor hpos)
    exact ⟨w, b, hrun⟩

/-- Every plain expression comes out somehow if the rules of the grammar do. -/
theorem Expr.runnable_of_isPlain (hC : Regular s L floor C)
    (hrule : ∀ i, (Task.expr (.rule i) : Task α Id).Runnable s C floor) (e : Expr α Id)
    (he : e.isPlain = true) : (Task.expr e).Runnable s C floor := by
  induction e, he using Expr.plain_induction with
  | satisfy test => exact fun _ _ _ => (Reads.satisfy test).exists_runs
  | literal tests => exact fun _ _ _ => (Reads.literal tests).exists_runs
  | endOfInput => exact fun _ _ _ => Reads.endOfInput.exists_runs
  | rule i => exact hrule i
  | sequence es h ih =>
    intro pos hfloor hpos
    have hall := fun e he => ih e he ((Expr.allPlain_iff es).1 h e he)
    obtain ⟨v, a, h⟩ := Task.Runnable.items hC hall pos hfloor hpos
    exact ⟨_, _, .sequence h⟩
  | choice es h ih => exact .choice fun e he => ih e he ((Expr.allPlain_iff es).1 h e he)
  | group e h ih =>
    intro pos hfloor hpos
    obtain ⟨v, a, h⟩ := ih pos hfloor hpos
    exact ⟨_, _, .group h⟩
  | star e h ih =>
    intro pos hfloor hpos
    obtain ⟨v, a, h⟩ := ih.loop hC pos hfloor hpos
    exact ⟨_, _, .star h⟩
  | plus e h ih => exact ih.plus hC
  | optional e h ih =>
    intro pos hfloor hpos
    obtain ⟨v, a, h⟩ := ih pos hfloor hpos
    exact ⟨_, _, .optional h⟩
  | ahead e h ih =>
    intro pos hfloor hpos
    obtain ⟨v, a, h⟩ := ih pos hfloor hpos
    exact ⟨_, _, .ahead h⟩
  | notAhead e h ih =>
    intro pos hfloor hpos
    obtain ⟨v, a, h⟩ := ih pos hfloor hpos
    exact ⟨_, _, .notAhead h⟩
  | times e n h ih =>
    intro pos hfloor hpos
    have hcopies : ∀ e' ∈ List.replicate n e, (Task.expr e').Runnable s C floor := by
      intro e' he'
      rw [List.eq_of_mem_replicate he']
      exact ih
    obtain ⟨v, a, h⟩ := Task.Runnable.items hC hcopies pos hfloor hpos
    exact ⟨_, _, .times h⟩
  | tag e id h ih =>
    intro pos hfloor hpos
    obtain ⟨v, a, h⟩ := ih pos hfloor hpos
    obtain ⟨w, b, hrun, -⟩ := h.extend_tag
    exact ⟨w, b, hrun⟩
  | recover e id f h he hf ihe ihf => exact ihe.recover ihf
  | skipBefore e h ih =>
    intro pos hfloor hpos
    obtain ⟨v, a, h⟩ := ih.skip hC pos hfloor hpos
    exact ⟨_, _, .skipBefore h⟩
  | skipPast e h ih =>
    intro pos hfloor hpos
    obtain ⟨v, a, h⟩ := ih.skip hC pos hfloor hpos
    exact ⟨_, _, .skipPast h⟩

/-- Every plain task comes out somehow, if every rule does. -/
theorem Task.runnable_of_isPlain (hC : Regular s L floor C)
    (hrule : ∀ i, (Task.expr (.rule i) : Task α Id).Runnable s C floor) (t : Task α Id)
    (ht : t.isPlain = true) : t.Runnable s C floor := by
  cases t with
  | expr e => exact Expr.runnable_of_isPlain hC hrule e ht
  | items es =>
    refine .items hC fun e he => Expr.runnable_of_isPlain hC hrule e ?_
    exact (Expr.allPlain_iff es).1 ht e he
  | loop e => exact (Expr.runnable_of_isPlain hC hrule e ht).loop hC
  | skip past e => exact (Expr.runnable_of_isPlain hC hrule e ht).skip hC

end total

end Peg
