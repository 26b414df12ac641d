import Peg.Expr.Operator
import Peg.Proofs.Operators
import Peg.Proofs.Termination

/-!
# Chains and their bracketings

The operators keep chains flat, so that a chain has one place to go back to where its nested form
has one for every pair of brackets. `Grammar.chains_flatten`: in every state that arises in a parse
this makes no difference.

* A sequence on either side of `>>`, those that stand for an exclusion among them, can be spliced or
  left in one piece, and so can a choice on either side of `<|>`.
* However the operands of a chain are bracketed, and whether the brackets are spliced or left in
  one piece, the chain comes out as its operands in one row do.

Both are about operands in a row: an expression stands for a row of expressions (`Task.InRow`,
`Expr.InChoice`) if it does what they do, up to what is taken back on failure. Every operator that
joins two rows keeps to that, and `Bracketing.build_keeps` carries it through the brackets.
-/

namespace Peg

variable {α Id : Type}

/-! ## Bracketings -/

/-- A way to put brackets around a chain of operands. -/
inductive Bracketing (α Id : Type) where
  /-- A single operand. -/
  | operand (e : Expr α Id)
  /-- Two parts of the chain. -/
  | join (left right : Bracketing α Id)

namespace Bracketing

/-- The operands, from left to right. -/
def operands : Bracketing α Id → List (Expr α Id)
  | operand e => [e]
  | join left right => left.operands ++ right.operands

/-- The expression in which every pair of brackets is an application of an operator. -/
def build (op : Expr α Id → Expr α Id → Expr α Id) : Bracketing α Id → Expr α Id
  | operand e => e
  | join left right => op (left.build op) (right.build op)

/-- What holds of an expression and the row that it stands for, and is kept when two rows are
joined, holds of every bracketing and its operands. -/
theorem build_keeps {op : Expr α Id → Expr α Id → Expr α Id}
    {R : Expr α Id → List (Expr α Id) → Prop} (hoperand : ∀ e, R e [e])
    (hjoin : ∀ {l r es es'}, R l es → R r es' → R (op l r) (es ++ es')) (t : Bracketing α Id) :
    R (t.build op) t.operands := by
  induction t with
  | operand e => exact hoperand e
  | join left right ihl ihr => exact hjoin ihl ihr

end Bracketing

/-! ## Operands in a row -/

section rows

variable {s : Source α} {C : Nat → Nat → Verdict → Effect Id → Prop} {L : Nat → Nat → Prop}
  {floor : Nat} {e l r : Expr α Id} {es es' is is' : List (Expr α Id)}

/-- Every run of the task is a run of the items in a row, up to what is taken back on failure. -/
def Task.InRow (s : Source α) (C : Nat → Nat → Verdict → Effect Id → Prop) (floor : Nat)
    (t : Task α Id) (is : List (Expr α Id)) : Prop :=
  ∀ ⦃pos : Nat⦄ ⦃v : Verdict⦄ ⦃a : Effect Id⦄, floor ≤ pos → s.Boundary pos → Runs s C t pos v a →
    ∃ a', Runs s C (.items is) pos v a' ∧ a'.settle v pos = a.settle v pos

namespace Task.InRow

/-- An operand is a row of one. -/
theorem operand (hC : Regular s L floor C) (e : Expr α Id) : (Task.expr e).InRow s C floor [e] :=
  fun _ _ _ hfloor hpos hrun =>
    ⟨_, hrun.items_single (hrun.conforms hC hfloor hpos).stop_le_reach, rfl⟩

/-- A row of one expression stands for what the expression stands for. -/
theorem single (hC : Regular s L floor C) (h : (Task.expr e).InRow s C floor is) :
    (Task.items [e]).InRow s C floor is :=
  fun _ _ _ hfloor hpos hrun => h hfloor hpos (hrun.of_items_single hC hfloor hpos)

/-- The items of an expression are as good as the expression. -/
theorem spliced (hC : Regular s L floor C) (h : (Task.expr e).InRow s C floor is) :
    (Task.items e.sequenceItems).InRow s C floor is := by
  intro pos v a hfloor hpos hrun
  obtain ⟨a', hitems, heq⟩ := h hfloor hpos (hrun.of_sequenceItems hC hfloor hpos)
  exact ⟨a', hitems, heq.trans (Effect.settle_settle v a pos)⟩

/-- Rows can be joined. -/
theorem append (hC : Regular s L floor C) (h : (Task.items es).InRow s C floor is)
    (h' : (Task.items es').InRow s C floor is') :
    (Task.items (es ++ es')).InRow s C floor (is ++ is') := by
  intro pos v a hfloor hpos hrun
  rcases hrun.items_split hC hfloor hpos with ⟨hv, hleft⟩ | ⟨a₁, b, hleft, hright, rfl⟩
  · obtain ⟨a', hitems, heq⟩ := h hfloor hpos hleft
    exact ⟨a', hitems.items_append_fail hv, heq⟩
  · obtain ⟨a₁', hitems, heq⟩ := h hfloor hpos hleft
    rw [Effect.settle_ok, Effect.settle_ok] at heq
    subst heq
    have hwithin := (hitems.conforms hC hfloor hpos).toWithin
    have hfloor' := Nat.le_trans hfloor hwithin.le_stop
    obtain ⟨b', hitems', heq'⟩ := h' hfloor' hwithin.boundary hright
    have hreach := (hitems'.conforms hC hfloor' hwithin.boundary).le_reach
    refine ⟨a₁'.andThen b', hitems.items_append hitems' hreach, ?_⟩
    -- the inner brackets take less back than the outer ones
    rw [← Effect.settle_andThen_settle v a₁' b' pos a₁'.stop, heq', Effect.settle_andThen_settle]

/-- A sequence stands for what its items stand for. -/
theorem sequence (h : (Task.items es).InRow s C floor is) :
    (Task.expr (.sequence es)).InRow s C floor is := by
  intro pos v a hfloor hpos hrun
  cases hrun with
  | @sequence _ _ _ c hitems =>
    obtain ⟨a', hrow, heq⟩ := h hfloor hpos hitems
    exact ⟨a', hrow, heq.trans (Effect.settle_settle v c pos).symm⟩
  | reads hr => cases hr
  | misses hr => cases hr

/-- Grouping does not change what an expression stands for. -/
theorem group (h : (Task.expr e).InRow s C floor is) :
    (Task.expr (.group e)).InRow s C floor is := by
  intro pos v a hfloor hpos hrun
  cases hrun with
  | group hrun => exact h hfloor hpos hrun
  | reads hr => cases hr
  | misses hr => cases hr

/-- Two expressions one after the other stand for their two rows, appended. -/
theorem join_andThen (hC : Regular s L floor C) (h : (Task.expr l).InRow s C floor is)
    (h' : (Task.expr r).InRow s C floor is') :
    (Task.expr (l.andThen r)).InRow s C floor (is ++ is') :=
  ((h.spliced hC).append hC (h'.spliced hC)).sequence

/-- The sequence of two whole expressions stands for their two rows, appended. -/
theorem join_wholeSequence (hC : Regular s L floor C) (h : (Task.expr l).InRow s C floor is)
    (h' : (Task.expr r).InRow s C floor is') :
    (Task.expr (.wholeSequence [l, r])).InRow s C floor (is ++ is') :=
  ((h.single hC).append hC (h'.single hC)).sequence.group

/-- An expression does what the sequence of its row does. -/
theorem run (hC : Regular s L floor C) (h : (Task.expr e).InRow s C floor is) {pos : Nat}
    {v : Verdict} {a : Effect Id} (hfloor : floor ≤ pos) (hpos : s.Boundary pos)
    (hrun : Runs s C (.expr e) pos v a) : Runs s C (.expr (.wholeSequence is)) pos v a := by
  obtain ⟨a', hitems, heq⟩ := h hfloor hpos hrun
  rw [← (hrun.conforms hC hfloor hpos).settle_eq, ← heq]
  exact .group (.sequence hitems)

end Task.InRow

/-- Every run of the expression is a run of the choice of the alternatives. -/
def Expr.InChoice (s : Source α) (C : Nat → Nat → Verdict → Effect Id → Prop) (floor : Nat)
    (e : Expr α Id) (is : List (Expr α Id)) : Prop :=
  ∀ ⦃pos : Nat⦄ ⦃v : Verdict⦄ ⦃a : Effect Id⦄, floor ≤ pos → s.Boundary pos →
    Runs s C (.expr e) pos v a → Runs s C (.expr (.choice is)) pos v a

namespace Expr.InChoice

/-- An operand is a choice of one. -/
theorem operand (hC : Regular s L floor C) (e : Expr α Id) : e.InChoice s C floor [e] :=
  fun _ _ _ hfloor hpos hrun => hrun.choice_single (hrun.conforms hC hfloor hpos)

/-- A choice of one expression stands for what the expression stands for. -/
theorem single (hC : Regular s L floor C) (h : e.InChoice s C floor is) :
    (Expr.choice [e]).InChoice s C floor is :=
  fun _ _ _ hfloor hpos hrun => h hfloor hpos (hrun.of_choice_single hC hfloor hpos)

/-- An expression stands for the same as the choice of its alternatives. -/
theorem spliced (hC : Regular s L floor C) (h : e.InChoice s C floor is) :
    (Expr.choice e.choiceItems).InChoice s C floor is :=
  fun _ _ _ hfloor hpos hrun => h hfloor hpos (hrun.of_choiceItems hC hfloor hpos)

/-- A choice of two lists of alternatives stands for their two rows, appended. -/
theorem append (hC : Regular s L floor C) (h : (Expr.choice es).InChoice s C floor is)
    (h' : (Expr.choice es').InChoice s C floor is') :
    (Expr.choice (es ++ es')).InChoice s C floor (is ++ is') := by
  intro pos v a hfloor hpos hrun
  rcases hrun.choice_split hC hfloor hpos with ⟨hv, hleft⟩ | ⟨a₁, b, hleft, hright, rfl⟩
  · exact (h hfloor hpos hleft).choice_append_done hv
  · have hreach := (hright.conforms hC hfloor hpos).le_reach
    exact (h hfloor hpos hleft).choice_append (h' hfloor hpos hright) hreach

/-- Grouping does not change which choice an expression stands for. -/
theorem group (h : e.InChoice s C floor is) : (Expr.group e).InChoice s C floor is := by
  intro pos v a hfloor hpos hrun
  cases hrun with
  | group hrun => exact h hfloor hpos hrun
  | reads hr => cases hr
  | misses hr => cases hr

/-- One expression or else another stands for their two rows, appended. -/
theorem join_orElse (hC : Regular s L floor C) (h : l.InChoice s C floor is)
    (h' : r.InChoice s C floor is') : (l.orElse r).InChoice s C floor (is ++ is') :=
  (h.spliced hC).append hC (h'.spliced hC)

/-- The choice of two whole expressions stands for their two rows, appended. -/
theorem join_wholeChoice (hC : Regular s L floor C) (h : l.InChoice s C floor is)
    (h' : r.InChoice s C floor is') : (Expr.wholeChoice [l, r]).InChoice s C floor (is ++ is') :=
  ((h.single hC).append hC (h'.single hC)).group

end Expr.InChoice

end rows

/-! ## In a state -/

/-- Whichever way plain operands are joined, all bracketings of a plain chain are plain. -/
theorem Bracketing.isPlain_build {op : Expr α Id → Expr α Id → Expr α Id}
    (hop : ∀ {l r : Expr α Id}, l.isPlain = true → r.isPlain = true → (op l r).isPlain = true)
    {t : Bracketing α Id} (ht : Expr.allPlain t.operands = true) : (t.build op).isPlain = true := by
  refine t.build_keeps (R := fun e is => Expr.allPlain is = true → e.isPlain = true) ?_ ?_ ht
  · intro e he
    exact (Expr.allPlain_iff _).1 he e List.mem_cons_self
  · intro l r is is' hl hr hall
    rw [Expr.allPlain_append_iff] at hall
    exact hop (hl hall.1) (hr hall.2)

/-- Two expressions come out alike in a state: with the same verdict, and with the same cursor,
furthest position, records, frames and log. -/
def Expr.Alike (env : Setting α Id) (st : State Id) (e e' : Expr α Id) : Prop :=
  e.parser env st = e'.parser env st

namespace State.Proper

variable {g : Grammar α Id} {s : Source α} {b : Nat} {st : State Id} {e e' : Expr α Id}

/-- If all runs of an expression are runs of another one, the two come out alike. -/
theorem alike (h : st.Proper g s b) (hg : g.isPlain = true) (he : e.isPlain = true)
    (he' : e'.isPlain = true)
    (hruns : ∀ {C : Nat → Nat → Verdict → Effect Id → Prop} {L : Nat → Nat → Prop}
      {floor pos : Nat} {v : Verdict} {a : Effect Id}, Regular s L floor C → floor ≤ pos →
      s.Boundary pos → Runs s C (.expr e) pos v a → Runs s C (.expr e') pos v a) :
    Expr.Alike (g.setting s b) st e e' := by
  obtain ⟨v, a, hrun, -, -⟩ := Grammar.exists_done (t := .expr e) (invokes_lawful s)
    (invokes_realizedBy s) hg he h.stack h.boundary
  have hregular := Grammar.regular (g := g) (invokes_lawful s) (g.depth s st.frames) h.stack
  have hrun' := hruns hregular (Nat.le_refl _) h.boundary hrun
  exact (h.parser_eq hg he hrun).trans (h.parser_eq hg he' hrun').symm

/-- However a chain is bracketed, it comes out as the sequence of its operands. -/
theorem alike_sequence (t : Bracketing α Id) (h : st.Proper g s b) (hg : g.isPlain = true)
    (ht : Expr.allPlain t.operands = true) :
    Expr.Alike (g.setting s b) st (t.build Expr.andThen) (.wholeSequence t.operands) ∧
      Expr.Alike (g.setting s b) st (t.build fun l r => .wholeSequence [l, r])
        (.wholeSequence t.operands) := by
  constructor
  · refine h.alike hg (t.isPlain_build Expr.isPlain_andThen ht) ht fun hC hfloor hpos hrun => ?_
    have hrow := t.build_keeps (Task.InRow.operand hC) (Task.InRow.join_andThen hC)
    exact Task.InRow.run hC hrow hfloor hpos hrun
  · have hwhole {l r : Expr α Id} (hl : l.isPlain = true) (hr : r.isPlain = true) :
        (Expr.wholeSequence [l, r]).isPlain = true := by
      simp [Expr.wholeSequence, Expr.isPlain, Expr.allPlain, hl, hr]
    refine h.alike hg (t.isPlain_build hwhole ht) ht fun hC hfloor hpos hrun => ?_
    have hrow := t.build_keeps (Task.InRow.operand hC) (Task.InRow.join_wholeSequence hC)
    exact Task.InRow.run hC hrow hfloor hpos hrun

/-- However a chain is bracketed, it comes out as the choice of its operands. -/
theorem alike_choice (t : Bracketing α Id) (h : st.Proper g s b) (hg : g.isPlain = true)
    (ht : Expr.allPlain t.operands = true) :
    Expr.Alike (g.setting s b) st (t.build Expr.orElse) (.wholeChoice t.operands) ∧
      Expr.Alike (g.setting s b) st (t.build fun l r => .wholeChoice [l, r])
        (.wholeChoice t.operands) := by
  constructor
  · refine h.alike hg (t.isPlain_build Expr.isPlain_orElse ht) ht fun hC hfloor hpos hrun => ?_
    have hchoice := t.build_keeps (Expr.InChoice.operand hC) (Expr.InChoice.join_orElse hC)
    exact .group (hchoice hfloor hpos hrun)
  · have hwhole {l r : Expr α Id} (hl : l.isPlain = true) (hr : r.isPlain = true) :
        (Expr.wholeChoice [l, r]).isPlain = true := by
      simp [Expr.wholeChoice, Expr.isPlain, Expr.allPlain, hl, hr]
    refine h.alike hg (t.isPlain_build hwhole ht) ht fun hC hfloor hpos hrun => ?_
    have hchoice := t.build_keeps (Expr.InChoice.operand hC) (Expr.InChoice.join_wholeChoice hC)
    exact .group (hchoice hfloor hpos hrun)

end State.Proper

/-! ## In a parse -/

namespace Expr

/-- What the bracketing of chains amounts to in a state. -/
structure Flattens (env : Setting α Id) (st : State Id) : Prop where
  /-- Splicing the items of sequences makes no difference. -/
  andThen_alike : ∀ {l r : Expr α Id}, l.isPlain = true → r.isPlain = true →
    Alike env st (l >> r) (wholeSequence [l, r])
  /-- Splicing the alternatives of choices makes no difference. -/
  orElse_alike : ∀ {l r : Expr α Id}, l.isPlain = true → r.isPlain = true →
    Alike env st (l <|> r) (wholeChoice [l, r])
  andThen_assoc : ∀ {l m r : Expr α Id}, l.isPlain = true → m.isPlain = true → r.isPlain = true →
    Alike env st ((l >> m) >> r) (l >> (m >> r))
  orElse_assoc : ∀ {l m r : Expr α Id}, l.isPlain = true → m.isPlain = true → r.isPlain = true →
    Alike env st ((l <|> m) <|> r) (l <|> (m <|> r))
  /-- Two bracketings of one chain come out alike, those with brackets that are spliced and those
  with brackets that stay, and as the sequence without brackets does. -/
  sequence_alike : ∀ {t t' : Bracketing α Id}, allPlain t.operands = true →
    t'.operands = t.operands →
    Alike env st (t.build (· >> ·)) (wholeSequence t.operands) ∧
      Alike env st (t.build (· >> ·)) (t'.build (· >> ·)) ∧
      Alike env st (t.build (· >> ·)) (t'.build fun l r => wholeSequence [l, r])
  /-- Two bracketings of one chain of alternatives come out alike as well. -/
  choice_alike : ∀ {t t' : Bracketing α Id}, allPlain t.operands = true →
    t'.operands = t.operands →
    Alike env st (t.build (· <|> ·)) (wholeChoice t.operands) ∧
      Alike env st (t.build (· <|> ·)) (t'.build (· <|> ·)) ∧
      Alike env st (t.build (· <|> ·)) (t'.build fun l r => wholeChoice [l, r])

end Expr

namespace Grammar

/-- In every state that arises in a parse, a chain of one operator comes out as its operands in a
row do, whichever way it is bracketed. -/
theorem chains_flatten (g : Grammar α Id) (s : Source α) (start : Expr α Id)
    (hg : g.isPlain = true) (hstart : start.isPlain = true) {b : Nat} {st : State Id}
    (hst : g.Context s start b st) : Expr.Flattens (g.setting s b) st := by
  have hproper := hst.proper hg hstart
  have hplain₂ {l r : Expr α Id} (hl : l.isPlain = true) (hr : r.isPlain = true) :
      Expr.allPlain [l, r] = true := by
    simp [Expr.allPlain, hl, hr]
  have hplain₃ {l m r : Expr α Id} (hl : l.isPlain = true) (hm : m.isPlain = true)
      (hr : r.isPlain = true) : Expr.allPlain [l, m, r] = true := by
    simp [Expr.allPlain, hl, hm, hr]
  constructor
  case andThen_alike =>
    intro l r hl hr
    exact (hproper.alike_sequence (.join (.operand l) (.operand r)) hg (hplain₂ hl hr)).1
  case orElse_alike =>
    intro l r hl hr
    exact (hproper.alike_choice (.join (.operand l) (.operand r)) hg (hplain₂ hl hr)).1
  case andThen_assoc =>
    intro l m r hl hm hr
    have hplain := hplain₃ hl hm hr
    have hleft := hproper.alike_sequence (.join (.join (.operand l) (.operand m)) (.operand r)) hg
      hplain
    have hright := hproper.alike_sequence (.join (.operand l) (.join (.operand m) (.operand r))) hg
      hplain
    exact hleft.1.trans hright.1.symm
  case orElse_assoc =>
    intro l m r hl hm hr
    have hplain := hplain₃ hl hm hr
    have hleft := hproper.alike_choice (.join (.join (.operand l) (.operand m)) (.operand r)) hg
      hplain
    have hright := hproper.alike_choice (.join (.operand l) (.join (.operand m) (.operand r))) hg
      hplain
    exact hleft.1.trans hright.1.symm
  case sequence_alike =>
    intro t t' ht heq
    have h := hproper.alike_sequence t hg ht
    have h' := hproper.alike_sequence t' hg (heq ▸ ht)
    rw [heq] at h'
    exact ⟨h.1, h.1.trans h'.1.symm, h.1.trans h'.2.symm⟩
  case choice_alike =>
    intro t t' ht heq
    have h := hproper.alike_choice t hg ht
    have h' := hproper.alike_choice t' hg (heq ▸ ht)
    rw [heq] at h'
    exact ⟨h.1, h.1.trans h'.1.symm, h.1.trans h'.2.symm⟩

/-- After the first character, the items of an exclusion are spliced into a sequence that fails at
its last item. Both the spliced and the nested form go all the way back, and both remember how far
they got. -/
theorem chains_flatten_entangled :
    let l : Expr Char Nat := .element 'x' - .element 'z'
    let start : Expr Char Nat := .sequence [.tag (.element 'y') 5, l >> .rule 0]
    entangled.isPlain = true ∧ start.isPlain = true ∧
      l >> .rule 0 = .sequence [.notAhead (.element 'z'), .element 'x', .rule 0] ∧
      ∃ (b : Nat) (st st' : State Nat), entangled.Context .entangled start b st ∧
        Expr.Flattens (entangled.setting .entangled b) st ∧
        (l >> .rule 0).parser (entangled.setting .entangled b) st = (.mismatch, st') ∧
        (Expr.wholeSequence [l, .rule 0]).parser (entangled.setting .entangled b) st =
          (.mismatch, st') ∧
        st.position = 1 ∧ st.furthest = 1 ∧ st'.position = 1 ∧ st'.furthest = 2 ∧
        st.forest = [⟨5, ⟨0, 1⟩, []⟩] ∧ st'.forest = st.forest := by
  intro l start
  have hplain : start.isPlain = true ∧ l.isPlain = true := by decide
  let before (b : Nat) : Verdict × State Nat :=
    (Expr.sequence [.tag (.element 'y') 5]).parser (entangled.setting .entangled b)
      (State.initial.note (.started 2 4))
  let result (b : Nat) : Verdict × State Nat :=
    (l >> .rule 0).parser (entangled.setting .entangled b) (before b).2
  have hbefore : (before (entangled.enough .entangled)).1 = .ok ∧
      (before (entangled.enough .entangled)).2.position = 1 ∧
      (before (entangled.enough .entangled)).2.furthest = 1 ∧
      (before (entangled.enough .entangled)).2.forest = [⟨5, ⟨0, 1⟩, []⟩] := by decide +kernel
  have hresult : (result (entangled.enough .entangled)).1 = .mismatch ∧
      (result (entangled.enough .entangled)).2.position = 1 ∧
      (result (entangled.enough .entangled)).2.furthest = 2 ∧
      (result (entangled.enough .entangled)).2.forest =
        (before (entangled.enough .entangled)).2.forest := by decide +kernel
  have hfirst : Calls entangled .entangled (entangled.firstCall .entangled start)
      (.task (entangled.enough .entangled) (.expr (l >> .rule 0))
        (before (entangled.enough .entangled)).2) := by
    have heq : before (entangled.enough .entangled) =
        (.ok, (before (entangled.enough .entangled)).2) := by rw [← hbefore.1]
    exact .item heq
  have hst : entangled.Context .entangled start (entangled.enough .entangled)
      (before (entangled.enough .entangled)).2 := .made (.single hfirst)
  -- from here on the bound is some number, so that nothing is evaluated again
  generalize entangled.enough .entangled = b at hbefore hresult hst
  obtain ⟨-, hposition, hfurthest, hforest⟩ := hbefore
  obtain ⟨hmismatch, hback, hreach, hkept⟩ := hresult
  have hflattens := chains_flatten entangled .entangled start (by decide) hplain.1 hst
  have heq : result b = (.mismatch, (result b).2) := by rw [← hmismatch]
  have halike := hflattens.andThen_alike (r := .rule 0) hplain.2 rfl
  exact ⟨by decide, hplain.1, rfl, b, (before b).2, (result b).2, hst, hflattens, heq,
    halike.symm.trans heq, hposition, hfurthest, hback, hreach, hforest, hkept⟩

end Grammar

end Peg
