import Mathlib.Tactic.Ring
import Peg.Grammar.Parse
import Peg.Proofs.Adequacy
import Peg.Proofs.Stack
import Peg.Proofs.Total

/-!
# Giving rules their meaning

How a rule is invoked, given what its body does, is a *policy*. The engine has one, with signals,
seeds and growth; a reference interpreter may have another. Whatever the policy, a grammar ties the
knot in the same way: `Grammar.Derives` says what a rule does at a place if the rules below it are
nested at most so deep, and `Grammar.callBy` is the parser that goes with it.

A policy is *lawful* if it keeps to the laws of runs whenever the body does, and comes out somehow
whenever the body does; it is *realized* by a function on parsers that does what the policy says.
The theorems of this module carry these properties from one invocation to whole grammars:

* `Grammar.regular`: every rule conforms at every stack of frames;
* `Grammar.runnable`: every rule comes out somehow, because a nesting of rules is never deeper than
  the number of rules and positions together;
* `Grammar.exists_done`: every plain task has a run, and its parser carries that run out under every
  bound above what the nesting and the loops need. So no bound is ever used up, and a larger bound
  changes nothing.
-/

namespace Peg

variable {α Id : Type}

/-- What the body of a rule does at the position at which the rule was entered, for each mode of its
frame. -/
abbrev Body (Id : Type) := Mode Id → Verdict → Effect Id → Prop

/-- What a rule does at a position, depending on the size of the source, its number and name, its
body, and the answer of its frame if it is being parsed at that position. -/
abbrev Policy (Id : Type) :=
  (size rule : Nat) → (name : String) → (pos : Nat) → Body Id → Option (Mode Id) →
    Verdict → Effect Id → Prop

namespace Body

/-- The body keeps to the laws of runs in every mode that fits. -/
def Lawful (s : Source α) (i pos : Nat) (fs : List (Frame Id)) (B : Body Id) : Prop :=
  ∀ m v a, m.Fits s pos → B m v a →
    Conforms s (Frame.Signals (⟨i, pos, m⟩ :: fs)) (.expr (.rule i) : Task α Id) pos v a

/-- The body comes out somehow in every mode that fits. -/
def Total (s : Source α) (pos : Nat) (B : Body Id) : Prop :=
  ∀ m : Mode Id, m.Fits s pos → ∃ v a, B m v a

/-- A parser does what the body does in every mode that fits. -/
def DoneBy (s : Source α) (i pos : Nat) (fs : List (Frame Id)) (p : Parser Id) (B : Body Id) :
    Prop :=
  ∀ m v a, m.Fits s pos → B m v a → p.Does (⟨i, pos, m⟩ :: fs) pos v a

end Body

/-- A policy keeps to the laws of runs, and comes out somehow, whenever the body does. Where the
rule is being parsed already, the body is not asked. -/
structure Policy.Lawful (s : Source α) (P : Policy Id) : Prop where
  conforms : ∀ {n i pos name B fs v a}, s.Boundary pos → Stack s n pos fs →
    (Frame.answer? fs i pos = none → B.Lawful s i pos fs) →
    P s.size i name pos B (Frame.answer? fs i pos) v a →
    Conforms s (Frame.Signals fs) (.expr (.rule i) : Task α Id) pos v a
  total : ∀ {n i pos B fs} (name : String), s.Boundary pos → Stack s n pos fs →
    (Frame.answer? fs i pos = none → B.Lawful s i pos fs ∧ B.Total s pos) →
    ∃ v a, P s.size i name pos B (Frame.answer? fs i pos) v a

/-- A function on parsers that carries out what a policy says. -/
def Policy.RealizedBy (s : Source α) (P : Policy Id)
    (inv : Source α → Nat → Nat → String → Parser Id → Parser Id) : Prop :=
  ∀ {n i pos name B fs v a p bound}, s.Boundary pos → Stack s n pos fs → s.size < bound →
    (Frame.answer? fs i pos = none → B.Lawful s i pos fs ∧ B.DoneBy s i pos fs p) →
    P s.size i name pos B (Frame.answer? fs i pos) v a →
    (inv s bound i name p).Does fs pos v a

/-- Where nothing could signal, a run matches or does not match. -/
theorem Conforms.matches_or_not {s : Source α} {L : Nat → Nat → Prop} {t : Task α Id} {pos : Nat}
    {v : Verdict} {a : Effect Id} (hL : ∀ q, ¬ L q pos) (h : Conforms s L t pos v a) :
    v = .ok ∨ v = .mismatch := by
  cases v with
  | ok => exact Or.inl rfl
  | mismatch => exact Or.inr rfl
  | leftRecursion q => exact absurd (h.signal q rfl) (hL q)
  | fault => cases h.answer
  | exhausted => cases h.answer

/-- Outside of all rules there is nothing that could signal. -/
theorem Conforms.ok_or_mismatch {s : Source α} {t : Task α Id} {pos : Nat} {v : Verdict}
    {a : Effect Id} (h : Conforms s (Frame.Signals ([] : List (Frame Id))) t pos v a) :
    v = .ok ∨ v = .mismatch :=
  h.matches_or_not nofun

namespace Grammar

/-- What a rule does under a stack of frames, in a nesting of rules of at most the given depth. -/
def Derives (P : Policy Id) (g : Grammar α Id) (s : Source α) :
    Nat → List (Frame Id) → Nat → Nat → Verdict → Effect Id → Prop
  | 0 => fun _ _ _ _ _ => False
  | depth + 1 => fun fs i pos v a =>
    match g.body? i with
    | none => v = .mismatch ∧ a = .jump pos
    | some e =>
      P s.size i (g.name i) pos
        (fun m => Runs s (Derives P g s depth (⟨i, pos, m⟩ :: fs)) (.expr e) pos)
        (Frame.answer? fs i pos) v a

/-- The parsers of the rules under a bound, when rules are invoked in the given way. -/
def callBy (inv : Source α → Nat → Nat → String → Parser Id → Parser Id) (g : Grammar α Id)
    (s : Source α) : Nat → Nat → Parser Id
  | 0 => fun _ => Parser.exhausted
  | bound + 1 => fun index =>
    match g.body? index with
    | none => Parser.mismatch
    | some body =>
      inv s bound index (g.name index) (body.parser ⟨s, g.size, bound, callBy inv g s bound⟩)

/-- The setting in which expressions are parsed, when rules are invoked in the given way. -/
def settingBy (inv : Source α → Nat → Nat → String → Parser Id → Parser Id) (g : Grammar α Id)
    (s : Source α) (bound : Nat) : Setting α Id :=
  ⟨s, g.size, bound, g.callBy inv s bound⟩

/-- How deep rules can still be nested below a stack of frames. -/
def depth (g : Grammar α Id) (s : Source α) (fs : List (Frame Id)) : Nat :=
  g.size * (s.size + 1) + 1 - fs.length

/-- A call of a rule is the call with the protocol of the grammar. -/
theorem call_eq_callBy (g : Grammar α Id) (s : Source α) (bound : Nat) :
    g.call s bound = g.callBy Parser.invoke s bound := by
  induction bound with
  | zero => rfl
  | succ bound ih =>
    funext index
    cases hbody : g.body? index with
    | none => simp only [call, callBy, hbody]
    | some e => simp only [call, callBy, hbody, ih]

/-- The setting of a parse is the one with the protocol of the grammar. -/
theorem setting_eq_settingBy (g : Grammar α Id) (s : Source α) (bound : Nat) :
    g.setting s bound = g.settingBy Parser.invoke s bound := by
  rw [setting, settingBy, call_eq_callBy]

section knot

variable {P : Policy Id} {g : Grammar α Id} {s : Source α}

/-- Every rule keeps to the laws of runs at every stack of frames. -/
theorem regular (hP : P.Lawful s) (d : Nat) {fs : List (Frame Id)} {floor : Nat}
    (hfs : Stack s g.size floor fs) :
    Regular s (Frame.Signals fs) floor (g.Derives P s d fs) := by
  induction d generalizing fs floor with
  | zero => exact ⟨nofun, fun _ _ => hfs.signals_le⟩
  | succ d ih =>
    refine ⟨fun i p v a hfloor hp h => ?_, fun _ _ => hfs.signals_le⟩
    cases hbody : g.body? i with
    | none =>
      simp only [Derives, hbody] at h
      obtain ⟨rfl, rfl⟩ := h
      exact ⟨.jump hp, rfl, fun _ _ => Effect.silent_jump p, nofun⟩
    | some e =>
      simp only [Derives, hbody] at h
      refine hP.conforms hp (hfs.raise hfloor) (fun hnone m w b hm hrun => ?_) h
      have hpush := hfs.push hfloor (lt_size_of_body? hbody) hnone hm
      exact { hrun.conforms (ih hpush) (Nat.le_refl p) hp with }

/-- The body of a rule that is not being parsed at a place is lawful there, whatever mode the rule
is in. -/
theorem body_lawful (hP : P.Lawful s) (d : Nat) {fs : List (Frame Id)} {floor i p : Nat}
    {e : Expr α Id} (hfs : Stack s g.size floor fs) (hfloor : floor ≤ p) (hp : s.Boundary p)
    (hbody : g.body? i = some e) (hnone : Frame.answer? fs i p = none) :
    Body.Lawful s i p fs fun m => Runs s (g.Derives P s d (⟨i, p, m⟩ :: fs)) (.expr e) p := by
  intro m v a hm hrun
  have hpush := hfs.push hfloor (lt_size_of_body? hbody) hnone hm
  exact { hrun.conforms (regular hP d hpush) (Nat.le_refl p) hp with }

/-- Every rule comes out somehow, if the nesting may be as deep as there are rules and positions
left. -/
theorem runnable (hP : P.Lawful s) (hg : g.isPlain = true) (d : Nat) {fs : List (Frame Id)}
    {floor : Nat} (hfs : Stack s g.size floor fs) (hfloor : floor ≤ s.size)
    (hd : g.size * (s.size + 1) < d + fs.length) (i : Nat) :
    (Task.expr (.rule i) : Task α Id).Runnable s (g.Derives P s d fs) floor := by
  induction d generalizing fs floor i with
  | zero =>
    -- there is no room left on the stack, so this does not happen
    have hlen := hfs.length_le
    have : g.size * (floor + 1) ≤ g.size * (s.size + 1) := Nat.mul_le_mul_left _ (by omega)
    omega
  | succ d ih =>
    intro p hp hbp
    cases hbody : g.body? i with
    | none => exact ⟨.mismatch, .jump p, .rule (by simp [Derives, hbody])⟩
    | some e =>
      have htotal : Frame.answer? fs i p = none →
          Body.Total s p fun m => Runs s (g.Derives P s d (⟨i, p, m⟩ :: fs)) (.expr e) p := by
        intro hnone m hm
        have hpush := hfs.push hp (lt_size_of_body? hbody) hnone hm
        have hdeeper : g.size * (s.size + 1) < d + (⟨i, p, m⟩ :: fs : List (Frame Id)).length := by
          simp only [List.length_cons]
          omega
        exact Expr.runnable_of_isPlain (regular hP d hpush) (ih hpush hbp.le_size hdeeper) e
          (isPlain_body hg hbody) p (Nat.le_refl p) hbp
      obtain ⟨v, a, h⟩ := hP.total (g.name i) hbp (hfs.raise hp) fun hnone =>
        ⟨body_lawful hP d hfs hp hbp hbody hnone, htotal hnone⟩
      exact ⟨v, a, .rule (by simpa only [Derives, hbody] using h)⟩

/-- The parser of a rule does what is derivable for the rule. -/
theorem callBy_does {inv : Source α → Nat → Nat → String → Parser Id → Parser Id}
    (hP : P.Lawful s) (hinv : P.RealizedBy s inv) (d : Nat) {bound : Nat}
    (hbound : d + s.size < bound) {fs : List (Frame Id)} {floor : Nat}
    (hfs : Stack s g.size floor fs) {i p : Nat} {v : Verdict} {a : Effect Id} (hfloor : floor ≤ p)
    (hp : s.Boundary p) (h : g.Derives P s d fs i p v a) :
    (g.callBy inv s bound i).Does fs p v a := by
  induction d generalizing bound fs floor i p v a with
  | zero => exact h.elim
  | succ d ih =>
    obtain ⟨bound, rfl⟩ : ∃ n, bound = n + 1 := ⟨bound - 1, by omega⟩
    cases hbody : g.body? i with
    | none =>
      simp only [Derives, hbody] at h
      obtain ⟨rfl, rfl⟩ := h
      simp only [callBy, hbody]
      exact Parser.does_mismatch
    | some e =>
      simp only [Derives, hbody] at h
      simp only [callBy, hbody]
      have hdone : Frame.answer? fs i p = none →
          Body.DoneBy s i p fs (e.parser (g.settingBy inv s bound)) fun m =>
            Runs s (g.Derives P s d (⟨i, p, m⟩ :: fs)) (.expr e) p := by
        intro hnone m w b hm hrun
        have hpush := hfs.push hfloor (lt_size_of_body? hbody) hnone hm
        have hloops : (g.settingBy inv s bound).source.size < bound :=
          show s.size < bound by omega
        refine Runs.does (regular hP d hpush) (fun j q w' b' hq hbq hj => ?_) hloops hrun
          (Nat.le_refl p) hp
        exact ih (by omega) hpush hq hbq hj
      exact hinv hp (hfs.raise hfloor) (by omega)
        (fun hnone => ⟨body_lawful hP d hfs hfloor hp hbody hnone, hdone hnone⟩) h

/-- A nesting of rules, with room for the rounds of a loop in the innermost one, stays below the
bound of the grammar. -/
theorem depth_add_size_lt {floor : Nat} {fs : List (Frame Id)} (hfs : Stack s g.size floor fs)
    (hfloor : floor ≤ s.size) {bound : Nat} (hbound : g.need s ≤ bound + fs.length) :
    g.depth s fs + s.size < bound := by
  have hlen := hfs.length_le
  have hmul : g.size * (floor + 1) ≤ g.size * (s.size + 1) := Nat.mul_le_mul_left _ (by omega)
  have hneed : g.need s = g.size * (s.size + 1) + g.size + s.size + 2 := by
    rw [need]
    ring
  rw [depth]
  omega

/-- The parser of a task does what is derivable for it, under every bound that leaves room for the
nesting of rules and the rounds of loops. -/
theorem runs_done {inv : Source α → Nat → Nat → String → Parser Id → Parser Id} (hP : P.Lawful s)
    (hinv : P.RealizedBy s inv) {d bound : Nat} (hbound : d + s.size < bound)
    {fs : List (Frame Id)} {t : Task α Id} {pos : Nat} {v : Verdict} {a : Effect Id}
    (hfs : Stack s g.size pos fs) (hpos : s.Boundary pos)
    (h : Runs s (g.Derives P s d fs) t pos v a) : t.Done (g.settingBy inv s bound) fs pos v a := by
  have hloops : (g.settingBy inv s bound).source.size < bound := show s.size < bound by omega
  refine h.does (regular hP d hfs) (fun i p w b hp hbp hi => ?_) hloops (Nat.le_refl pos) hpos
  exact callBy_does hP hinv d hbound hfs hp hbp hi

/-- An expression comes out in one way only. -/
theorem runs_unique {inv : Source α → Nat → Nat → String → Parser Id → Parser Id}
    (hP : P.Lawful s) (hinv : P.RealizedBy s inv) {d : Nat} {fs : List (Frame Id)} {e : Expr α Id}
    {pos : Nat} {v w : Verdict} {a b : Effect Id} (hfs : Stack s g.size pos fs)
    (hpos : s.Boundary pos) (h : Runs s (g.Derives P s d fs) (.expr e) pos v a)
    (h' : Runs s (g.Derives P s d fs) (.expr e) pos w b) : v = w ∧ a = b := by
  have hC := regular hP d hfs
  have hdone := runs_done hP hinv (Nat.lt_succ_self (d + s.size)) hfs hpos h
  have hdone' := runs_done hP hinv (Nat.lt_succ_self (d + s.size)) hfs hpos h'
  exact Parser.Does.unique hdone hdone' (h.conforms hC (Nat.le_refl pos) hpos).le_reach
    (h'.conforms hC (Nat.le_refl pos) hpos).le_reach

/-- Every plain task has a run, if the nesting may be as deep as there are rules and positions
left. -/
theorem exists_runs (hP : P.Lawful s) (hg : g.isPlain = true) {t : Task α Id}
    (ht : t.isPlain = true) {d : Nat} {fs : List (Frame Id)} {pos : Nat}
    (hfs : Stack s g.size pos fs) (hd : g.size * (s.size + 1) < d + fs.length)
    (hpos : s.Boundary pos) : ∃ v a, Runs s (g.Derives P s d fs) t pos v a :=
  Task.runnable_of_isPlain (regular hP d hfs) (runnable hP hg d hfs hpos.le_size hd) t ht pos
    (Nat.le_refl pos) hpos

/-- Every plain task has a run, and its parser carries it out under every bound that leaves room for
the rules that can still be nested. -/
theorem exists_done {inv : Source α → Nat → Nat → String → Parser Id → Parser Id}
    (hP : P.Lawful s) (hinv : P.RealizedBy s inv) (hg : g.isPlain = true) {t : Task α Id}
    (ht : t.isPlain = true) {fs : List (Frame Id)} {pos : Nat} (hfs : Stack s g.size pos fs)
    (hpos : s.Boundary pos) :
    ∃ v a, Runs s (g.Derives P s (g.depth s fs) fs) t pos v a ∧
      Conforms s (Frame.Signals fs) t pos v a ∧
      ∀ bound, g.need s ≤ bound + fs.length → t.Done (g.settingBy inv s bound) fs pos v a := by
  have hdeep : g.size * (s.size + 1) < g.depth s fs + fs.length := by
    rw [depth]
    omega
  obtain ⟨v, a, h⟩ := exists_runs hP hg ht hfs hdeep hpos
  refine ⟨v, a, h, h.conforms (regular hP _ hfs) (Nat.le_refl pos) hpos, fun bound hbound => ?_⟩
  exact runs_done hP hinv (depth_add_size_lt hfs hpos.le_size hbound) hfs hpos h

end knot

end Grammar

end Peg
