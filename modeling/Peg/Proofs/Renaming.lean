import Mathlib.Data.Finset.Card
import Mathlib.Data.Finset.Lattice.Fold
import Peg.Proofs.Characters

/-!
# Other names for rules and tags

The numbers of the rules and the tags are names. An expression can be given other ones
(`Expr.rename`), and the parse of a renamed expression is the parse read with the other names: the
translation that changes nothing else (`Translation.named`) relates the two
(`Expr.translates_rename`), so their outcomes are related too (`Grammar.parseLogged_named`).

For rule numbers this is `Grammar.parse_renumbered`: the rules of a grammar may stand at other
places in a larger grammar, in any order and among any other rules, and every parse has the same
outcome. Outcomes do not mention rules, so there nothing at all is read differently. The rules that
are added are never called, and nothing is asked of them but that they are defined. For tags the
outcome is read with the other tags; that is used in `Peg.Proofs.Untagged`.
-/

namespace Peg

variable {α β Id Id' : Type}

/-! ## Renaming expressions -/

mutual

/-- The expression with other rules and other tags in the places of its own. -/
def Expr.rename (rule : Nat → Nat) (tag : Id → Id') : Expr α Id → Expr α Id'
  | .satisfy test => .satisfy test
  | .literal tests => .literal tests
  | .endOfInput => .endOfInput
  | .rule index => .rule (rule index)
  | .sequence items => .sequence (Expr.renameAll rule tag items)
  | .choice items => .choice (Expr.renameAll rule tag items)
  | .group e => .group (e.rename rule tag)
  | .star e => .star (e.rename rule tag)
  | .plus e => .plus (e.rename rule tag)
  | .optional e => .optional (e.rename rule tag)
  | .ahead e => .ahead (e.rename rule tag)
  | .notAhead e => .notAhead (e.rename rule tag)
  | .times e n => .times (e.rename rule tag) n
  | .tag e id => .tag (e.rename rule tag) (tag id)
  | .recover e id fallback => .recover (e.rename rule tag) (tag id) (fallback.rename rule tag)
  | .skipBefore token => .skipBefore (token.rename rule tag)
  | .skipPast token => .skipPast (token.rename rule tag)
  | .script body => .script (Action.renameAll rule tag body)
termination_by structural e => e

/-- The expressions of a list with other rules and other tags. -/
def Expr.renameAll (rule : Nat → Nat) (tag : Id → Id') : List (Expr α Id) → List (Expr α Id')
  | [] => []
  | e :: rest => e.rename rule tag :: Expr.renameAll rule tag rest
termination_by structural items => items

/-- The action with other rules and other tags in the places of its own. -/
def Action.rename (rule : Nat → Nat) (tag : Id → Id') : Action α Id → Action α Id'
  | .advance n => .advance n
  | .read => .read
  | .peek => .peek
  | .peekNth n => .peekNth n
  | .setPosition p => .setPosition p
  | .save => .save
  | .restore k => .restore k
  | .addMatch id span childCount => .addMatch (tag id) span childCount
  | .addError id position skipped => .addError (tag id) position skipped
  | .atEnd => .atEnd
  | .hasInput => .hasInput
  | .size => .size
  | .ruleCount => .ruleCount
  | .remaining => .remaining
  | .display => .display
  | .forest => .forest
  | .errors => .errors
  | .parse e => .parse (e.rename rule tag)
  | .expect test => .expect test
  | .fail => .fail
  | .signal index => .signal (rule index)
  | .attempt body => .attempt (Action.renameAll rule tag body)
  | .lookahead body => .lookahead (Action.renameAll rule tag body)
termination_by structural action => action

/-- The actions of a list with other rules and other tags. -/
def Action.renameAll (rule : Nat → Nat) (tag : Id → Id') : List (Action α Id) → List (Action α Id')
  | [] => []
  | action :: rest => action.rename rule tag :: Action.renameAll rule tag rest
termination_by structural body => body

end

/-- Reading rules and tags differently, and nothing else. -/
def Renaming.named (rule : Nat ↪ Nat) (tag : Id → Id') : Renaming Id Id' where
  position := OrderHom.id
  tag := tag
  rule := rule

/-- Reading rules and tags differently, and nothing else. -/
def Translation.named (rule : Nat ↪ Nat) (tag : Id → Id') : Translation α α Id Id' where
  toRenaming := .named rule tag
  element a := a

section rename

variable {rule : Nat → Nat} {tag : Id → Id'} {P : Nat → Prop}

/-- A list is renamed expression by expression. -/
theorem Expr.renameAll_eq_map (items : List (Expr α Id)) :
    Expr.renameAll rule tag items = items.map (Expr.rename rule tag) := by
  induction items with
  | nil => rfl
  | cons e rest ih => simp [Expr.renameAll, ih]

/-- A plain expression that refers to rules of a set is read as the renamed one, if elements are
read as themselves and the rules of the set and the tags by their new names. -/
theorem Expr.translates_rename {τ : Translation α α Id Id'} (helement : τ.element = id)
    (hrule : ∀ i, P i → τ.rule i = rule i) (e : Expr α Id) (he : e.isPlain = true)
    (hrefs : ∀ i ∈ e.references, P i) : e.Translates τ P (e.rename rule τ.tag) := by
  have hitems : ∀ items : List (Expr α Id),
      (∀ x ∈ items, x.Translates τ P (x.rename rule τ.tag)) →
      List.Forall₂ (Expr.Translates τ P) items (Expr.renameAll rule τ.tag items) := by
    intro items hall
    rw [Expr.renameAll_eq_map, List.forall₂_map_right_iff, List.forall₂_same]
    exact hall
  induction e, he using Expr.plain_induction with
  | satisfy test =>
    have hread : (Expr.satisfy test : Expr α Id).Translates τ P _ := .satisfy test
    rwa [helement] at hread
  | literal tests =>
    have hread : (Expr.literal tests : Expr α Id).Translates τ P _ := .literal tests
    have hself : tests.map (· ∘ τ.element) = tests := by
      rw [helement]
      exact List.map_id tests
    rwa [hself] at hread
  | endOfInput => exact .endOfInput
  | rule i =>
    have hi := hrefs i List.mem_cons_self
    have hread : (Expr.rule i : Expr α Id).Translates τ P _ := .rule hi
    rwa [hrule i hi] at hread
  | sequence es hes ih =>
    refine .sequence (hitems es fun x hx => ?_)
    exact ih x hx ((Expr.allPlain_iff es).1 hes x hx) fun i hi => hrefs i (references_subset hx hi)
  | choice es hes ih =>
    refine .choice (hitems es fun x hx => ?_)
    exact ih x hx ((Expr.allPlain_iff es).1 hes x hx) fun i hi => hrefs i (references_subset hx hi)
  | group e _ ih => exact .group (ih hrefs)
  | star e _ ih => exact .star (ih hrefs)
  | plus e _ ih => exact .plus (ih hrefs)
  | optional e _ ih => exact .optional (ih hrefs)
  | ahead e _ ih => exact .ahead (ih hrefs)
  | notAhead e _ ih => exact .notAhead (ih hrefs)
  | times e n _ ih => exact .times n (ih hrefs)
  | tag e id _ ih => exact .tag id (ih hrefs)
  | recover e id f _ _ _ ihe ihf =>
    exact .recover id (ihe fun i hi => hrefs i (List.mem_append_left _ hi))
      (ihf fun i hi => hrefs i (List.mem_append_right _ hi))
  | skipBefore e _ ih => exact .skipBefore (ih hrefs)
  | skipPast e _ ih => exact .skipPast (ih hrefs)

end rename

/-! ## Renaming parses -/

/-- A source lies in itself when only rules and tags get other names. -/
theorem Translation.embeds_named (rule : Nat ↪ Nat) (tag : Id → Id') (s : Source α) :
    (Translation.named rule tag : Translation α α Id Id').Embeds s s where
  lt_of_lt := by
    intro p q _ _ hlt
    exact hlt
  size_eq := rfl
  some_element := by
    intro p w a _ hat
    exact ⟨a, w, hat, rfl, rfl⟩
  no_element := by
    intro p _ hat
    exact hat

namespace Renaming

/-- An outcome does not mention rules. -/
theorem outcome_named (rule : Nat ↪ Nat) (o : Outcome Id) :
    (named rule id : Renaming Id Id).outcome o = o := by
  have htrees : (named rule id : Renaming Id Id).trees o.forest = o.forest :=
    trees_eq_self (fun _ => rfl) (fun _ => rfl) _
  have herrors : o.errors.map (named rule id : Renaming Id Id).error = o.errors :=
    List.map_id o.errors
  simp only [outcome, htrees, herrors]
  rfl

end Renaming

namespace Grammar

/-- The rules of a grammar that is accepted are defined. -/
theorem exists_body_of_validate {g : Grammar α Id} (hvalid : g.validate = .ok ()) {i : Nat}
    (hi : i < g.size) : ∃ e, g.body? i = some e := by
  have hlt : i < g.rules.length := hi
  have hdefined : g.rules[i].body.isSome = true := by
    unfold validate at hvalid
    cases hfind : g.rules.find? (·.body.isNone) with
    | some rule => simp [hfind] at hvalid
    | none =>
      have hsome := List.find?_eq_none.1 hfind _ (List.getElem_mem hi)
      rwa [Bool.not_eq_true, ← Option.not_isSome, Bool.not_eq_eq_eq_not, Bool.not_false] at hsome
  obtain ⟨e, he⟩ := Option.isSome_iff_exists.1 hdefined
  exact ⟨e, by rw [body?, List.getElem?_eq_getElem hlt, Option.bind_some, he]⟩

/-- A run in a nesting that is not too deep for the bound decides the outcome, whatever the other
rules of the grammar are. -/
theorem parseLogged_of_runs {g : Grammar α Id} {s : Source α} {start : Expr α Id} {d : Nat}
    {v : Verdict} {a : Effect Id} (hvalid : g.validate = .ok ()) (hd : d + s.size < g.enough s)
    (hv : v = .ok ∨ v = .mismatch)
    (hrun : Runs s (g.Derives Invokes s d []) (.expr start) 0 v a) (toEnd : Bool) :
    (g.parseLogged s start toEnd).1 = .ok (a.outcome s v toEnd) := by
  have hdone := runs_done (invokes_lawful s) (invokes_realizedBy s) hd (.nil s g.size 0)
    s.boundary_zero hrun
  rw [← setting_eq_settingBy] at hdone
  exact parseLogged_of_run hvalid hv (hdone _ (State.initial_at.note _)) toEnd

/-- A nesting of the rules of a grammar stays below the bound of every grammar with as many
rules. -/
theorem depth_add_size_lt_enough {g : Grammar α Id} {g' : Grammar α Id'} (hsize : g.size ≤ g'.size)
    (s : Source α) : g.depth s ([] : List (Frame Id)) + s.size < g'.enough s := by
  have hroom : g'.depth s ([] : List (Frame Id')) + s.size < g'.need s :=
    depth_add_size_lt (.nil s g'.size 0) (Nat.zero_le s.size) (Nat.le_refl _)
  have hdepth : g.depth s ([] : List (Frame Id)) ≤ g'.depth s ([] : List (Frame Id')) :=
    Nat.add_le_add_right (Nat.mul_le_mul_right _ hsize) 1
  have hneed := g'.need_le_enough s
  omega

/-- Where the rules of a grammar stand in a grammar that is no smaller, with other numbers and other
tags, a parse has the outcome that is read with these. -/
theorem parseLogged_named {names : Nat ↪ Nat} {tag : Id → Id'} {P : Nat → Prop}
    {g : Grammar α Id} {g' : Grammar α Id'} {start : Expr α Id} {start' : Expr α Id'}
    (hbodies : ∀ i, P i → Option.Rel (Expr.Translates (.named names tag) P) (g.body? i)
      (g'.body? (names i)))
    (hstarts : start.Translates (.named names tag) P start') (hsize : g.size ≤ g'.size)
    (hg : g.isPlain = true) (hstart : start.isPlain = true) (hvalid : g.validate = .ok ())
    (hvalid' : g'.validate = .ok ()) (s : Source α) (toEnd : Bool) :
    ∃ o, (g.parseLogged s start toEnd).1 = .ok o ∧
      (g'.parseLogged s start' toEnd).1 = .ok ((Renaming.named names tag).outcome o) := by
  have hτ := Translation.embeds_named (α := α) names tag s
  obtain ⟨v, a, hv, hrun, hconf, hout⟩ := exists_outcome hg hstart hvalid s
  have hagree : (Translation.named names tag : Translation α α Id Id').Agrees P s 0 [] [] :=
    fun _ _ _ _ _ => rfl
  obtain ⟨a', hrun', hrenamed⟩ := runs_translate hτ hbodies (.nil s g.size 0) hagree
    (.expr hstarts) s.boundary_zero hrun
  have hv' : (Renaming.named names tag).verdict v = .ok ∨
      (Renaming.named names tag).verdict v = .mismatch := by simpa using hv
  have hout' := parseLogged_of_runs hvalid' (depth_add_size_lt_enough hsize s) hv' hrun' toEnd
  have hread : a'.outcome s ((Renaming.named names tag).verdict v) toEnd =
      (Renaming.named names tag).outcome (a.outcome s v toEnd) :=
    hrenamed.outcome_eq hτ hconf.boundary v toEnd
  rw [hread] at hout'
  exact ⟨_, hout toEnd, hout'⟩

/-! ## Other places for the rules -/

/-- New numbers for the first `n` rules can be completed to new numbers for all rules. -/
theorem exists_names {n : Nat} {ρ : Nat → Nat} (hinj : Set.InjOn ρ (Set.Iio n)) :
    ∃ names : Nat ↪ Nat, ∀ i < n, names i = ρ i := by
  -- all other rules move beyond the numbers that are given away
  obtain ⟨top, htop⟩ : ∃ top, ∀ i < n, ρ i < top :=
    ⟨(Finset.range n).sup ρ + 1, fun i hi =>
      Nat.lt_succ_of_le (Finset.le_sup (f := ρ) (Finset.mem_range.2 hi))⟩
  refine ⟨⟨fun i => if i < n then ρ i else top + i, fun i j hij => ?_⟩, fun i hi => if_pos hi⟩
  by_cases hi : i < n
  · by_cases hj : j < n
    · simp only [if_pos hi, if_pos hj] at hij
      exact hinj hi hj hij
    · simp only [if_pos hi, if_neg hj] at hij
      have := htop i hi
      omega
  · by_cases hj : j < n
    · simp only [if_neg hi, if_pos hj] at hij
      have := htop j hj
      omega
    · simp only [if_neg hi, if_neg hj] at hij
      omega

/-- Rules with different numbers are as many as their numbers. -/
theorem size_le_of_injOn {g : Grammar α Id} {g' : Grammar α Id'} {ρ : Nat → Nat}
    (hinj : Set.InjOn ρ (Set.Iio g.size)) (hlt : ∀ i < g.size, ρ i < g'.size) :
    g.size ≤ g'.size := by
  have hcard := Finset.card_le_card_of_injOn (s := Finset.range g.size)
    (t := Finset.range g'.size) ρ
    (fun i hi => by simpa using hlt i (by simpa using hi))
    (fun i hi j hj hij => hinj (by simpa using hi) (by simpa using hj) hij)
  simpa only [Finset.card_range] using hcard

/-- The rules of a grammar may stand at other places in another grammar, in any order and among any
other rules: if references are changed accordingly, every parse has the same outcome. -/
theorem parse_renumbered (g g' : Grammar α Id) (ρ : Nat → Nat) (hg : g.isPlain = true)
    (hvalid : g.validate = .ok ()) (hvalid' : g'.validate = .ok ())
    (hclosed : g.Closed (· < g.size)) (hinj : Set.InjOn ρ (Set.Iio g.size))
    (hbodies : ∀ i < g.size, g'.body? (ρ i) = (g.body? i).map (Expr.rename ρ id))
    (start : Expr α Id) (hstart : start.isPlain = true)
    (hrefs : ∀ i ∈ start.references, i < g.size) (s : Source α) (toEnd : Bool) :
    ∃ o, (g.parseLogged s start toEnd).1 = .ok o ∧
      (g'.parseLogged s (start.rename ρ id) toEnd).1 = .ok o := by
  obtain ⟨names, hnames⟩ := exists_names hinj
  have hbody : ∀ i < g.size,
      ∃ e, g.body? i = some e ∧ g'.body? (names i) = some (e.rename ρ id) := by
    intro i hi
    obtain ⟨e, he⟩ := exists_body_of_validate hvalid hi
    exact ⟨e, he, by rw [hnames i hi, hbodies i hi, he, Option.map_some]⟩
  have htranslated : ∀ e : Expr α Id, e.isPlain = true → (∀ i ∈ e.references, i < g.size) →
      e.Translates (.named names id) (· < g.size) (e.rename ρ id) := fun e he hlt =>
    Expr.translates_rename (τ := .named names id) rfl hnames e he hlt
  have hsize : g.size ≤ g'.size := by
    refine size_le_of_injOn hinj fun i hi => ?_
    obtain ⟨e, -, he⟩ := hbody i hi
    rw [← hnames i hi]
    exact lt_size_of_body? he
  have hbodies' : ∀ i, i < g.size →
      Option.Rel (Expr.Translates (.named names id) (· < g.size)) (g.body? i)
        (g'.body? (names i)) := by
    intro i hi
    obtain ⟨e, he, he'⟩ := hbody i hi
    rw [he, he']
    exact .some (htranslated e (isPlain_body hg he) (hclosed i e hi he))
  obtain ⟨o, ho, ho'⟩ := parseLogged_named hbodies' (htranslated start hstart hrefs) hsize hg hstart
    hvalid hvalid' s toEnd
  rw [Renaming.outcome_named] at ho'
  exact ⟨o, ho, ho'⟩

/-- The rules of `entangled` in the other order, with another rule between them that puts the cursor
back: `a` is number 2 and `b` is number 0. -/
def shuffled : Grammar Char Nat where
  rules :=
    [⟨"b", some (.choice [.tag (.sequence [.rule 2, .element 'z']) 1, .rule 2])⟩,
      ⟨"c", some (.script [.setPosition 0, .parse (.rule 2)])⟩,
      ⟨"a", some (.choice [.tag (.sequence [.rule 0, .element 'x']) 0, .element 'y'])⟩]

/-- Both rules grow at once, and the text is matched alike. -/
theorem parse_renumbered_shuffled :
    let ρ : Nat → Nat := fun i => 2 - 2 * i
    entangled.isPlain = true ∧ entangled.validate = .ok () ∧ shuffled.validate = .ok () ∧
      entangled.Closed (· < entangled.size) ∧ Set.InjOn ρ (Set.Iio entangled.size) ∧
      (∀ i < entangled.size,
        shuffled.body? (ρ i) = (entangled.body? i).map (Expr.rename ρ id)) ∧
      ∃ o, (entangled.parseLogged .entangled (.rule 0) true).1 = .ok o ∧
        (shuffled.parseLogged .entangled (.rule 2) true).1 = .ok o ∧ o.success = true ∧
        Match.countAll o.forest = 3 := by
  intro ρ
  have hclosed : entangled.Closed (· < entangled.size) := by
    intro i e hi hbody j hj
    rcases (show i = 0 ∨ i = 1 by have : i < 2 := hi; omega) with rfl | rfl
    all_goals
      cases hbody
      revert j
      decide
  have hinj : Set.InjOn ρ (Set.Iio entangled.size) := by
    intro i hi j hj hij
    have hi' : i < 2 := hi
    have hj' : j < 2 := hj
    simp only [ρ] at hij
    omega
  have hbodies : ∀ i < entangled.size,
      shuffled.body? (ρ i) = (entangled.body? i).map (Expr.rename ρ id) := by
    intro i hi
    rcases (show i = 0 ∨ i = 1 by have : i < 2 := hi; omega) with rfl | rfl
    · rfl
    · rfl
  obtain ⟨o, ho, ho'⟩ := parse_renumbered entangled shuffled ρ (by decide) rfl rfl hclosed hinj
    hbodies (.rule 0) rfl (by decide) .entangled true
  have hrun : ((entangled.parseLogged .entangled (.rule 0) true).1.toOption.map
      fun o => (o.success, Match.countAll o.forest)) = some (true, 3) := by
    decide +kernel
  rw [ho] at hrun
  obtain ⟨hsuccess, hcount⟩ : o.success = true ∧ Match.countAll o.forest = 3 := by
    simpa [Except.toOption] using hrun
  exact ⟨by decide, rfl, rfl, hclosed, hinj, hbodies, o, ho, ho', hsuccess, hcount⟩

end Grammar

end Peg
