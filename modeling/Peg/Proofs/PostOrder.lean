import Mathlib.Data.List.Forall2
import Peg.Match.Bracketed
import Peg.Match.Print
import Peg.Match.Weight

/-!
# Building is a fold in post-order

`Match.build` walks over a forest with a list of pending steps and takes the nodes for the children
of a match from the end of one shared list of nodes. What it computes is a fold over the trees of
the forest (`Match.foldAll`): the children of a match one after the other, each with everything
below it, and then the match itself, from the nodes of its own children and no others. The two agree
in every lawful monad (`build_eq_foldAll`), because working off the steps of a forest that stands in
front of other steps is to fold the forest and go on with its nodes behind those there are
(`buildSteps_enterAll`).

For factories, which keep a state and may fail, this gives the calls that are made.
`Factory.recorded` is a factory that keeps a list of its calls and their answers and does the same
otherwise. A walk that comes to its end has called for every match once, in post-order; a walk that
fails has done so for a first part of the post-order, and the last call is the only one that failed
(`build_in_postorder`).

Two factories show what this comes to. Weights are sums over whole trees, and their record is the
post-order itself (`weights_none`). Bracketed forms fail for leaves only, so a forest has them
exactly if its leaves can be cut out of the text (`bracketed_isOk`).
-/

namespace Peg.Match

variable {Id N : Type} {m : Type → Type}

/-! ## The fold -/

mutual

/-- The node of a match, made from the nodes of its children after these. -/
def fold [Monad m] (create : Id → Span → List N → m N) : Match Id → m N
  | ⟨id, span, children⟩ => do
    let nodes ← foldAll create children
    create id span nodes

/-- The nodes of the matches of a forest, one after the other. -/
def foldAll [Monad m] (create : Id → Span → List N → m N) : List (Match Id) → m (List N)
  | [] => pure []
  | t :: rest => do
    let node ← fold create t
    let nodes ← foldAll create rest
    pure (node :: nodes)

end

section walk

variable [Monad m] [LawfulMonad m] (create : Id → Span → List N → m N)

mutual

/-- To work off the step that enters a match is to make its node, and to go on with this node behind
those that there are. -/
theorem buildSteps_enter (t : Match Id) (steps : List (Step Id)) (nodes : List N) :
    buildSteps create (.enter t :: steps) nodes =
      fold create t >>= fun node => buildSteps create steps (nodes ++ [node]) := by
  obtain ⟨id, span, children⟩ := t
  rw [buildSteps, buildSteps_enterAll children, fold]
  simp only [bind_assoc]
  refine bind_congr fun made => ?_
  -- the nodes above the height at which the match was entered are those of its children
  rw [buildSteps, List.drop_left, List.take_left]

/-- The same for the steps that enter the matches of a forest. -/
theorem buildSteps_enterAll (forest : List (Match Id)) (steps : List (Step Id)) (nodes : List N) :
    buildSteps create (Step.enterAll forest ++ steps) nodes =
      foldAll create forest >>= fun made => buildSteps create steps (nodes ++ made) := by
  cases forest with
  | nil => simp [Step.enterAll, foldAll]
  | cons t rest =>
    have hcons : Step.enterAll (t :: rest) ++ steps =
        .enter t :: (Step.enterAll rest ++ steps) := rfl
    rw [hcons, buildSteps_enter t, foldAll]
    simp only [bind_assoc, pure_bind]
    refine bind_congr fun node => ?_
    rw [buildSteps_enterAll rest]
    simp only [List.append_assoc, List.singleton_append]

end

/-- Building is folding, whatever the effects of making a node are. -/
theorem build_eq_foldAll (forest : List (Match Id)) :
    build create forest = foldAll create forest := by
  have h := buildSteps_enterAll create forest [] []
  rw [List.append_nil] at h
  rw [build, h]
  simp only [buildSteps, List.nil_append, bind_pure]

end walk

/-! ## The order of the matches -/

mutual

/-- The matches of a tree in post-order. -/
def postorder : Match Id → List (Match Id)
  | ⟨id, span, children⟩ => postorderAll children ++ [⟨id, span, children⟩]

/-- The matches of a forest in post-order. -/
def postorderAll : List (Match Id) → List (Match Id)
  | [] => []
  | t :: rest => postorder t ++ postorderAll rest

end

mutual

/-- Each match of a tree comes once in postorder. -/
theorem length_postorder (t : Match Id) : (postorder t).length = count t := by
  obtain ⟨id, span, children⟩ := t
  rw [postorder, List.length_append, length_postorderAll children, count]
  rfl

/-- Every match of a forest has one place in post-order. -/
theorem length_postorderAll (forest : List (Match Id)) :
    (postorderAll forest).length = countAll forest := by
  cases forest with
  | nil => rfl
  | cons t rest =>
    rw [postorderAll, List.length_append, length_postorder t, length_postorderAll rest, countAll]

end

/-! ## The calls of a factory -/

variable {ε σ β γ : Type}

/-- Something that makes nodes, keeps a state, and may fail. -/
abbrev Factory (ε σ Id N : Type) := Id → Span → List N → ExceptT ε (StateM σ) N

/-- A call of a factory, with the answer. -/
structure Creation (ε Id N : Type) where
  /-- The tag of the match that a node is made for. -/
  id : Id
  /-- Its span. -/
  span : Span
  /-- The nodes made for its children. -/
  children : List N
  /-- What the factory answered: a node, or an error. -/
  answer : Except ε N

/-- The call is for the match, with as many nodes as the match has children. -/
structure Creation.For (c : Creation ε Id N) (t : Match Id) : Prop where
  id_eq : c.id = t.id
  span_eq : c.span = t.span
  length_eq : c.children.length = t.children.length

/-- The call makes the node of the match. -/
structure Creation.Makes (c : Creation ε Id N) (t : Match Id) : Prop extends c.For t where
  ok : ∃ node, c.answer = .ok node

/-- The call fails to make the node of the match. -/
structure Creation.Fails (c : Creation ε Id N) (t : Match Id) (e : ε) : Prop extends c.For t where
  error : c.answer = .error e

/-- The calls that are made for the given matches, in their order, up to the given result: one call
for each match, and all answered by a node; or one call for each match up to some match, and only
the last one answered by an error, which is the result. -/
inductive Called (ts : List (Match Id)) : Except ε β → List (Creation ε Id N) → Prop
  | all {b : β} {calls : List (Creation ε Id N)} :
      List.Forall₂ Creation.Makes calls ts → Called ts (.ok b) calls
  | upTo {e : ε} {before : List (Creation ε Id N)} {last : Creation ε Id N}
      {done behind : List (Match Id)} {t : Match Id} :
      ts = done ++ t :: behind → List.Forall₂ Creation.Makes before done → last.Fails t e →
      Called ts (.error e) (before ++ [last])

/-- The factory that keeps a list of its calls besides its state, oldest first. -/
def Factory.recorded (create : Factory ε σ Id N) :
    Factory ε (σ × List (Creation ε Id N)) Id N := fun id span nodes =>
  ExceptT.mk fun (st, calls) =>
    match (create id span nodes).run.run st with
    | (answer, st') => (answer, st', calls ++ [⟨id, span, nodes, answer⟩])

/-- Running two actions one after the other: the second runs in the state that the first left, and
an error ends both. -/
theorem run_bind (x : ExceptT ε (StateM σ) β) (f : β → ExceptT ε (StateM σ) γ) (st : σ) :
    (x >>= f).run.run st =
      match x.run.run st with
      | (.ok b, st') => (f b).run.run st'
      | (.error e, st') => (.error e, st') := by
  rw [ExceptT.run_bind, StateT.run_bind]
  generalize x.run.run st = r
  obtain ⟨answer, st'⟩ := r
  cases answer <;> rfl

/-- A computation and the same computation with a factory that keeps a list of its calls: they come
out alike, and the calls are those for the given matches. -/
def Records (ts : List (Match Id)) (x : ExceptT ε (StateM σ) β)
    (x' : ExceptT ε (StateM (σ × List (Creation ε Id N))) β) : Prop :=
  ∀ st calls, ∃ made, Called ts (x.run.run st).1 made ∧
    x'.run.run (st, calls) = ((x.run.run st).1, (x.run.run st).2, calls ++ made)

namespace Records

variable {ts us : List (Match Id)} {x : ExceptT ε (StateM σ) β}
  {x' : ExceptT ε (StateM (σ × List (Creation ε Id N))) β} {f : β → ExceptT ε (StateM σ) γ}
  {f' : β → ExceptT ε (StateM (σ × List (Creation ε Id N))) γ}

/-- Without a factory there are no calls. -/
theorem of_pure (b : β) : Records (N := N) ([] : List (Match Id))
    (pure b : ExceptT ε (StateM σ) β) (pure b) := fun st calls =>
  ⟨[], .all .nil, by rw [List.append_nil]; rfl⟩

/-- Of one computation after another, the second one is run if the first one does not fail. -/
theorem bind (h : Records ts x x')
    (hf : ∀ {st st' b}, x.run.run st = (.ok b, st') → Records us (f b) (f' b)) :
    Records (ts ++ us) (x >>= f) (x' >>= f') := by
  intro st calls
  obtain ⟨made, hmade, heq⟩ := h st calls
  rw [run_bind, run_bind, heq]
  rcases hx : x.run.run st with ⟨answer, st'⟩
  rw [hx] at hmade
  cases hmade with
  | @all b _ hall =>
    obtain ⟨made', hmade', heq'⟩ := hf hx st' (calls ++ made)
    refine ⟨made ++ made', ?_, ?_⟩
    · simp only
      generalize ((f b).run.run st').1 = answer' at hmade'
      cases hmade' with
      | all hall' => exact .all (List.rel_append hall hall')
      | upTo hus hbefore hlast =>
        subst hus
        rw [← List.append_assoc made]
        exact .upTo (by rw [List.append_assoc]) (List.rel_append hall hbefore) hlast
    · simp only [heq', List.append_assoc]
  | upTo hts hbefore hlast =>
    subst hts
    exact ⟨_, .upTo (by rw [List.append_assoc, List.cons_append]) hbefore hlast, rfl⟩

/-- One call. -/
theorem create (create : Factory ε σ Id N) {t : Match Id} {nodes : List N}
    (hlength : nodes.length = t.children.length) :
    Records [t] (create t.id t.span nodes) (create.recorded t.id t.span nodes) := by
  intro st calls
  refine ⟨[⟨t.id, t.span, nodes, ((create t.id t.span nodes).run.run st).1⟩], ?_, rfl⟩
  rcases hrun : (create t.id t.span nodes).run.run st with ⟨answer, st'⟩
  cases answer with
  | ok node => exact .all (.cons ⟨⟨rfl, rfl, hlength⟩, node, rfl⟩ .nil)
  | error e =>
    show Called ([] ++ [t]) _ ([] ++ [_])
    exact .upTo rfl .nil ⟨⟨rfl, rfl, hlength⟩, rfl⟩

end Records

section calls

variable (create : Factory ε σ Id N)

/-- There is one node for each match of a forest. -/
theorem length_of_foldAll {forest : List (Match Id)} {nodes : List N} {st st' : σ}
    (h : (foldAll create forest).run.run st = (.ok nodes, st')) : nodes.length = forest.length := by
  induction forest generalizing nodes st st' with
  | nil =>
    cases h
    rfl
  | cons t rest ih =>
    rw [foldAll, run_bind] at h
    rcases hfirst : (fold create t).run.run st with ⟨answer | node, st₁⟩
    · rw [hfirst] at h
      cases h
    · simp only [hfirst, run_bind] at h
      rcases hrest : (foldAll create rest).run.run st₁ with ⟨answer | nodes', st₂⟩
      · rw [hrest] at h
        cases h
      · rw [hrest] at h
        cases h
        rw [List.length_cons, List.length_cons, ih hrest]

mutual

/-- Folding a tree calls the function on its matches in postorder, up to the first error. -/
theorem fold_records (t : Match Id) :
    Records (postorder t) (fold create t) (fold create.recorded t) := by
  obtain ⟨id, span, children⟩ := t
  rw [postorder, fold, fold]
  exact (foldAll_records children).bind fun hchildren =>
    Records.create create (length_of_foldAll create hchildren)

/-- The calls of a fold are those for the matches in post-order. -/
theorem foldAll_records (forest : List (Match Id)) :
    Records (postorderAll forest) (foldAll create forest) (foldAll create.recorded forest) := by
  cases forest with
  | nil => exact Records.of_pure []
  | cons t rest =>
    rw [postorderAll, foldAll, foldAll, ← List.append_nil (postorderAll rest)]
    exact (fold_records t).bind fun _ => (foldAll_records rest).bind fun _ => Records.of_pure _

end

/-- What is built from a forest with a factory, from a state of the factory. -/
structure BuildsInPostorder (forest : List (Match Id)) (st : σ) : Prop where
  /-- The result, and the state in which the factory is left, are those of the fold. -/
  fold_eq : (build create forest).run.run st = (foldAll create forest).run.run st
  /-- If all goes well, there is one node for each match of the forest itself. -/
  length_eq : ∀ {nodes : List N} {st' : σ},
    (build create forest).run.run st = (.ok nodes, st') → nodes.length = forest.length
  /-- With a list of the calls the result and the state are the same, and the calls are those for
  the matches in post-order, up to the result. -/
  calls : ∃ made,
    (build create.recorded forest).run.run (st, []) =
      (((build create forest).run.run st).1, ((build create forest).run.run st).2, made) ∧
    Called (postorderAll forest) ((build create forest).run.run st).1 made
  /-- Every match at every depth has one place in post-order. -/
  once : (postorderAll forest).length = countAll forest

/-- A forest is built with one call for each match, children before parents, up to the first
error. -/
theorem build_in_postorder (forest : List (Match Id)) (st : σ) :
    BuildsInPostorder create forest st := by
  have hfold := build_eq_foldAll create forest
  obtain ⟨made, hcalled, heq⟩ := foldAll_records create forest st []
  constructor
  case fold_eq => rw [hfold]
  case length_eq =>
    intro nodes st' h
    rw [hfold] at h
    exact length_of_foldAll create h
  case calls =>
    rw [build_eq_foldAll create.recorded, hfold]
    exact ⟨made, heq, hcalled⟩
  case once => exact length_postorderAll forest

end calls

/-! ## Weights -/

mutual

/-- The lengths of all spans of a tree, added up. -/
def extent : Match Id → Nat
  | ⟨_, span, children⟩ => span.length + extentAll children

/-- The lengths of all spans of a forest, added up. -/
def extentAll : List (Match Id) → Nat
  | [] => 0
  | t :: rest => extent t + extentAll rest

end

/-- The entry of a match in a record of weights. -/
def weighing (t : Match Id) : Weighing Id := ⟨t.id, t.span, t.children.map extent⟩

/-- The weights of the children are added to the length of the span, from the left. -/
theorem foldl_extent (forest : List (Match Id)) (n : Nat) :
    (forest.map extent).foldl (· + ·) n = n + extentAll forest := by
  induction forest generalizing n with
  | nil => rfl
  | cons t rest ih => rw [List.map_cons, List.foldl_cons, ih, extentAll, Nat.add_assoc]

section weights

variable [DecidableEq Id] (display : Id → String)

/-- If no tag is refused, a weight is computed and put on record. -/
theorem weigh_none (id : Id) (span : Span) (children : List Nat) (record : List (Weighing Id)) :
    (weigh none display id span children).run.run record =
      (.ok (children.foldl (· + ·) span.length), record ++ [⟨id, span, children⟩]) := by
  rfl

mutual

/-- The weight of a match is its extent, and the record goes on with the matches in post-order. -/
theorem fold_weigh (t : Match Id) (record : List (Weighing Id)) :
    (fold (weigh none display) t).run.run record =
      (.ok t.extent, record ++ (postorder t).map weighing) := by
  obtain ⟨id, span, children⟩ := t
  rw [fold, run_bind, foldAll_weigh children, postorder, List.map_append, ← List.append_assoc]
  simp only [weigh_none, foldl_extent, extent]
  rfl

/-- The same for the matches of a forest. -/
theorem foldAll_weigh (forest : List (Match Id)) (record : List (Weighing Id)) :
    (foldAll (weigh none display) forest).run.run record =
      (.ok (forest.map extent), record ++ (postorderAll forest).map weighing) := by
  cases forest with
  | nil =>
    rw [foldAll, postorderAll, List.map_nil, List.map_nil, List.append_nil]
    rfl
  | cons t rest =>
    rw [foldAll, run_bind, fold_weigh t, postorderAll, List.map_append, ← List.append_assoc]
    simp only [run_bind, foldAll_weigh rest]
    rfl

end

/-- Weights are sums over whole trees, and the record lists the matches in post-order. -/
theorem weights_none (forest : List (Match Id)) :
    weights none display forest =
      (.ok (forest.map extent), (postorderAll forest).map weighing) := by
  rw [weights, build_eq_foldAll]
  exact foldAll_weigh display forest []

end weights

/-! ## Bracketed forms -/

section congr

variable [Monad m] {create create' : Id → Span → List N → m N}

mutual

/-- A fold calls for nothing but the matches of the tree. -/
theorem fold_congr (t : Match Id)
    (h : ∀ u ∈ postorder t, ∀ nodes, create u.id u.span nodes = create' u.id u.span nodes) :
    fold create t = fold create' t := by
  obtain ⟨id, span, children⟩ := t
  rw [postorder, List.forall_mem_append, List.forall_mem_singleton] at h
  rw [fold, fold, foldAll_congr children h.1, funext h.2]

/-- The same for the matches of a forest. -/
theorem foldAll_congr (forest : List (Match Id))
    (h : ∀ u ∈ postorderAll forest, ∀ nodes,
      create u.id u.span nodes = create' u.id u.span nodes) :
    foldAll create forest = foldAll create' forest := by
  cases forest with
  | nil => rfl
  | cons t rest =>
    rw [postorderAll, List.forall_mem_append] at h
    rw [foldAll, foldAll, fold_congr t h.1, foldAll_congr rest h.2]

end

end congr

/-- To refuse a tag that no match carries changes nothing. -/
theorem bracketedUnless_eq [DecidableEq Id] {refused : Id} (display : Id → String) (text : String)
    {forest : List (Match Id)} (h : ∀ t ∈ postorderAll forest, t.id ≠ refused) :
    bracketedUnless refused display text forest = bracketed display text forest := by
  rw [bracketedUnless, bracketed, build_eq_foldAll, build_eq_foldAll]
  refine foldAll_congr forest fun t ht nodes => ?_
  rw [bracketUnless, if_neg (h t ht)]

mutual

/-- A leaf of a tree is one of its matches. -/
theorem exists_preorder_of_leaf {span : Span} (depth : Nat) (t : Match Id)
    (h : span ∈ t.leaves) : ∃ x ∈ preorderFrom depth t, x.2.span = span := by
  obtain ⟨id, own, _ | ⟨child, children⟩⟩ := t
  · exact ⟨_, List.mem_cons_self, (List.mem_singleton.1 h).symm⟩
  · have hbelow : span ∈ leavesAll (child :: children) := h
    obtain ⟨x, hx, hspan⟩ := exists_preorderAll_of_leaf (depth + 1) (child :: children) hbelow
    exact ⟨x, List.mem_cons_of_mem _ hx, hspan⟩

/-- The same for the leaves of a forest. -/
theorem exists_preorderAll_of_leaf {span : Span} (depth : Nat) (forest : List (Match Id))
    (h : span ∈ leavesAll forest) : ∃ x ∈ preorderAllFrom depth forest, x.2.span = span := by
  cases forest with
  | nil => cases h
  | cons t rest =>
    rw [leavesAll, List.mem_append] at h
    rcases h with h | h
    · obtain ⟨x, hx, hspan⟩ := exists_preorder_of_leaf depth t h
      exact ⟨x, List.mem_append_left _ hx, hspan⟩
    · obtain ⟨x, hx, hspan⟩ := exists_preorderAll_of_leaf depth rest h
      exact ⟨x, List.mem_append_right _ hx, hspan⟩

end

/-- Of one computation after another, both have to come out well. -/
theorem exists_bind_eq_ok {x : Except ε β} {f : β → Except ε γ} :
    (∃ c, x >>= f = .ok c) ↔ ∃ b, x = .ok b ∧ ∃ c, f b = .ok c := by
  cases x with
  | error e => simp [bind, Except.bind]
  | ok b => simp [bind, Except.bind]

section bracketed

variable (display : Id → String) (text : String)

mutual

/-- A match has a bracketed form if its leaves can be cut out of the text. -/
theorem fold_bracket_isOk (t : Match Id) :
    (∃ form, fold (bracket display text) t = .ok form) ↔
      ∀ span ∈ t.leaves, (span.text? text).isSome = true := by
  obtain ⟨id, span, _ | ⟨child, children⟩⟩ := t
  · rw [fold, foldAll, leaves, List.forall_mem_singleton, exists_bind_eq_ok]
    cases hcut : span.text? text <;> simp [bracket, hcut, pure, Except.pure]
  · -- with forms for its children, an inner match has one whatever its span is
    rw [fold, foldAll, leaves, List.forall_mem_append, ← fold_bracket_isOk child,
      ← foldAll_bracket_isOk children]
    simp only [bind_assoc, pure_bind, exists_bind_eq_ok]
    simp [bracket]

/-- The same for all matches of a forest. -/
theorem foldAll_bracket_isOk (forest : List (Match Id)) :
    (∃ forms, foldAll (bracket display text) forest = .ok forms) ↔
      ∀ span ∈ leavesAll forest, (span.text? text).isSome = true := by
  cases forest with
  | nil => simp [foldAll, leavesAll, pure, Except.pure]
  | cons t rest =>
    rw [foldAll, leavesAll, List.forall_mem_append, ← fold_bracket_isOk t,
      ← foldAll_bracket_isOk rest]
    simp only [exists_bind_eq_ok]
    simp [pure, Except.pure]

end

/-- A forest has bracketed forms if its leaves can be cut out of the text, and not otherwise. -/
theorem bracketed_isOk (forest : List (Match Id)) :
    (∃ forms, bracketed display text forest = .ok forms) ↔
      ∀ span ∈ leavesAll forest, (span.text? text).isSome = true := by
  rw [bracketed, build_eq_foldAll]
  exact foldAll_bracket_isOk display text forest

end bracketed

end Peg.Match
