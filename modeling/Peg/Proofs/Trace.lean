import Peg.Proofs.Monitor

/-!
# What a log tells

The log of a parse is a list of messages, and what it tells about the parse has to be read off that
list. `Log.nesting?` finds out which rules are open after a list of messages, from the entries and
exits alone. `Log.Faithful` says in terms of it what can be relied on: entries and exits are
properly bracketed, no rule is entered where it is open, what comes after a message of left
recursion is known up to the exit of the last invocation that the signal runs through, and the
growth messages of an invocation count its rounds and tell how far each of them got.

`Grammar.log_faithful`: if the names of the rules are different, this holds of the log of every
parse. Rules that share a name would look like one rule that is entered where it is open.

The proof reads the log with a monitor (`Peg.Proofs.Monitor`), which takes one message at a time.
What is said about the messages before, after and inside an invocation follows from what the monitor
has on its stack at that point.
-/

namespace Peg

variable {α Id : Type}

/-! ## What is read off a log -/

/-- The places of the open invocations after one more message. Nothing is told if a rule is left
that is not the innermost one. -/
def Event.nesting? (places : List (String × Nat)) : Event → Option (List (String × Nat))
  | enter rule position => some ((rule, position) :: places)
  | leave rule position _ =>
    match places with
    | [] => none
    | place :: outer => if place = (rule, position) then some outer else none
  | _ => some places

/-- Whether a message is about the growth of the rule that was entered at a place. -/
def Event.isGrowthOf (place : String × Nat) : Event → Bool
  | growing rule position _ _ => (rule, position) == place
  | grown rule position _ => (rule, position) == place
  | _ => false

namespace Log

/-- The places of the open invocations after a list of messages, innermost first. -/
def nesting? (places : List (String × Nat)) (log : List Event) : Option (List (String × Nat)) :=
  log.foldlM Event.nesting? places

/-- The messages about the rounds of growth, given how far each of them could rely on. -/
def rounds (rule : String) (position : Nat) (accepted : List Nat) : List Event :=
  accepted.mapIdx fun k stop => .growing rule position (k + 1) stop

/-- What a log can be relied on for. The rules have the given names, and the source ends at
`size`. -/
structure Faithful (names : List String) (size : Nat) (log : List Event) : Prop where
  /-- Entries and exits are properly bracketed, and an exit has the name and the position of its
  entry. -/
  bracketed : nesting? [] log = some []
  /-- No rule is entered at a position at which it is still open. -/
  fresh : ∀ {before after : List Event} {rule : String} {position : Nat},
    log = before ++ .enter rule position :: after →
    ∃ places, nesting? [] before = some places ∧ (rule, position) ∉ places
  /-- After a rule was reached again, all rules that are open and were entered after it are left
  with its signal, innermost first, and nothing comes before that. -/
  signal : ∀ {before after : List Event} {rule : String} {position : Nat},
    log = before ++ .leftRecursion rule position :: after →
    ∃ i inner outer rest, names[i]? = some rule ∧
      nesting? [] before = some (inner ++ (rule, position) :: outer) ∧
      (rule, position) ∉ inner ∧
      after = inner.map (fun place => .leave place.1 place.2 (.leftRecursion i)) ++ rest
  /-- Growth messages are about the innermost open rule. -/
  growth_innermost : ∀ {before after : List Event} {e : Event} {place : String × Nat},
    log = before ++ e :: after → e.isGrowthOf place = true →
    ∃ outer, nesting? [] before = some (place :: outer)
  /-- Between an entry and its exit, the growth messages of the rule count its rounds from one, each
  round begins further on than the one before, and if growth has an end, then that is where the last
  round began or the end of the source. -/
  growth : ∀ {before body after : List Event} {rule : String} {position : Nat} {v : Verdict},
    log = before ++ .enter rule position :: (body ++ .leave rule position v :: after) →
    nesting? [] body = some [] →
    ∃ accepted : List Nat, accepted.Pairwise (· < ·) ∧
      (body.filter (Event.isGrowthOf (rule, position)) = rounds rule position accepted ∨
        ∃ stop, (stop = size ∨ accepted.getLast? = some stop) ∧
          body.filter (Event.isGrowthOf (rule, position)) =
            rounds rule position accepted ++ [.grown rule position stop])

/-- Messages are read one after the other. -/
theorem nesting?_cons (places : List (String × Nat)) (e : Event) (log : List Event) :
    nesting? places (e :: log) = (e.nesting? places).bind fun places' => nesting? places' log :=
  List.foldlM_cons

/-- One more round comes with the next number. -/
theorem rounds_concat (rule : String) (position : Nat) (accepted : List Nat) (stop : Nat) :
    rounds rule position (accepted ++ [stop]) =
      rounds rule position accepted ++ [.growing rule position (accepted.length + 1) stop] :=
  List.mapIdx_concat

end Log

/-! ## What a monitor knows -/

namespace Invocation

/-- The growth messages of an invocation so far. -/
def growth (o : Invocation) : List Event :=
  Log.rounds o.rule o.position o.accepted ++ o.stop.toList.map (.grown o.rule o.position)

/-- What an invocation keeps to while it grows. -/
structure Sound (size : Nat) (o : Invocation) : Prop where
  increasing : o.accepted.Pairwise (· < ·)
  ended : ∀ stop, o.stop = some stop → stop = size ∨ o.accepted.getLast? = some stop

/-- One more round adds its message to the growth of an invocation. -/
theorem growth_grow (o : Invocation) (accepted : Nat) (hstop : o.stop = none) :
    (o.grow accepted).growth = o.growth ++
      [.growing o.rule o.position (o.accepted.length + 1) accepted].filter
        (Event.isGrowthOf o.place) := by
  have hown : (Event.growing o.rule o.position (o.accepted.length + 1) accepted).isGrowthOf
      o.place = true := beq_self_eq_true _
  rw [List.filter_cons_of_pos hown, List.filter_nil]
  simp [growth, grow, hstop, Log.rounds_concat]

/-- The end of growth adds its message. -/
theorem growth_settle (o : Invocation) (stop : Nat) (hstop : o.stop = none) :
    (o.settle stop).growth = o.growth ++
      [.grown o.rule o.position stop].filter (Event.isGrowthOf o.place) := by
  have hown : (Event.grown o.rule o.position stop).isGrowthOf o.place = true := beq_self_eq_true _
  rw [List.filter_cons_of_pos hown, List.filter_nil]
  simp [growth, settle, hstop]

/-- An invocation that was just entered is sound. -/
theorem Sound.enter (size : Nat) (rule : String) (position : Nat) :
    (Invocation.enter rule position).Sound size := ⟨.nil, nofun⟩

/-- A round from further on than those before keeps an invocation sound. -/
theorem Sound.grow {size accepted : Nat} {o : Invocation} (h : o.Sound size) (hstop : o.stop = none)
    (hlt : ∀ before ∈ o.accepted, before < accepted) : (o.grow accepted).Sound size where
  increasing := by
    refine List.pairwise_append.2 ⟨h.increasing, List.pairwise_singleton _ _, ?_⟩
    intro before hbefore q hq
    rw [List.mem_singleton.1 hq]
    exact hlt before hbefore
  ended := by
    intro stop hsome
    rw [Invocation.grow, hstop] at hsome
    cases hsome

/-- The end of growth at the end of the source or where the last round began keeps an invocation
sound. -/
theorem Sound.settle {size stop : Nat} {o : Invocation} (h : o.Sound size)
    (hstop : stop = size ∨ o.accepted.getLast? = some stop) : (o.settle stop).Sound size where
  increasing := h.increasing
  ended := by
    intro q hq
    cases hq
    exact hstop

/-- The growth messages of an invocation are those of its rounds, and the one about their end. -/
theorem Sound.exists_growth {size : Nat} {o : Invocation} (h : o.Sound size) {rule : String}
    {position : Nat} (hplace : o.place = (rule, position)) :
    ∃ accepted : List Nat, accepted.Pairwise (· < ·) ∧
      (o.growth = Log.rounds rule position accepted ∨
        ∃ stop, (stop = size ∨ accepted.getLast? = some stop) ∧
          o.growth = Log.rounds rule position accepted ++ [.grown rule position stop]) := by
  obtain ⟨_, _, accepted, stop⟩ := o
  cases hplace
  refine ⟨accepted, h.increasing, ?_⟩
  cases stop with
  | none => exact .inl (List.append_nil _)
  | some stop => exact .inr ⟨stop, h.ended stop rfl, rfl⟩

end Invocation

namespace Monitor

/-- No place has two open invocations, and all of them are sound. -/
structure Sound (size : Nat) (m : Monitor) : Prop where
  distinct : (m.stack.map Invocation.place).Nodup
  sound : ∀ o ∈ m.stack, o.Sound size

/-- An invocation is at another place than those that are open around it. -/
theorem Sound.ne_place {size : Nat} {x o : Invocation} {inner outer : List Invocation}
    {due : List Event} (h : Sound size ⟨x :: (inner ++ o :: outer), due⟩) : x.place ≠ o.place := by
  have hnot := (List.nodup_cons.1 h.distinct).1
  intro heq
  exact hnot (heq ▸ List.mem_map_of_mem (List.mem_append_right _ List.mem_cons_self))

variable {names : List String} {size : Nat} {m m' : Monitor} {e : Event} {events : List Event}

/-- A step keeps the monitor sound. -/
theorem Step.sound (h : Step names size m e m') (hm : m.Sound size) : m'.Sound size := by
  obtain ⟨hdistinct, hsound⟩ := hm
  cases h with
  | enter hfresh =>
    exact ⟨List.nodup_cons.2 ⟨hfresh, hdistinct⟩, List.forall_mem_cons.2 ⟨.enter .., hsound⟩⟩
  | leave _ | giveUp => exact ⟨(List.nodup_cons.1 hdistinct).2, (List.forall_mem_cons.1 hsound).2⟩
  | signal _ _ | pass _ => exact ⟨hdistinct, hsound⟩
  | grow hstop hlt =>
    obtain ⟨ho, hrest⟩ := List.forall_mem_cons.1 hsound
    exact ⟨hdistinct, List.forall_mem_cons.2 ⟨ho.grow hstop hlt, hrest⟩⟩
  | settle _ hend =>
    obtain ⟨ho, hrest⟩ := List.forall_mem_cons.1 hsound
    exact ⟨hdistinct, List.forall_mem_cons.2 ⟨ho.settle hend, hrest⟩⟩

/-- A monitor stays sound through all messages. -/
theorem Steps.sound (h : Steps names size m events m') (hm : m.Sound size) : m'.Sound size := by
  induction h with
  | nil => exact hm
  | cons hstep _ ih => exact ih (hstep.sound hm)

/-- The stack of the monitor is what entries and exits tell. -/
theorem Step.nesting? (h : Step names size m e m') :
    e.nesting? (m.stack.map Invocation.place) = some (m'.stack.map Invocation.place) := by
  cases h with
  | enter _ | signal _ _ | grow _ _ | settle _ _ => rfl
  | leave _ | giveUp => exact if_pos rfl
  | pass he =>
    cases e with
    | started | finished | recovered | tokenized => rfl
    | _ => cases he

/-- After all messages, the stack of the monitor is what entries and exits tell. -/
theorem Steps.nesting? (h : Steps names size m events m') :
    Log.nesting? (m.stack.map Invocation.place) events = some (m'.stack.map Invocation.place) := by
  induction h with
  | nil => rfl
  | cons hstep _ ih => rw [Log.nesting?_cons, hstep.nesting?, Option.bind_some, ih]

/-- What is due comes first. -/
theorem Steps.due_first {stack stack' : List Invocation} {due : List Event}
    (h : Steps names size ⟨stack, due⟩ events ⟨stack', []⟩) : ∃ rest, events = due ++ rest := by
  induction due generalizing stack events with
  | nil => exact ⟨events, rfl⟩
  | cons e due ih =>
    cases h with
    | cons hstep hrest =>
      cases hstep with
      | giveUp =>
        obtain ⟨rest, rfl⟩ := ih hrest
        exact ⟨rest, rfl⟩

/-- As long as an invocation stays open, the messages about its growth are kept with it, and no
other messages are. -/
theorem Step.growth {inner outer : List Invocation} {o : Invocation}
    {places : List (String × Nat)} (h : Step names size m e m') (hm : m.Sound size)
    (hstack : m.stack = inner ++ o :: outer)
    (hopen : e.nesting? (inner.map Invocation.place) = some places) :
    ∃ inner' o', m'.stack = inner' ++ o' :: outer ∧ inner'.map Invocation.place = places ∧
      o'.place = o.place ∧ o'.growth = o.growth ++ [e].filter (Event.isGrowthOf o.place) := by
  have hnothing (he : e.isGrowthOf o.place = false) :
      o.growth = o.growth ++ [e].filter (Event.isGrowthOf o.place) := by
    simp [he]
  cases h with
  | enter _ =>
    cases hopen
    exact ⟨.enter _ _ :: inner, o, congrArg (_ :: ·) hstack, rfl, rfl, hnothing rfl⟩
  | leave _ | giveUp =>
    rcases List.cons_eq_append_iff.1 hstack with ⟨rfl, -⟩ | ⟨inner', rfl, rfl⟩
    · cases hopen
    · rw [List.map_cons] at hopen
      cases (if_pos rfl).symm.trans hopen
      exact ⟨inner', o, rfl, rfl, rfl, hnothing rfl⟩
  | signal _ _ =>
    cases hopen
    exact ⟨inner, o, hstack, rfl, rfl, hnothing rfl⟩
  | pass he =>
    cases e with
    | started | finished | recovered | tokenized =>
      cases hopen
      exact ⟨inner, o, hstack, rfl, rfl, hnothing rfl⟩
    | _ => cases he
  | @grow _ x accepted hstop _ =>
    cases hopen
    rcases List.cons_eq_append_iff.1 hstack with ⟨rfl, heq⟩ | ⟨inner', rfl, rfl⟩
    · cases heq
      exact ⟨[], o.grow accepted, rfl, rfl, rfl, o.growth_grow accepted hstop⟩
    · have hne : x.place ≠ o.place := hm.ne_place
      exact ⟨x.grow accepted :: inner', o, rfl, rfl, rfl, hnothing (beq_false_of_ne hne)⟩
  | @settle _ x stop hstop _ =>
    cases hopen
    rcases List.cons_eq_append_iff.1 hstack with ⟨rfl, heq⟩ | ⟨inner', rfl, rfl⟩
    · cases heq
      exact ⟨[], o.settle stop, rfl, rfl, rfl, o.growth_settle stop hstop⟩
    · have hne : x.place ≠ o.place := hm.ne_place
      exact ⟨x.settle stop :: inner', o, rfl, rfl, rfl, hnothing (beq_false_of_ne hne)⟩

/-- Up to where an invocation is innermost again, all messages about its growth are added to it.
-/
theorem Steps.growth {inner outer : List Invocation} {o : Invocation}
    (h : Steps names size m events m') (hm : m.Sound size) (hstack : m.stack = inner ++ o :: outer)
    (hopen : Log.nesting? (inner.map Invocation.place) events = some []) :
    ∃ o', m'.stack = o' :: outer ∧ o'.place = o.place ∧
      o'.growth = o.growth ++ events.filter (Event.isGrowthOf o.place) := by
  induction h generalizing inner o with
  | nil =>
    have hnil : inner = [] := List.map_eq_nil_iff.1 (Option.some.inj hopen)
    subst hnil
    exact ⟨o, hstack, rfl, (List.append_nil _).symm⟩
  | @cons _ _ _ e events hstep _ ih =>
    rw [Log.nesting?_cons, Option.bind_eq_some_iff] at hopen
    obtain ⟨places, hfirst, hrest⟩ := hopen
    obtain ⟨inner', o₁, hstack', rfl, hplace, hgrowth⟩ := hstep.growth hm hstack hfirst
    obtain ⟨o', hend, hplace', hgrowth'⟩ := ih (hstep.sound hm) hstack' hrest
    refine ⟨o', hend, hplace'.trans hplace, ?_⟩
    rw [hgrowth', hgrowth, hplace, List.append_assoc, ← List.filter_append, List.singleton_append]

end Monitor

/-! ## Logs that a monitor gets through -/

/-- A log that a monitor gets through is faithful. -/
theorem Monitor.Steps.faithful {names : List String} {size : Nat} {log : List Event}
    (h : Monitor.Steps names size ⟨[], []⟩ log ⟨[], []⟩) : Log.Faithful names size log := by
  have hsound : Monitor.Sound size ⟨[], []⟩ := ⟨.nil, nofun⟩
  constructor
  case bracketed => exact h.nesting?
  case fresh =>
    rintro before after rule position rfl
    obtain ⟨m, hbefore, hrest⟩ := h.split
    refine ⟨_, hbefore.nesting?, ?_⟩
    cases hrest with
    | cons hstep _ =>
      cases hstep with
      | enter hfresh => exact hfresh
      | pass he => cases he
  case signal =>
    rintro before after rule position rfl
    obtain ⟨m, hbefore, hrest⟩ := h.split
    cases hrest with
    | cons hstep hafter =>
      cases hstep with
      | @signal inner outer o i hname hinner =>
        obtain ⟨rest, rfl⟩ := hafter.due_first
        refine ⟨i, inner.map Invocation.place, outer.map Invocation.place, rest, hname, ?_, hinner,
          ?_⟩
        · have hnest := hbefore.nesting?
          rwa [List.map_append, List.map_cons] at hnest
        · rw [List.map_map]
          rfl
      | pass he => cases he
  case growth_innermost =>
    rintro before after e place rfl hgrowth
    obtain ⟨m, hbefore, hrest⟩ := h.split
    cases hrest with
    | cons hstep _ =>
      cases hstep with
      | grow _ _ | settle _ _ =>
        cases beq_iff_eq.1 hgrowth
        exact ⟨_, hbefore.nesting?⟩
      | enter _ | leave _ | signal _ _ | giveUp => cases hgrowth
      | pass he =>
        cases e with
        | growing | grown => cases he
        | _ => cases hgrowth
  case growth =>
    rintro before body after rule position v rfl hbody
    obtain ⟨m, hbefore, hrest⟩ := h.split
    cases hrest with
    | cons henter hrest =>
      have hentered := henter.sound (hbefore.sound hsound)
      cases henter with
      | @enter stack _ _ hfresh =>
        obtain ⟨m', hinside, -⟩ := hrest.split
        have hopen : Log.nesting? (([] : List Invocation).map Invocation.place) body = some [] :=
          hbody
        obtain ⟨o, hstack, hplace, hgrowth⟩ :=
          hinside.growth hentered (List.nil_append _).symm hopen
        have ho : o.Sound size := (hinside.sound hentered).sound o (hstack ▸ List.mem_cons_self)
        obtain ⟨accepted, hincreasing, hmessages⟩ := ho.exists_growth hplace
        rw [hgrowth] at hmessages
        exact ⟨accepted, hincreasing, hmessages⟩
      | pass he => cases he

namespace Grammar

/-- The log of every parse is a faithful and properly bracketed record of it, if the rules have
different names. -/
theorem log_faithful (g : Grammar α Id) (s : Source α) (start : Expr α Id)
    (hg : g.isPlain = true) (hstart : start.isPlain = true) (hnames : g.names.Nodup)
    (toEnd : Bool) : Log.Faithful g.names s.size (g.parseLogged s start toEnd).2 :=
  (parseLogged_monitored hg hstart hnames s toEnd).faithful

/-- The first rule is entered at the beginning, runs into itself through the second one, and grows
twice. -/
theorem log_faithful_entangled :
    let log := (entangled.parseLogged .entangled (.rule 0 : Expr Char Nat) true).2
    entangled.isPlain = true ∧ (Expr.rule 0 : Expr Char Nat).isPlain = true ∧
      entangled.names.Nodup ∧ Log.Faithful entangled.names Source.entangled.size log ∧
      log.take 5 = [.started 2 4, .enter "a" 0, .enter "b" 0, .leftRecursion "a" 0,
        .leave "b" 0 (.leftRecursion 0)] ∧
      log.filter (Event.isGrowthOf ("a", 0)) =
        Log.rounds "a" 0 [1, 2] ++ [.grown "a" 0 4] := by
  intro log
  have hplain : entangled.isPlain = true ∧ (Expr.rule 0 : Expr Char Nat).isPlain = true := by
    decide
  have hnames : entangled.names.Nodup := by decide
  have hmessages : log.take 5 = [.started 2 4, .enter "a" 0, .enter "b" 0, .leftRecursion "a" 0,
        .leave "b" 0 (.leftRecursion 0)] ∧
      log.filter (Event.isGrowthOf ("a", 0)) =
        Log.rounds "a" 0 [1, 2] ++ [.grown "a" 0 4] := by decide +kernel
  exact ⟨hplain.1, hplain.2, hnames,
    log_faithful entangled .entangled (.rule 0) hplain.1 hplain.2 hnames true, hmessages⟩

end Grammar

end Peg
