import Peg.Proofs.Outcome

/-!
# Reading a log with a stack

A log is read from its beginning, with a stack of the invocations that are open. An entry pushes an
invocation and an exit takes it away; growth messages are kept with the innermost invocation. After
a message of left recursion the monitor knows exactly what has to come next: all invocations above
the one that was reached again are left, one after the other. `Monitor.Step` says which messages it
takes in which state, and it takes no others.

`Grammar.parseLogged_monitored`: a monitor gets through the log of every parse and has nothing open
at its end. The induction is over runs, and what carries it is `Monitored`: the invocations that a
monitor has open are the frames of the run, a run leaves them as they were, and if it signals left
recursion, then what is due are the exits of the invocations above the frame that raised the signal.
Where a run was given up and what it tried before makes no difference, since going back does not
touch the log.
-/

namespace Peg

variable {α Id : Type}

/-! ## The monitor -/

/-- An invocation that is open, with what it logged about its growth. -/
structure Invocation where
  /-- The name of the rule. -/
  rule : String
  /-- Where it was entered. -/
  position : Nat
  /-- How far it got before each round of growth, oldest first. -/
  accepted : List Nat
  /-- Where it stopped growing, if it did. -/
  stop : Option Nat

namespace Invocation

/-- A rule that was just entered. -/
def enter (rule : String) (position : Nat) : Invocation := ⟨rule, position, [], none⟩

/-- Where an invocation was entered: its rule and the position. -/
def place (o : Invocation) : String × Nat := (o.rule, o.position)

/-- The message with which an invocation ends. -/
def leave (v : Verdict) (o : Invocation) : Event := .leave o.rule o.position v

/-- One more round of growth. -/
def grow (o : Invocation) (accepted : Nat) : Invocation :=
  { o with accepted := o.accepted ++ [accepted] }

/-- The end of growth. -/
def settle (o : Invocation) (stop : Nat) : Invocation := { o with stop := some stop }

/-- An invocation is where its rule was entered. -/
@[simp] theorem enter_place (rule : String) (position : Nat) :
    (enter rule position).place = (rule, position) := rfl

/-- Growing does not move an invocation. -/
@[simp] theorem grow_place (o : Invocation) (accepted : Nat) :
    (o.grow accepted).place = o.place := rfl

end Invocation

/-- The place of the invocation that a message is about, for messages about rules. -/
def Event.place? : Event → Option (String × Nat)
  | enter rule position => some (rule, position)
  | leave rule position _ => some (rule, position)
  | leftRecursion rule position => some (rule, position)
  | growing rule position _ _ => some (rule, position)
  | grown rule position _ => some (rule, position)
  | _ => none

/-- Somebody who reads a log. -/
structure Monitor where
  /-- The open invocations, innermost first. -/
  stack : List Invocation
  /-- The messages that have to come next. -/
  due : List Event

namespace Monitor

/-- Which messages are taken, and how. The rules have the given names, and the source ends at
`size`. -/
inductive Step (names : List String) (size : Nat) : Monitor → Event → Monitor → Prop
  /-- No rule is entered at a position at which it is open. -/
  | enter {stack : List Invocation} {rule : String} {position : Nat} :
      (rule, position) ∉ stack.map Invocation.place →
      Step names size ⟨stack, []⟩ (.enter rule position) ⟨.enter rule position :: stack, []⟩
  /-- The innermost invocation may end with a match or a mismatch. -/
  | leave {stack : List Invocation} {o : Invocation} {v : Verdict} : v = .ok ∨ v = .mismatch →
      Step names size ⟨o :: stack, []⟩ (.leave o.rule o.position v) ⟨stack, []⟩
  /-- A rule that is open may be reached again, and then the invocations above it have to end. -/
  | signal {inner outer : List Invocation} {o : Invocation} {i : Nat} :
      names[i]? = some o.rule → o.place ∉ inner.map Invocation.place →
      Step names size ⟨inner ++ o :: outer, []⟩ (.leftRecursion o.rule o.position)
        ⟨inner ++ o :: outer, inner.map (Invocation.leave (.leftRecursion i))⟩
  /-- The innermost invocation ends as it has to. -/
  | giveUp {stack : List Invocation} {o : Invocation} {v : Verdict} {due : List Event} :
      Step names size ⟨o :: stack, o.leave v :: due⟩ (.leave o.rule o.position v) ⟨stack, due⟩
  /-- The innermost invocation begins another round of growth, from further on than before. -/
  | grow {stack : List Invocation} {o : Invocation} {accepted : Nat} : o.stop = none →
      (∀ before ∈ o.accepted, before < accepted) →
      Step names size ⟨o :: stack, []⟩
        (.growing o.rule o.position (o.accepted.length + 1) accepted) ⟨o.grow accepted :: stack, []⟩
  /-- The innermost invocation stops growing, where its last round began or at the end. -/
  | settle {stack : List Invocation} {o : Invocation} {stop : Nat} : o.stop = none →
      stop = size ∨ o.accepted.getLast? = some stop →
      Step names size ⟨o :: stack, []⟩ (.grown o.rule o.position stop) ⟨o.settle stop :: stack, []⟩
  /-- Messages that are not about rules change nothing. -/
  | pass {stack : List Invocation} {e : Event} : e.place? = none →
      Step names size ⟨stack, []⟩ e ⟨stack, []⟩

/-- Messages that are taken one after the other. -/
inductive Steps (names : List String) (size : Nat) : Monitor → List Event → Monitor → Prop
  | nil {m : Monitor} : Steps names size m [] m
  | cons {m m' m'' : Monitor} {e : Event} {events : List Event} : Step names size m e m' →
      Steps names size m' events m'' → Steps names size m (e :: events) m''

namespace Steps

variable {names : List String} {size : Nat} {m m' m'' : Monitor} {e : Event}
  {events events' : List Event}

/-- One message that is taken. -/
theorem single (h : Step names size m e m') : Steps names size m [e] m' := .cons h .nil

/-- Messages may be taken in two parts. -/
theorem append (h : Steps names size m events m') (h' : Steps names size m' events' m'') :
    Steps names size m (events ++ events') m'' := by
  induction h with
  | nil => exact h'
  | cons hstep _ ih => exact .cons hstep (ih h')

/-- One more message at the end. -/
theorem concat (h : Steps names size m events m') (h' : Step names size m' e m'') :
    Steps names size m (events ++ [e]) m'' := h.append (.single h')

/-- Messages are taken in parts. -/
theorem split (h : Steps names size m (events ++ events') m'') :
    ∃ m', Steps names size m events m' ∧ Steps names size m' events' m'' := by
  induction events generalizing m with
  | nil => exact ⟨m, .nil, h⟩
  | cons e events ih =>
    cases h with
    | cons hstep hrest =>
      obtain ⟨m', hleft, hright⟩ := ih hrest
      exact ⟨m', .cons hstep hleft, hright⟩

end Steps

end Monitor

/-! ## Runs -/

namespace Grammar

variable {g : Grammar α Id}

/-- The names of the rules. -/
def names (g : Grammar α Id) : List String := g.rules.map (·.name)

/-- The place of a frame, with the name of its rule. -/
def placeOf (g : Grammar α Id) (f : Frame Id) : String × Nat := (g.name f.rule, f.position)

/-- The name of a rule stands at its number. -/
theorem names_getElem? {i : Nat} (hi : i < g.size) : g.names[i]? = some (g.name i) := by
  have hrule : g.rules[i]? = some g.rules[i] := List.getElem?_eq_getElem hi
  simp only [names, name, List.getElem?_map, hrule, Option.map_some]

/-- Rules with different names can be told apart by their names. -/
theorem name_injOn (hnames : g.names.Nodup) {i j : Nat} (hi : i < g.size) (hj : j < g.size)
    (h : g.name i = g.name j) : i = j := by
  have heq : g.names[i]? = g.names[j]? := by rw [names_getElem? hi, names_getElem? hj, h]
  have hi' : i < g.names.length := by rwa [names, List.length_map]
  exact (List.getElem?_inj hi' hnames).1 heq

/-- What has to come next after a run: if it signals, the exits of the invocations above the one
that was reached again. -/
def due (g : Grammar α Id) (stack : List Invocation) : Verdict → List Event
  | .leftRecursion i =>
    (stack.takeWhile fun o => o.rule ≠ g.name i).map (Invocation.leave (.leftRecursion i))
  | _ => []

/-- Nothing is due after a match or a mismatch. -/
theorem due_eq_nil {v : Verdict} (hv : v = .ok ∨ v = .mismatch) (stack : List Invocation) :
    g.due stack v = [] := by
  rcases hv with rfl | rfl <;> rfl

/-- Nothing is due if the innermost invocation is the one that was reached again. -/
theorem due_cons_self {i : Nat} {o : Invocation} (h : o.rule = g.name i)
    (stack : List Invocation) : g.due (o :: stack) (.leftRecursion i) = [] := by
  simp [due, h]

/-- An innermost invocation of another rule has to end first. -/
theorem due_cons_ne {i : Nat} {o : Invocation} (h : o.rule ≠ g.name i) (stack : List Invocation) :
    g.due (o :: stack) (.leftRecursion i) =
      o.leave (.leftRecursion i) :: g.due stack (.leftRecursion i) := by
  simp [due, h]

/-- Invocations of other rules have to end one after the other, innermost first. -/
theorem due_append {i : Nat} {inner : List Invocation} (h : ∀ o ∈ inner, o.rule ≠ g.name i)
    (stack : List Invocation) : g.due (inner ++ stack) (.leftRecursion i) =
      inner.map (Invocation.leave (.leftRecursion i)) ++ g.due stack (.leftRecursion i) := by
  induction inner with
  | nil => rfl
  | cons o inner ih =>
    obtain ⟨ho, hinner⟩ := List.forall_mem_cons.1 h
    rw [List.cons_append, due_cons_ne ho, ih hinner]
    rfl

/-- A monitor whose open invocations are the frames of a run gets through what the run logs, newest
message first. Afterwards the same invocations are open, and if the run signals, those above the one
that was reached again have to end. -/
def Monitored (g : Grammar α Id) (size : Nat) (fs : List (Frame Id)) (v : Verdict)
    (events : List Event) : Prop :=
  ∀ stack : List Invocation, stack.map Invocation.place = fs.map g.placeOf →
    Monitor.Steps g.names size ⟨stack, []⟩ events.reverse ⟨stack, g.due stack v⟩

namespace Monitored

variable {size : Nat} {fs : List (Frame Id)} {v w : Verdict} {events events' : List Event}

/-- A run that logs nothing is monitored. -/
theorem nil (hv : v = .ok ∨ v = .mismatch) : g.Monitored size fs v [] := by
  intro stack _
  rw [due_eq_nil hv]
  exact .nil

/-- One run after another. -/
theorem after (hv : v = .ok ∨ v = .mismatch) (h : g.Monitored size fs v events)
    (h' : g.Monitored size fs w events') : g.Monitored size fs w (events' ++ events) := by
  intro stack hstack
  have hfirst := h stack hstack
  rw [due_eq_nil hv] at hfirst
  rw [List.reverse_append]
  exact hfirst.append (h' stack hstack)

/-- Nothing is due after a match or a mismatch. -/
theorem answered (hv : v = .ok ∨ v = .mismatch) (hw : w = .ok ∨ w = .mismatch)
    (h : g.Monitored size fs v events) : g.Monitored size fs w events := by
  have hnothing := after hv h (nil hw)
  rwa [List.nil_append] at hnothing

/-- It makes no difference to the log whether a mismatch is tolerated. -/
theorem tolerated (h : g.Monitored size fs v events) : g.Monitored size fs v.tolerated events := by
  cases v with
  | mismatch => exact h.answered (.inr rfl) (.inl rfl)
  | _ => exact h

/-- It makes no difference to the log whether an answer is turned around. -/
theorem negated (h : g.Monitored size fs v events) : g.Monitored size fs v.negated events := by
  cases v with
  | ok => exact h.answered (.inl rfl) (.inr rfl)
  | mismatch => exact h.answered (.inr rfl) (.inl rfl)
  | _ => exact h

/-- A message that is not about rules may be added. -/
theorem pass {e : Event} (he : e.place? = none) (hv : v = .ok ∨ v = .mismatch)
    (h : g.Monitored size fs v events) : g.Monitored size fs v (e :: events) := by
  intro stack hstack
  have hfirst := h stack hstack
  rw [due_eq_nil hv] at hfirst ⊢
  rw [List.reverse_cons]
  exact hfirst.concat (.pass he)

end Monitored

end Grammar

section runs

variable {g : Grammar α Id} {s : Source α} {L : Nat → Nat → Prop} {floor pos : Nat}
  {C : Nat → Nat → Verdict → Effect Id → Prop} {t : Task α Id} {v : Verdict} {a : Effect Id}
  {fs : List (Frame Id)}

/-- If a monitor gets through what the rules of the grammar log, then through what all runs log. -/
theorem Runs.monitored {size : Nat} (hC : Regular s L floor C)
    (hcall : ∀ i p w b, floor ≤ p → s.Boundary p → C i p w b → g.Monitored size fs w b.events)
    (h : Runs s C t pos v a) (hfloor : floor ≤ pos) (hpos : s.Boundary pos) :
    g.Monitored size fs v a.events := by
  induction h with
  | reads _ | itemsNil | skipAtEnd _ => exact .nil (.inl rfl)
  | misses _ | choiceNil => exact .nil (.inr rfl)
  | rule h => exact hcall _ _ _ _ hfloor hpos h
  | sequence _ ih | choiceDone _ _ ih | star _ ih | plusOnce _ _ ih | times _ ih | tagFail _ _ ih =>
    rw [Effect.settle_events]
    exact ih hfloor hpos
  | group _ ih | recoverAtEnd _ _ ih | recoverPass _ _ _ ih | skipBefore _ ih | skipPast _ ih
  | itemsFail _ _ ih | loopSignal _ ih | skipSignal _ _ ih | tagOk _ ih | ahead _ ih
  | loopStay _ _ ih | skipFound _ _ ih => exact ih hfloor hpos
  | choiceNext _ _ ih₁ ih₂ => exact .after (.inr rfl) (ih₁ hfloor hpos) (ih₂ hfloor hpos)
  | plusMore h₁ _ _ ih₁ ih₂ =>
    have ha := (h₁.conforms hC hfloor hpos).toWithin
    rw [Effect.settle_events]
    exact .after (.inl rfl) (ih₁ hfloor hpos) (ih₂ (Nat.le_trans hfloor ha.le_stop) ha.boundary)
  | optional _ ih =>
    rw [Effect.settle_events]
    exact (ih hfloor hpos).tolerated
  | notAhead _ ih => exact (ih hfloor hpos).negated
  | recoverOk _ h₁ h₂ ih₁ ih₂ =>
    exact .pass rfl (.inl rfl) (.after (.inr rfl) (ih₁ hfloor hpos) (ih₂ hfloor hpos))
  | recoverFail _ h₁ h₂ _ ih₁ ih₂ =>
    rw [Effect.settle_events]
    exact .after (.inr rfl) (ih₁ hfloor hpos) (ih₂ hfloor hpos)
  | itemsCons h₁ _ ih₁ ih₂ | loopMore h₁ _ _ ih₁ ih₂ =>
    have ha := (h₁.conforms hC hfloor hpos).toWithin
    exact .after (.inl rfl) (ih₁ hfloor hpos) (ih₂ (Nat.le_trans hfloor ha.le_stop) ha.boundary)
  | loopEnd h ih => exact .answered (.inr rfl) (.inl rfl) (ih hfloor hpos)
  | @skipNext pos past e v a b hlt h₁ h₂ ih₁ ih₂ =>
    have hstop := ((h₁.conforms hC hfloor hpos).silent rfl rfl).stop_eq
    rw [hstop] at ih₂
    have hle := Nat.le_of_lt (hpos.lt_walk_one hlt)
    exact .after (.inr rfl) (ih₁ hfloor hpos) (ih₂ (Nat.le_trans hfloor hle) (hpos.walk 1))

end runs

/-! ## Rules -/

/-- An invocation that has run `k` rounds of growth, each of them from before `bound`. -/
structure Invocation.Rounds (name : String) (pos k bound : Nat) (o : Invocation) : Prop where
  place_eq : o.place = (name, pos)
  stop_eq : o.stop = none
  length_eq : o.accepted.length = k
  lt_bound : ∀ q ∈ o.accepted, q < bound

namespace Invocation.Rounds

variable {name : String} {pos k q q' : Nat} {o : Invocation}

/-- An invocation that was just entered has run no rounds. -/
theorem enter (name : String) (pos bound : Nat) :
    (Invocation.enter name pos).Rounds name pos 0 bound :=
  ⟨rfl, rfl, rfl, nofun⟩

/-- One more round, from further on than the rounds before. -/
theorem grow (h : o.Rounds name pos k q) (hlt : q < q') :
    (o.grow q).Rounds name pos (k + 1) q' where
  place_eq := h.place_eq
  stop_eq := h.stop_eq
  length_eq := by rw [Invocation.grow, List.length_append, h.length_eq, List.length_singleton]
  lt_bound := by
    intro p hp
    rcases List.mem_append.1 hp with hp | hp
    · exact Nat.lt_trans (h.lt_bound p hp) hlt
    · rwa [List.mem_singleton.1 hp]

/-- A monitor takes the message of the next round. -/
theorem step (h : o.Rounds name pos k q) (names : List String) (size : Nat)
    (stack : List Invocation) :
    Monitor.Step names size ⟨o :: stack, []⟩ (.growing name pos (k + 1) q)
      ⟨o.grow q :: stack, []⟩ := by
  obtain ⟨hplace, hstop, rfl, hlt⟩ := h
  cases hplace
  exact .grow hstop hlt

end Invocation.Rounds

/-- A monitor gets through what the body of a rule logs, in every mode that fits. -/
def Body.Monitored (g : Grammar α Id) (s : Source α) (i pos : Nat) (fs : List (Frame Id))
    (B : Body Id) : Prop :=
  ∀ m v a, m.Fits s pos → B m v a → g.Monitored s.size (⟨i, pos, m⟩ :: fs) v a.events

section rules

variable {g : Grammar α Id} {s : Source α} {i pos : Nat} {B : Body Id} {fs : List (Frame Id)}
  {v : Verdict} {a : Effect Id} {stack : List Invocation}

/-- One more round logs what its body logs, after the message with which it begins. -/
theorem Effect.retried_events (name : String) (pos k : Nat) (acc a : Effect Id) :
    (Effect.retried name pos k acc a).events =
      (a.events ++ [.growing name pos (k + 1) acc.stop]) ++ acc.events := by
  simp [retried, andThen, undo, note]

/-- The places of the frames of a body. -/
theorem Grammar.map_placeOf_cons (hstack : stack.map Invocation.place = fs.map g.placeOf)
    {o : Invocation} (ho : o.place = (g.name i, pos)) (m : Mode Id) :
    (o :: stack).map Invocation.place = (⟨i, pos, m⟩ :: fs).map g.placeOf := by
  rw [List.map_cons, List.map_cons, hstack, ho]
  rfl

/-- The rounds of growth keep to the innermost invocation, and the growth ends where the last round
began or at the end of the source. -/
theorem Growth.monitored (hB : B.Lawful s i pos fs) (hM : B.Monitored g s i pos fs) {k : Nat}
    {acc b : Effect Id} {o : Invocation} (hpos : s.Boundary pos) (hacc : acc.Within s pos)
    (h : Growth s.size (g.name i) pos B k acc v b)
    (hstack : stack.map Invocation.place = fs.map g.placeOf)
    (ho : o.Rounds (g.name i) pos k acc.stop) :
    ∃ events o', b.events = events ++ acc.events ∧ o'.place = (g.name i, pos) ∧ o'.stop = none ∧
      Monitor.Steps g.names s.size ⟨o :: stack, []⟩ events.reverse
        ⟨o' :: stack, g.due (o' :: stack) v⟩ ∧
      (v = .ok → b.stop = s.size ∨ o'.accepted.getLast? = some b.stop) := by
  -- what a round logs that begins where the last accepted result ended
  have hround {k : Nat} {acc a : Effect Id} {w : Verdict} {o : Invocation}
      (hacc : acc.Within s pos) (ho : o.Rounds (g.name i) pos k acc.stop) (hbody : B acc.mode w a) :
      Monitor.Steps g.names s.size ⟨o :: stack, []⟩
        (a.events ++ [Event.growing (g.name i) pos (k + 1) acc.stop]).reverse
        ⟨o.grow acc.stop :: stack, g.due (o.grow acc.stop :: stack) w⟩ := by
    have hplaces := Grammar.map_placeOf_cons hstack
      ((Invocation.grow_place o acc.stop).trans ho.place_eq) acc.mode
    rw [List.reverse_append]
    exact .cons (ho.step g.names s.size stack) (hM _ _ _ hacc.mode_fits hbody _ hplaces)
  induction h generalizing o with
  | @full k acc hfull =>
    refine ⟨[], o, rfl, ho.place_eq, ho.stop_eq, .nil, fun _ => .inl ?_⟩
    exact Nat.le_antisymm hacc.boundary.le_size hfull
  | @further k acc a b v _ hbody hlt _ ih =>
    have ha := (hB _ _ _ hacc.mode_fits hbody).toWithin
    obtain ⟨events, o', hevents, hplace, hstop, hsteps, hend⟩ :=
      ih (hacc.retried _ _ ha hpos) (ho.grow hlt)
    refine ⟨events ++ (a.events ++ [.growing (g.name i) pos (k + 1) acc.stop]), o', ?_, hplace,
      hstop, ?_, hend⟩
    · rw [hevents, Effect.retried_events, ← List.append_assoc]
    · rw [List.reverse_append]
      exact (hround hacc ho hbody).append hsteps
  | @settled k acc a w _ hbody hw =>
    have hsteps := hround hacc ho hbody
    have hanswer : w = .ok ∨ w = .mismatch := by
      rcases hw with rfl | ⟨rfl, -⟩
      · exact .inr rfl
      · exact .inl rfl
    rw [Grammar.due_eq_nil hanswer] at hsteps
    exact ⟨_, o.grow acc.stop, Effect.retried_events .., ho.place_eq, ho.stop_eq, hsteps,
      fun _ => .inr List.getLast?_concat⟩
  | signal _ hbody =>
    exact ⟨_, o.grow _, Effect.retried_events .., ho.place_eq, ho.stop_eq, hround hacc ho hbody,
      nofun⟩

/-- An invocation whose body has been monitored: it is entered where it is not open, and it is left
as its verdict says. -/
theorem Grammar.Monitored.framed (hfresh : (g.name i, pos) ∉ fs.map g.placeOf)
    (hv : v.isAnswer = true) (hother : ∀ q, v = .leftRecursion q → g.name q ≠ g.name i)
    (h : ∀ stack : List Invocation, stack.map Invocation.place = fs.map g.placeOf →
      ∃ o, o.place = (g.name i, pos) ∧
        Monitor.Steps g.names s.size ⟨.enter (g.name i) pos :: stack, []⟩ a.events.reverse
          ⟨o :: stack, g.due (o :: stack) v⟩) :
    g.Monitored s.size fs v (a.framed (g.name i) pos v).events := by
  intro stack hstack
  obtain ⟨o, hplace, hsteps⟩ := h stack hstack
  have hrule : o.rule = g.name i := congrArg Prod.fst hplace
  have hposition : o.position = pos := congrArg Prod.snd hplace
  have henter : Monitor.Step g.names s.size ⟨stack, []⟩ (.enter (g.name i) pos)
      ⟨.enter (g.name i) pos :: stack, []⟩ := .enter (by rwa [hstack])
  have hevents : (a.framed (g.name i) pos v).events.reverse =
      .enter (g.name i) pos :: (a.events.reverse ++ [o.leave v]) := by
    rw [Invocation.leave, hrule, hposition]
    simp [Effect.framed, Effect.note, Effect.andThen, Effect.jump]
  rw [hevents]
  refine .cons henter (hsteps.concat ?_)
  cases v with
  | ok => exact .leave (.inl rfl)
  | mismatch => exact .leave (.inr rfl)
  | leftRecursion q =>
    have hne : o.rule ≠ g.name q := hrule ▸ (hother q rfl).symm
    rw [Grammar.due_cons_ne hne]
    exact .giveUp
  | fault => cases hv
  | exhausted => cases hv

/-- A rule that is open and is reached again. -/
theorem Grammar.Monitored.signal (hnames : g.names.Nodup) (hi : i < g.size)
    (hfs : Stack s g.size pos fs) (hsignal : Frame.Signals fs i pos) :
    g.Monitored s.size fs (.leftRecursion i) [.leftRecursion (g.name i) pos] := by
  intro stack hstack
  obtain ⟨f, hfind, -, hrule, hposition, -⟩ := Frame.exists_of_answer? hsignal
  obtain ⟨-, before, behind, rfl, hbefore⟩ := List.find?_eq_some_iff_append.1 hfind
  rw [List.map_append, List.map_cons] at hstack
  obtain ⟨inner, rest, rfl, hinner, hrest⟩ := List.map_eq_append_iff.1 hstack
  obtain ⟨o, outer, rfl, hplace, -⟩ := List.map_eq_cons_iff.1 hrest
  have hname : o.rule = g.name i := by rw [← hrule]; exact congrArg Prod.fst hplace
  have hat : o.position = pos := by rw [← hposition]; exact congrArg Prod.snd hplace
  -- the frames above are of other rules, and so are the invocations above
  have hother : ∀ x ∈ inner, x.rule ≠ g.name i := by
    intro x hx hxname
    have hmem : x.place ∈ before.map g.placeOf := hinner ▸ List.mem_map_of_mem hx
    obtain ⟨f', hf', hplace'⟩ := List.mem_map.1 hmem
    have hlt := hfs.rule_lt f' (List.mem_append_left _ hf')
    have heq := Grammar.name_injOn hnames hlt hi ((congrArg Prod.fst hplace').trans hxname)
    simpa [heq] using hbefore f' hf'
  have hdue : g.due (inner ++ o :: outer) (.leftRecursion i) =
      inner.map (Invocation.leave (.leftRecursion i)) := by
    rw [Grammar.due_append hother, Grammar.due_cons_self hname, List.append_nil]
  rw [hdue, List.reverse_singleton, ← hname, ← hat]
  refine .single (.signal ?_ ?_)
  · rw [hname]
    exact Grammar.names_getElem? hi
  · intro hmem
    obtain ⟨x, hx, hsame⟩ := List.mem_map.1 hmem
    exact hother x hx ((congrArg Prod.fst hsame).trans hname)

/-- A rule that is not open at a position has no invocation there. -/
theorem Grammar.placeOf_notMem (hnames : g.names.Nodup) (hi : i < g.size)
    (hfs : Stack s g.size pos fs) (hnone : Frame.answer? fs i pos = none) :
    (g.name i, pos) ∉ fs.map g.placeOf := by
  intro hmem
  obtain ⟨f, hf, hplace⟩ := List.mem_map.1 hmem
  have hrule := Grammar.name_injOn hnames (hfs.rule_lt f hf) hi (congrArg Prod.fst hplace)
  exact hfs.ne_position_of_answer? (Nat.le_refl pos) hnone f hf hrule (congrArg Prod.snd hplace)

/-- The body is run once more after it ran into its rule. -/
theorem Body.Monitored.retry (hM : B.Monitored g s i pos fs)
    (hstack : stack.map Invocation.place = fs.map g.placeOf) {b : Effect Id}
    (hfirst : B .fresh (.leftRecursion i) a) (hseed : B .seeding v b) :
    Monitor.Steps g.names s.size ⟨.enter (g.name i) pos :: stack, []⟩ (a.andThen b).events.reverse
      ⟨.enter (g.name i) pos :: stack, g.due (.enter (g.name i) pos :: stack) v⟩ := by
  have hplaces := fun m : Mode Id =>
    Grammar.map_placeOf_cons hstack (Invocation.enter_place (g.name i) pos) m
  have hsteps := hM .fresh _ _ trivial hfirst _ (hplaces .fresh)
  rw [Grammar.due_cons_self rfl] at hsteps
  rw [Effect.andThen, List.reverse_append]
  exact hsteps.append (hM .seeding _ _ trivial hseed _ (hplaces .seeding))

/-- The body gives a seed, and the seed grows. -/
theorem Body.Monitored.regrow (hB : B.Lawful s i pos fs) (hM : B.Monitored g s i pos fs)
    (hpos : s.Boundary pos) (hstack : stack.map Invocation.place = fs.map g.placeOf)
    {b c : Effect Id} (hfirst : B .fresh (.leftRecursion i) a) (hseed : B .seeding .ok b)
    (hgrowth : Growth s.size (g.name i) pos B 0 b v c) :
    ∃ o, o.place = (g.name i, pos) ∧ o.stop = none ∧
      Monitor.Steps g.names s.size ⟨.enter (g.name i) pos :: stack, []⟩
        (a.andThen c).events.reverse ⟨o :: stack, g.due (o :: stack) v⟩ ∧
      (v = .ok → c.stop = s.size ∨ o.accepted.getLast? = some c.stop) := by
  have hb := (hB .seeding _ _ trivial hseed).toWithin
  obtain ⟨events, o, hevents, hplace, hstop, hsteps, hend⟩ :=
    hgrowth.monitored hB hM hpos hb hstack (.enter (g.name i) pos b.stop)
  have hbefore := hM.retry hstack hfirst hseed
  rw [Grammar.due_eq_nil (.inl rfl)] at hbefore
  refine ⟨o, hplace, hstop, ?_, hend⟩
  have hparts : (a.andThen c).events.reverse = (a.andThen b).events.reverse ++ events.reverse := by
    simp [Effect.andThen, hevents]
  rw [hparts]
  exact hbefore.append hsteps

/-- A monitor gets through what an invocation logs if it gets through what the body does. -/
theorem Invokes.monitored (hnames : g.names.Nodup) (hi : i < g.size) (hpos : s.Boundary pos)
    (hfs : Stack s g.size pos fs)
    (hB : Frame.answer? fs i pos = none → B.Lawful s i pos fs ∧ B.Monitored g s i pos fs)
    (h : Invokes s.size i (g.name i) pos B (Frame.answer? fs i pos) v a) :
    g.Monitored s.size fs v a.events := by
  have hconf := (invokes_lawful s).conforms hpos hfs (fun hnone => (hB hnone).1) h
  have hfresh (hnone : Frame.answer? fs i pos = none) :=
    Grammar.placeOf_notMem hnames hi hfs hnone
  have hother (hnone : Frame.answer? fs i pos = none) (q : Nat) (hq : v = .leftRecursion q) :
      g.name q ≠ g.name i := by
    have hsignal := hconf.signal q hq
    obtain ⟨f, -, hf, rfl, -, -⟩ := Frame.exists_of_answer? hsignal
    intro hname
    have heq := Grammar.name_injOn hnames (hfs.rule_lt f hf) hi hname
    rw [Frame.Signals, heq, hnone] at hsignal
    cases hsignal
  cases h with
  | signal hactive => exact .signal hnames hi hfs hactive
  | refuse _ => exact .nil (.inr rfl)
  | replay _ => exact .nil (.inl rfl)
  | once hnone hbody _ =>
    refine .framed (hfresh hnone) hconf.answer (hother hnone) fun stack hstack => ?_
    have hplaces := Grammar.map_placeOf_cons hstack (Invocation.enter_place (g.name i) pos) .fresh
    exact ⟨_, rfl, (hB hnone).2 .fresh _ _ trivial hbody _ hplaces⟩
  | barren hnone hfirst hseed _ =>
    refine .framed (hfresh hnone) hconf.answer (hother hnone) fun stack hstack => ?_
    exact ⟨_, rfl, (hB hnone).2.retry hstack hfirst hseed⟩
  | @grown a b c hnone hfirst hseed hgrowth =>
    refine .framed (hfresh hnone) hconf.answer (hother hnone) fun stack hstack => ?_
    obtain ⟨hlawful, hM⟩ := hB hnone
    obtain ⟨o, hplace, hstop, hsteps, hend⟩ :=
      hM.regrow hlawful hpos hstack hfirst hseed hgrowth
    have hrule : o.rule = g.name i := congrArg Prod.fst hplace
    have hposition : o.position = pos := congrArg Prod.snd hplace
    have hsettle := hsteps.concat (.settle hstop (hend rfl))
    rw [hrule, hposition] at hsettle
    refine ⟨o.settle c.stop, hplace, ?_⟩
    rw [Effect.andThen, Effect.note, List.cons_append, List.reverse_cons]
    exact hsettle
  | aborted hnone hfirst hseed hgrowth _ =>
    refine .framed (hfresh hnone) hconf.answer (hother hnone) fun stack hstack => ?_
    obtain ⟨hlawful, hM⟩ := hB hnone
    obtain ⟨o, hplace, -, hsteps, -⟩ := hM.regrow hlawful hpos hstack hfirst hseed hgrowth
    exact ⟨o, hplace, hsteps⟩

end rules

namespace Grammar

variable {g : Grammar α Id} {s : Source α} {start : Expr α Id}

/-- A monitor gets through what every rule logs, under every stack of frames. -/
theorem derives_monitored (hnames : g.names.Nodup) (d : Nat) {fs : List (Frame Id)}
    {floor i p : Nat} {v : Verdict} {a : Effect Id} (hfs : Stack s g.size floor fs)
    (hfloor : floor ≤ p) (hp : s.Boundary p) (h : g.Derives Invokes s d fs i p v a) :
    g.Monitored s.size fs v a.events := by
  induction d generalizing fs floor i p v a with
  | zero => exact h.elim
  | succ d ih =>
    cases hbody : g.body? i with
    | none =>
      simp only [Derives, hbody] at h
      obtain ⟨rfl, rfl⟩ := h
      exact .nil (.inr rfl)
    | some e =>
      simp only [Derives, hbody] at h
      have hi := lt_size_of_body? hbody
      refine Invokes.monitored hnames hi hp (hfs.raise hfloor) (fun hnone => ?_) h
      refine ⟨body_lawful (invokes_lawful s) d (hfs.raise hfloor) (Nat.le_refl p) hp hbody hnone,
        fun m w b hm hrun => ?_⟩
      have hpush := hfs.push hfloor hi hnone hm
      refine hrun.monitored (regular (invokes_lawful s) d hpush) ?_ (Nat.le_refl p) hp
      intro j q u c hq hbq hj
      exact ih hpush hq hbq hj

/-- A monitor gets through the log of a parse, from its beginning to its end. -/
theorem parseLogged_monitored (hg : g.isPlain = true) (hstart : start.isPlain = true)
    (hnames : g.names.Nodup) (s : Source α) (toEnd : Bool) :
    Monitor.Steps g.names s.size ⟨[], []⟩ (g.parseLogged s start toEnd).2 ⟨[], []⟩ := by
  cases hvalid : g.validate with
  | error e =>
    rw [parseLogged_eq_refused hvalid]
    exact .nil
  | ok _ =>
    obtain ⟨v, a, hv, hrun, -, hparse⟩ := exists_parse hg hstart hvalid s
    have hnil : Stack s g.size 0 ([] : List (Frame Id)) := .nil s g.size 0
    have hmonitored : g.Monitored s.size [] v a.events := by
      refine hrun.monitored (regular (invokes_lawful s) _ hnil) ?_ (Nat.le_refl 0) s.boundary_zero
      intro i p w b hp hbp hi
      exact derives_monitored hnames _ hnil hp hbp hi
    have hsteps := hmonitored [] rfl
    rw [due_eq_nil hv] at hsteps
    rw [hparse toEnd]
    exact .cons (.pass rfl) (hsteps.concat (.pass rfl))

end Grammar

end Peg
