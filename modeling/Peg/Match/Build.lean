import Peg.Match

/-!
# Building from a forest

A caller that wants a tree of its own gives a function that makes one node from a tag, a span and
the nodes made for the children. The function may keep a state and may fail: it works in a monad.
`Match.build` calls it once for every match, for children before their parent and for siblings in
order, and gives the nodes of the roots.

The forest is walked with a list of pending steps in place of recursion, so the depth of a tree is
no matter. To enter a match is to put its children and, after them, its own completion in front of
the pending steps; the completion remembers how many nodes there were at that time, and takes the
nodes made since as the children. Every step leaves less to do, as `Step.weight` measures it.
-/

namespace Peg.Match

/-- A pending step of a walk over a forest. -/
inductive Step (Id : Type) where
  /-- Walk over a match. -/
  | enter (m : Match Id)
  /-- Make the node of a match whose children were walked over, from the nodes above `height`. -/
  | exit (id : Id) (span : Span) (height : Nat)

variable {Id N : Type} {m : Type → Type}

/-- The steps that walk over a forest. -/
def Step.enterAll (forest : List (Match Id)) : List (Step Id) := forest.map .enter

/-- How much is left to do in a step. -/
def Step.weight : Step Id → Nat
  | .enter m => 2 * m.count
  | .exit .. => 1

/-- How much is left to do. -/
def Step.total : List (Step Id) → Nat
  | [] => 0
  | step :: rest => step.weight + Step.total rest

/-- What is left to do adds up. -/
theorem Step.total_append (a b : List (Step Id)) :
    Step.total (a ++ b) = Step.total a + Step.total b := by
  induction a with
  | nil => simp [Step.total]
  | cons step rest ih => simp [Step.total, ih, Nat.add_assoc]

/-- Entering a forest leaves two steps to do for each of its nodes. -/
theorem Step.total_enterAll (forest : List (Match Id)) :
    Step.total (Step.enterAll forest) = 2 * countAll forest := by
  induction forest with
  | nil => rfl
  | cons m rest ih =>
    have h : Step.total (Step.enterAll (m :: rest)) = 2 * m.count + Step.total (Step.enterAll rest) :=
      rfl
    rw [h, ih, countAll]
    omega

/-- Works off the pending steps. The nodes that were made and have no parent yet are listed oldest
first. -/
def buildSteps [Monad m] (create : Id → Span → List N → m N) :
    List (Step Id) → List N → m (List N)
  | [], nodes => pure nodes
  | .enter ⟨id, span, children⟩ :: rest, nodes =>
    buildSteps create (Step.enterAll children ++ .exit id span nodes.length :: rest) nodes
  | .exit id span height :: rest, nodes => do
    let node ← create id span (nodes.drop height)
    buildSteps create rest (nodes.take height ++ [node])
termination_by steps => Step.total steps
decreasing_by
  · simp only [Step.total_append, Step.total_enterAll, Step.total, Step.weight, count]
    omega
  · simp only [Step.total, Step.weight]
    omega

/-- Makes the nodes of a forest. -/
def build [Monad m] (create : Id → Span → List N → m N) (forest : List (Match Id)) : m (List N) :=
  buildSteps create (Step.enterAll forest) []

end Peg.Match
