import Peg.Expr.Parser
import Peg.Proofs.Effect

/-!
# What a run of an expression does

`Runs s C t pos v a` says: under the source `s`, the task `t`, begun at position `pos`, comes back
with verdict `v` and effect `a`. It is given by rules, one for each way a combinator can come out,
and it says nothing about rules of a grammar: what these do is the parameter `C`. Frames do not
appear either, since no combinator looks at them.

The rules mention no state, no checkpoint and no bound. That the parsers of `Peg.Expr.Parser` do
what the rules say, on every state, is shown in `Peg.Proofs.Adequacy`; everything else about runs is
proved by induction on the rules.
-/

namespace Peg

/-- An optional part turns a mismatch into a match. -/
def Verdict.tolerated : Verdict → Verdict
  | mismatch => ok
  | v => v

/-- A negative lookahead exchanges match and mismatch. -/
def Verdict.negated : Verdict → Verdict
  | ok => mismatch
  | mismatch => ok
  | v => v

/-- Something to be run. -/
inductive Task (α Id : Type) where
  /-- An expression. -/
  | expr (e : Expr α Id)
  /-- Expressions one after the other, where nothing is taken back on failure. -/
  | items (es : List (Expr α Id))
  /-- The rounds of a loop, where nothing is taken back on failure. -/
  | loop (e : Expr α Id)
  /-- The rounds of skipping up to a token. -/
  | skip (past : Bool) (token : Expr α Id)

/-- Whether a task leaves nothing behind when it fails. -/
def Task.isSettled {α Id : Type} : Task α Id → Bool
  | expr _ => true
  | items _ => false
  | loop _ => false
  | skip _ _ => true

/-- Whether a task is repeated as long as possible. -/
def Task.isRepetition {α Id : Type} : Task α Id → Bool
  | expr _ => false
  | items _ => false
  | loop _ => true
  | skip _ _ => true

/-- How an expression that looks at the source itself comes out: at which position it ends, if it
matches. -/
inductive Reads {α Id : Type} (s : Source α) (pos : Nat) : Expr α Id → Option Nat → Prop
  | satisfy (test : α → Bool) :
      Reads s pos (.satisfy test)
        (if (s.elementAt pos).any fun x => test x.1 then some (s.walk pos 1) else none)
  | literal (tests : List (α → Bool)) :
      Reads s pos (.literal tests)
        (if s.passes pos tests then some (s.walk pos tests.length) else none)
  | endOfInput : Reads s pos .endOfInput (if s.size ≤ pos then some pos else none)

/-- How a task comes out, given what the rules of the grammar do. -/
inductive Runs {α Id : Type} (s : Source α) (C : Nat → Nat → Verdict → Effect Id → Prop) :
    Task α Id → Nat → Verdict → Effect Id → Prop
  | reads {pos stop : Nat} {e : Expr α Id} :
      Reads s pos e (some stop) → Runs s C (.expr e) pos .ok (.jump stop)
  | misses {pos : Nat} {e : Expr α Id} :
      Reads s pos e none → Runs s C (.expr e) pos .mismatch (.jump pos)
  | rule {pos i : Nat} {v : Verdict} {a : Effect Id} :
      C i pos v a → Runs s C (.expr (.rule i)) pos v a
  | sequence {pos : Nat} {es : List (Expr α Id)} {v : Verdict} {a : Effect Id} :
      Runs s C (.items es) pos v a → Runs s C (.expr (.sequence es)) pos v (a.settle v pos)
  | choiceNil {pos : Nat} : Runs s C (.expr (.choice [])) pos .mismatch (.jump pos)
  | choiceNext {pos : Nat} {e : Expr α Id} {es : List (Expr α Id)} {v : Verdict} {a b : Effect Id} :
      Runs s C (.expr e) pos .mismatch a → Runs s C (.expr (.choice es)) pos v b →
      Runs s C (.expr (.choice (e :: es))) pos v ((a.undo pos).andThen b)
  | choiceDone {pos : Nat} {e : Expr α Id} {es : List (Expr α Id)} {v : Verdict} {a : Effect Id} :
      Runs s C (.expr e) pos v a → v ≠ .mismatch →
      Runs s C (.expr (.choice (e :: es))) pos v (a.settle v pos)
  | group {pos : Nat} {e : Expr α Id} {v : Verdict} {a : Effect Id} :
      Runs s C (.expr e) pos v a → Runs s C (.expr (.group e)) pos v a
  | star {pos : Nat} {e : Expr α Id} {v : Verdict} {a : Effect Id} :
      Runs s C (.loop e) pos v a → Runs s C (.expr (.star e)) pos v (a.settle v pos)
  | plusOnce {pos : Nat} {e : Expr α Id} {v : Verdict} {a : Effect Id} :
      Runs s C (.expr e) pos v a → (v = .ok → a.stop = pos) →
      Runs s C (.expr (.plus e)) pos v (a.settle v pos)
  | plusMore {pos : Nat} {e : Expr α Id} {v : Verdict} {a b : Effect Id} :
      Runs s C (.expr e) pos .ok a → a.stop ≠ pos → Runs s C (.loop e) a.stop v b →
      Runs s C (.expr (.plus e)) pos v ((a.andThen b).settle v pos)
  | optional {pos : Nat} {e : Expr α Id} {v : Verdict} {a : Effect Id} :
      Runs s C (.expr e) pos v a → Runs s C (.expr (.optional e)) pos v.tolerated (a.settle v pos)
  | ahead {pos : Nat} {e : Expr α Id} {v : Verdict} {a : Effect Id} :
      Runs s C (.expr e) pos v a → Runs s C (.expr (.ahead e)) pos v (a.undo pos)
  | notAhead {pos : Nat} {e : Expr α Id} {v : Verdict} {a : Effect Id} :
      Runs s C (.expr e) pos v a → Runs s C (.expr (.notAhead e)) pos v.negated (a.undo pos)
  | times {pos n : Nat} {e : Expr α Id} {v : Verdict} {a : Effect Id} :
      Runs s C (.items (List.replicate n e)) pos v a →
      Runs s C (.expr (.times e n)) pos v (a.settle v pos)
  | tagOk {pos : Nat} {e : Expr α Id} {id : Id} {a : Effect Id} :
      Runs s C (.expr e) pos .ok a → Runs s C (.expr (.tag e id)) pos .ok (a.wrap id pos)
  | tagFail {pos : Nat} {e : Expr α Id} {id : Id} {v : Verdict} {a : Effect Id} :
      Runs s C (.expr e) pos v a → v ≠ .ok → Runs s C (.expr (.tag e id)) pos v (a.settle v pos)
  | recoverAtEnd {pos : Nat} {e f : Expr α Id} {id : Id} {v : Verdict} {a : Effect Id} :
      s.size ≤ pos → Runs s C (.expr e) pos v a → Runs s C (.expr (.recover e id f)) pos v a
  | recoverPass {pos : Nat} {e f : Expr α Id} {id : Id} {v : Verdict} {a : Effect Id} :
      pos < s.size → Runs s C (.expr e) pos v a → v ≠ .mismatch →
      Runs s C (.expr (.recover e id f)) pos v a
  | recoverOk {pos : Nat} {e f : Expr α Id} {id : Id} {a b : Effect Id} :
      pos < s.size → Runs s C (.expr e) pos .mismatch a → Runs s C (.expr f) pos .ok b →
      Runs s C (.expr (.recover e id f)) pos .ok
        ((((a.undo pos).andThen b).note (.recovered a.reach b.stop)).report
          (.record id a.reach ⟨pos, b.stop⟩))
  | recoverFail {pos : Nat} {e f : Expr α Id} {id : Id} {v : Verdict} {a b : Effect Id} :
      pos < s.size → Runs s C (.expr e) pos .mismatch a → Runs s C (.expr f) pos v b → v ≠ .ok →
      Runs s C (.expr (.recover e id f)) pos v (((a.undo pos).andThen b).settle v pos)
  | skipBefore {pos : Nat} {e : Expr α Id} {v : Verdict} {a : Effect Id} :
      Runs s C (.skip false e) pos v a → Runs s C (.expr (.skipBefore e)) pos v a
  | skipPast {pos : Nat} {e : Expr α Id} {v : Verdict} {a : Effect Id} :
      Runs s C (.skip true e) pos v a → Runs s C (.expr (.skipPast e)) pos v a
  | itemsNil {pos : Nat} : Runs s C (.items []) pos .ok (.jump pos)
  | itemsCons {pos : Nat} {e : Expr α Id} {es : List (Expr α Id)} {v : Verdict} {a b : Effect Id} :
      Runs s C (.expr e) pos .ok a → Runs s C (.items es) a.stop v b →
      Runs s C (.items (e :: es)) pos v (a.andThen b)
  | itemsFail {pos : Nat} {e : Expr α Id} {es : List (Expr α Id)} {v : Verdict} {a : Effect Id} :
      Runs s C (.expr e) pos v a → v ≠ .ok → Runs s C (.items (e :: es)) pos v a
  | loopEnd {pos : Nat} {e : Expr α Id} {a : Effect Id} :
      Runs s C (.expr e) pos .mismatch a → Runs s C (.loop e) pos .ok (a.undo pos)
  | loopStay {pos : Nat} {e : Expr α Id} {a : Effect Id} :
      Runs s C (.expr e) pos .ok a → a.stop = pos → Runs s C (.loop e) pos .ok a
  | loopMore {pos : Nat} {e : Expr α Id} {v : Verdict} {a b : Effect Id} :
      Runs s C (.expr e) pos .ok a → a.stop ≠ pos → Runs s C (.loop e) a.stop v b →
      Runs s C (.loop e) pos v (a.andThen b)
  | loopSignal {pos q : Nat} {e : Expr α Id} {a : Effect Id} :
      Runs s C (.expr e) pos (.leftRecursion q) a → Runs s C (.loop e) pos (.leftRecursion q) a
  | skipAtEnd {pos : Nat} {past : Bool} {e : Expr α Id} :
      s.size ≤ pos → Runs s C (.skip past e) pos .ok (.jump pos)
  | skipFound {pos : Nat} {past : Bool} {e : Expr α Id} {a : Effect Id} :
      pos < s.size → Runs s C (.expr e) pos .ok a →
      Runs s C (.skip past e) pos .ok (a.undo (if past then a.stop else pos))
  | skipNext {pos : Nat} {past : Bool} {e : Expr α Id} {v : Verdict} {a b : Effect Id} :
      pos < s.size → Runs s C (.expr e) pos .mismatch a →
      Runs s C (.skip past e) (s.walk a.stop 1) v b → Runs s C (.skip past e) pos v (a.andThen b)
  | skipSignal {pos q : Nat} {past : Bool} {e : Expr α Id} {a : Effect Id} :
      pos < s.size → Runs s C (.expr e) pos (.leftRecursion q) a →
      Runs s C (.skip past e) pos (.leftRecursion q) a

/-- The more the rules do, the more runs there are. -/
theorem Runs.mono {α Id : Type} {s : Source α} {C C' : Nat → Nat → Verdict → Effect Id → Prop}
    (hC : ∀ i p v a, C i p v a → C' i p v a) {t : Task α Id} {pos : Nat} {v : Verdict}
    {a : Effect Id} (h : Runs s C t pos v a) : Runs s C' t pos v a := by
  induction h with
  | reads hr => exact .reads hr
  | misses hr => exact .misses hr
  | rule h => exact .rule (hC _ _ _ _ h)
  | sequence _ ih => exact .sequence ih
  | choiceNil => exact .choiceNil
  | choiceNext _ _ ih₁ ih₂ => exact .choiceNext ih₁ ih₂
  | choiceDone _ hv ih => exact .choiceDone ih hv
  | group _ ih => exact .group ih
  | star _ ih => exact .star ih
  | plusOnce _ hstay ih => exact .plusOnce ih hstay
  | plusMore _ hmoved _ ih₁ ih₂ => exact .plusMore ih₁ hmoved ih₂
  | optional _ ih => exact .optional ih
  | ahead _ ih => exact .ahead ih
  | notAhead _ ih => exact .notAhead ih
  | times _ ih => exact .times ih
  | tagOk _ ih => exact .tagOk ih
  | tagFail _ hv ih => exact .tagFail ih hv
  | recoverAtEnd hend _ ih => exact .recoverAtEnd hend ih
  | recoverPass hlt _ hv ih => exact .recoverPass hlt ih hv
  | recoverOk hlt _ _ ih₁ ih₂ => exact .recoverOk hlt ih₁ ih₂
  | recoverFail hlt _ _ hv ih₁ ih₂ => exact .recoverFail hlt ih₁ ih₂ hv
  | skipBefore _ ih => exact .skipBefore ih
  | skipPast _ ih => exact .skipPast ih
  | itemsNil => exact .itemsNil
  | itemsCons _ _ ih₁ ih₂ => exact .itemsCons ih₁ ih₂
  | itemsFail _ hv ih => exact .itemsFail ih hv
  | loopEnd _ ih => exact .loopEnd ih
  | loopStay _ hstay ih => exact .loopStay ih hstay
  | loopMore _ hmoved _ ih₁ ih₂ => exact .loopMore ih₁ hmoved ih₂
  | loopSignal _ ih => exact .loopSignal ih
  | skipAtEnd hend => exact .skipAtEnd hend
  | skipFound hlt _ ih => exact .skipFound hlt ih
  | skipNext hlt _ _ ih₁ ih₂ => exact .skipNext hlt ih₁ ih₂
  | skipSignal hlt _ ih => exact .skipSignal hlt ih

end Peg
