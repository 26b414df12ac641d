import Peg.Span.Record
import Peg.Label
import Peg.Expr.Operator
import Peg.Expr.Element
import Peg.Token
import Peg.Diagnostic
import Peg.Match.Print
import Peg.Match.Linked
import Peg.Match.Bracketed
import Peg.Match.Weight
import Peg.Proofs.Boundary
import Peg.Proofs.Effect
import Peg.Proofs.Plain
import Peg.Proofs.Runs
import Peg.Proofs.Conforms
import Peg.Proofs.Adequacy
import Peg.Proofs.Total
import Peg.Proofs.Derives
import Peg.Proofs.Growth
import Peg.Proofs.Reference
import Peg.Proofs.Refinement
import Peg.Proofs.Calls
import Peg.Proofs.Termination
import Peg.Proofs.Failure
import Peg.Proofs.Law
import Peg.Proofs.Inlining
import Peg.Proofs.Nesting
import Peg.Proofs.Translation
import Peg.Proofs.Locality
import Peg.Proofs.Conservative
import Peg.Proofs.Operators
import Peg.Proofs.LeftFold
import Peg.Proofs.Outcome
import Peg.Proofs.Characters
import Peg.Proofs.ErrorOrder
import Peg.Proofs.Slicing
import Peg.Proofs.Mark
import Peg.Proofs.HighWater
import Peg.Proofs.Renaming
import Peg.Proofs.Untagged
import Peg.Proofs.View
import Peg.Proofs.TextSpan
import Peg.Proofs.Recovery
import Peg.Proofs.Oblivious
import Peg.Proofs.Skipping
import Peg.Proofs.Active
import Peg.Proofs.Appends
import Peg.Proofs.Script
import Peg.Proofs.Maximal
import Peg.Proofs.PostOrder
import Peg.Proofs.Parents
import Peg.Proofs.Standstill
import Peg.Proofs.Expansion
import Peg.Proofs.Bracketing
import Peg.Proofs.Monitor
import Peg.Proofs.Caret
import Peg.Proofs.Trace
import Peg.Proofs.Places
import Peg.Proofs.Cursor
import Peg.Proofs.Spelling
import Peg.Proofs.Outline
