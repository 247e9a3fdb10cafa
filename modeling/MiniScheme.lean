import MiniScheme.Main
import MiniScheme.Proofs.Binary64.HalfUp
import MiniScheme.Proofs.CommandLine.Files
import MiniScheme.Proofs.Eval.Constancy
import MiniScheme.Proofs.Eval.Locality
import MiniScheme.Proofs.Eval.Respelling
import MiniScheme.Proofs.Eval.Scope
import MiniScheme.Proofs.Eval.Skipping
import MiniScheme.Proofs.Eval.TailSteps
import MiniScheme.Proofs.Expr.CursorSafety
import MiniScheme.Proofs.Numeral.Printing
import MiniScheme.Proofs.Session.Chains
import MiniScheme.Proofs.Session.Comparison
import MiniScheme.Proofs.Session.Course
import MiniScheme.Proofs.Session.EmptyList
import MiniScheme.Proofs.Session.Longhand
import MiniScheme.Proofs.Session.Quotation
import MiniScheme.Proofs.Store.Record
import MiniScheme.Proofs.Token.Lines
import MiniScheme.Proofs.Token.Spacing
import MiniScheme.Store.Listed
