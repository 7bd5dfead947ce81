import MemLint.Main
import MemLint.Scenarios
import MemLint.Proofs.Grammar.ExprRules
import MemLint.Proofs.Tree
import MemLint.Proofs.Grammar.StmtRules
import MemLint.Proofs.Grammar.FileRules
import MemLint.Proofs.Grammar.WellFormed
import MemLint.Proofs.Check.Clean
import MemLint.Proofs.ParsedTrees
import MemLint.Proofs.Grammar.Printing
import MemLint.Proofs.Numeral.Decimal
import MemLint.Proofs.Grammar.RoundTrip
import MemLint.Proofs.Check.Simulation
import MemLint.Proofs.Check.Subsumption
import MemLint.Proofs.Grammar.Nesting
import MemLint.Proofs.Check.Success
import MemLint.Proofs.Token.Cover
import MemLint.Proofs.Check.Mirror
import MemLint.Proofs.Check.Renaming
import MemLint.Proofs.Grammar.Derivation
import MemLint.Proofs.Grammar.FileDerivation
import MemLint.Proofs.Grammar.Operands
import MemLint.Proofs.Check.Composition
import MemLint.Proofs.Check.Locality
import MemLint.Proofs.Grammar.Balance
import MemLint.Proofs.Grammar.Layout
import MemLint.Proofs.Analysis.Selection
import MemLint.Proofs.Check.DepthLimit
import MemLint.Proofs.Token.Boundary
import MemLint.Proofs.Token.Respelling
import MemLint.Proofs.Token.Concatenation
import MemLint.Proofs.Grammar.Continuation
import MemLint.Proofs.Grammar.FileContinuation
import MemLint.Proofs.Grammar.Concatenation
import MemLint.Proofs.Grammar.DepthLimit
import MemLint.Proofs.Grammar.Progress
import MemLint.Proofs.Check.Counting
import MemLint.Proofs.Check.Lifecycle
import MemLint.Proofs.Check.UseAfterFree
import MemLint.Proofs.Check.Persistence
import MemLint.Proofs.Check.Reaching
import MemLint.Proofs.Check.Redeclaration
import MemLint.Proofs.Check.LoopOrder
import MemLint.Proofs.Check.Leaks
import MemLint.Proofs.Grammar.Closing
import MemLint.Proofs.Grammar.Compound
import MemLint.Proofs.Grammar.Scoping
import MemLint.Proofs.Grammar.Growth
import MemLint.Proofs.Check.Classification
import MemLint.Proofs.Check.Blocks
import MemLint.Proofs.Numeral.Bases
import MemLint.Proofs.Grammar.IntegerTokens
import MemLint.Proofs.Grammar.LiteralRange
import MemLint.Proofs.Token.EndMark
import MemLint.Proofs.Settings.CheckerNames
import MemLint.Proofs.Check.EntryPoints
import MemLint.Proofs.Report.Document
import MemLint.Proofs.Report.Faithful
import MemLint.Proofs.Report.Findings
import MemLint.Proofs.Grammar.Types
import MemLint.Proofs.Check.Judgements
import MemLint.Proofs.CommandLine.Verdict
