import GradedScript.Main
import GradedScript.Tree.Printer
import GradedScript.Proofs.Machine.Comparison
import GradedScript.Proofs.Machine.Soundness
import GradedScript.Proofs.Machine.Restoration
import GradedScript.Proofs.Parser.Grammar
import GradedScript.Proofs.Parser.Reading
import GradedScript.Proofs.Parser.Soundness
import GradedScript.Proofs.Machine.Safety
import GradedScript.Proofs.Parser.Leading
import GradedScript.Proofs.Parser.Completeness
import GradedScript.Proofs.Parser.Exactness
import GradedScript.Proofs.Scope.Reindexing
import GradedScript.Proofs.Machine.Reclamation
import GradedScript.Proofs.Machine.Transfer
import GradedScript.Proofs.Parser.Transport
import GradedScript.Proofs.Machine.Placement
import GradedScript.Proofs.Scope.Sharing
import GradedScript.Proofs.Machine.Lockstep
import GradedScript.Proofs.Machine.Orderly
import GradedScript.Proofs.Machine.LexicalScope
import GradedScript.Proofs.Scan.Seam
import GradedScript.Proofs.Machine.Splitting
import GradedScript.Proofs.Scan.Lexeme
import GradedScript.Proofs.Scan.Partition
import GradedScript.Proofs.Parser.Likeness
import GradedScript.Proofs.Machine.Layout
import GradedScript.Proofs.Diagnostic.Places
import GradedScript.Proofs.Scan.Printing
import GradedScript.Proofs.Scope.Requests
import GradedScript.Proofs.Machine.Congruence
import GradedScript.Proofs.Machine.Truncation
import GradedScript.Proofs.Machine.CallDepth
import GradedScript.Proofs.Machine.Settling
import GradedScript.Proofs.Scan.Slices
import GradedScript.Proofs.Prompt.Braces
import GradedScript.Proofs.Prompt.Echoes
import GradedScript.Proofs.Machine.Confinement
import GradedScript.Proofs.Style.Coverage
import GradedScript.Proofs.Scope.Resolution
import GradedScript.Proofs.Parser.Progress
import GradedScript.Proofs.Parser.Recovery
import GradedScript.Proofs.Parser.Juxtaposition
import GradedScript.Proofs.Scope.Interposing
import GradedScript.Proofs.Machine.Detours
import GradedScript.Proofs.Machine.Budgets
import GradedScript.Proofs.Machine.ForLoops
import GradedScript.Proofs.Text.Names
import GradedScript.Proofs.Prompt.Completing
import GradedScript.Proofs.Scan.LineCounts
import GradedScript.Proofs.Tree.Occurrences
import GradedScript.Proofs.Style.Grades
import GradedScript.Proofs.Machine.TestRuns
import GradedScript.Proofs.Decimal.Doubles
import GradedScript.Proofs.Decimal.Rounding
import GradedScript.Proofs.Decimal.Numerals
import GradedScript.Proofs.Scan.NumberTexts
import GradedScript.Proofs.Scan.Composition
import GradedScript.Proofs.Tree.Datum
import GradedScript.Proofs.Parser.Wording
import GradedScript.Proofs.Tree.Legibility
import GradedScript.Proofs.Tree.Recognition
