import Placement.Command.Run
import Placement.Command.WorkingDirectory
import Placement.Formula.Catalogue
import Placement.Formula.Evaluation
import Placement.Formula.Limits
import Placement.Json
import Placement.Layout.Batch
import Placement.Layout.PlanText
import Placement.Layout.TargetText
import Placement.Main
import Placement.Proofs.Sequencing
import Placement.Proofs.Writable
import Placement.Proofs.Binary.Exact
import Placement.Proofs.Formula.Running
import Placement.Proofs.Formula.Tree
import Placement.Proofs.Formula.Nesting
import Placement.Proofs.Formula.Lexeme
import Placement.Proofs.Formula.Grouping
import Placement.Proofs.Formula.Conversion
import Placement.Yaml.Document
import Placement.Yaml.Write
import Placement.Proofs.Formula.Writing
import Placement.Proofs.Formula.Substitution
import Placement.Proofs.Formula.Replacement
import Placement.Proofs.Formula.Sentence
import Placement.Proofs.Formula.Piece
import Placement.Proofs.Formula.Acceptance
import Placement.Proofs.Formula.Postfix
import Placement.Proofs.Formula.Depth
import Placement.Proofs.Formula.Lockstep
import Placement.Proofs.Formula.Parallel
import Placement.Proofs.Layout.Spacing
import Placement.Proofs.Layout.Trial
import Placement.Proofs.Layout.Validation
import Placement.Proofs.Layout.PerAxis
import Placement.Proofs.Layout.Moments
import Placement.Proofs.Command.Agreement
import Placement.Proofs.Formula.Occurrence
import Placement.Proofs.Formula.DepthLimit
import Placement.Proofs.Formula.Carrying
import Placement.Proofs.Formula.Reading
import Placement.Proofs.Formula.CallOrder
import Placement.Proofs.Formula.Locality
import Placement.Proofs.Formula.Failing
import Placement.Proofs.Layout.SiblingOrder
import Placement.Proofs.Layout.Isolation
import Placement.Proofs.Binary.Extreme
import Placement.Proofs.Layout.Centering
import Placement.Proofs.Layout.Chaining
import Placement.Proofs.Layout.PlanFormat
import Placement.Proofs.Layout.PlanRefusal
import Placement.Proofs.Layout.Dumping
import Placement.Proofs.Binary.Rounding
import Placement.Proofs.Decimal.Rational
import Placement.Proofs.Decimal.Shortest
import Placement.Proofs.Decimal.Spelling
import Placement.Proofs.Formula.NumberText
import Placement.Proofs.Layout.NumberFormula
import Placement.Proofs.Formula.Arguments
import Placement.Proofs.Layout.Previewing
import Placement.Proofs.Formula.Tiling
import Placement.Proofs.Formula.Unplaced
import Placement.Proofs.Formula.Respacing
import Placement.Proofs.Formula.Selection
import Placement.Proofs.Formula.Registration
import Placement.Proofs.Binary.Overflow
import Placement.Proofs.Formula.BindingViews
import Placement.Proofs.Formula.Culprit
import Placement.Proofs.Layout.Keeping
import Placement.Proofs.Layout.UnionSize
import Placement.Proofs.Formula.InPlace
import Placement.Proofs.Decimal.Significant
import Placement.Proofs.Decimal.Reading
import Placement.Proofs.Command.ResultText
import Placement.Proofs.Formula.Progress
import Placement.Proofs.Formula.Size
