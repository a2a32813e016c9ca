import Conformance.Coercion
import Conformance.Grading.Outcome
import Conformance.Text.Blank
import Conformance.Json.Reader
import Conformance.Schema.Text
import Conformance.Grading.Compare
import Conformance.Suite
import Conformance.Syntax.Fault
import Conformance.Syntax.Token
import Conformance.Syntax.Lexeme
import Conformance.Syntax.Parser
import Conformance.Report
import Conformance.Proofs.Verdict
import Conformance.Proofs.Occurrence
import Conformance.Proofs.Pointer
import Conformance.Proofs.Stepwise
import Conformance.Proofs.Account
import Conformance.Proofs.Expansion
import Conformance.Proofs.Requests
import Conformance.Proofs.Accepted
import Conformance.Proofs.Idempotence
import Conformance.Proofs.Tokens
import Conformance.Proofs.Reachable
import Conformance.Proofs.Grammar
import Conformance.Proofs.Formed
import Conformance.Proofs.CycleSearch
import Conformance.Proofs.Resolution
import Conformance.Proofs.Reading
import Conformance.Proofs.Declared
import Conformance.Proofs.Completeness
import Conformance.Proofs.Acceptance
import Conformance.Proofs.WellFormed
import Conformance.Proofs.NumberText
import Conformance.Proofs.Shallow
import Conformance.Proofs.Spelling
import Conformance.Proofs.Origins
import Conformance.Proofs.Selection
import Conformance.Proofs.Matching
import Conformance.Proofs.Evolution
import Conformance.Proofs.Dates
import Conformance.Proofs.JsonTrip
import Conformance.Proofs.Unfolding
import Conformance.Proofs.Congruence
import Conformance.Proofs.Transparency
import Conformance.Proofs.Reordering
import Conformance.Proofs.Reemission
import Conformance.Proofs.DeeperLimits
import Conformance.Proofs.Gaps
import Conformance.Proofs.Completion
import Conformance.Proofs.Joining
import Conformance.Proofs.DeclarationOrder
import Conformance.Proofs.Subjects
import Conformance.Proofs.Separation
import Conformance.Proofs.Conversion
import Conformance.Proofs.Coverage
import Conformance.Proofs.DateTrip
import Conformance.Proofs.NumericText
import Conformance.Proofs.SharedState
import Conformance.Proofs.Substitution
import Conformance.Proofs.Lines
import Conformance.Proofs.Unrolling
import Conformance.Proofs.Pinning
import Conformance.Proofs.DefaultSize
import Conformance.Proofs.Sharing
import Conformance.Proofs.Layout
import Conformance.Proofs.Located
import Conformance.Proofs.Continuation
import Conformance.Proofs.FirstImpossible
import Conformance.Proofs.Placement
import Conformance.Proofs.UndefinedNames
import Conformance.Proofs.CycleCheck
import Conformance.Proofs.Composition
import Conformance.Proofs.NameWalk
import Conformance.Proofs.ScalarText
import Conformance.Proofs.NotationTells
import Conformance.Proofs.LeftOver
import Conformance.Proofs.DrawnLines
import Conformance.Proofs.Underlined
