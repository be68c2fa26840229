import LeftPeg.Rule
import LeftPeg.Failure
import LeftPeg.Error
import LeftPeg.Outcome
import LeftPeg.Memo
import LeftPeg.Verdict
import LeftPeg.Activation
import LeftPeg.Activation.Stack
import LeftPeg.Event
import LeftPeg.Procedure
import LeftPeg.Scan
import LeftPeg.Invocation
import LeftPeg.Tree
import LeftPeg.Expression
import LeftPeg.Expression.Recognition
import LeftPeg.Text.Hidden
import LeftPeg.Text.Quoted
import LeftPeg.Grammar
import LeftPeg.Grammar.Draft
import LeftPeg.Parser
import LeftPeg.Script
import LeftPeg.SymbolClass
import LeftPeg.Settings.Json
import LeftPeg.Settings
import LeftPeg.Proofs.Course
import LeftPeg.Proofs.Slots
import LeftPeg.Proofs.Orderly
import LeftPeg.Proofs.Attempt
import LeftPeg.Proofs.Reliance
import LeftPeg.Proofs.Derivation
import LeftPeg.Proofs.Genuine
import LeftPeg.Proofs.Parse
import LeftPeg.Proofs.Resolved
import LeftPeg.Proofs.Evaluation
import LeftPeg.Proofs.Tracing
import LeftPeg.Proofs.Plain
import LeftPeg.Proofs.Recursions
import LeftPeg.Proofs.Transparency
import LeftPeg.Proofs.Purging
import LeftPeg.Proofs.Settling
import LeftPeg.Proofs.Leading
import LeftPeg.Proofs.Frames
import LeftPeg.Proofs.Agreement
import LeftPeg.Proofs.Passing
import LeftPeg.Proofs.Balance
import LeftPeg.Proofs.Strict
import LeftPeg.Proofs.Forward
import LeftPeg.Proofs.Reuse
import LeftPeg.Proofs.Grounded
import LeftPeg.Proofs.Ring
import LeftPeg.Proofs.LeftCycle
import LeftPeg.Proofs.Looping
import LeftPeg.Proofs.Circling
import LeftPeg.Proofs.Iteration
import LeftPeg.Proofs.Termination
import LeftPeg.Proofs.Depth
import LeftPeg.Proofs.Relabelling
import LeftPeg.Proofs.Translation
import LeftPeg.Proofs.Shift
import LeftPeg.Proofs.Abandoned
import LeftPeg.Proofs.Reports
import LeftPeg.Proofs.Stable
import LeftPeg.Proofs.Remembering
import LeftPeg.Proofs.Growth
import LeftPeg.Proofs.Copies
import LeftPeg.Proofs.Confined
import LeftPeg.Proofs.Stepwise
import LeftPeg.Proofs.Once
import LeftPeg.Proofs.Naming
import LeftPeg.Proofs.Drafting
import LeftPeg.Proofs.Reordering
import LeftPeg.Proofs.Log
import LeftPeg.Proofs.Tally
import LeftPeg.Proofs.Custody
import LeftPeg.Proofs.Parents
import LeftPeg.Proofs.Pool
