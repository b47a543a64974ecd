import TapeMachine.Library.Wire
import TapeMachine.Main
import TapeMachine.Proofs.Results
import TapeMachine.Proofs.Steps
import TapeMachine.Proofs.Configuration
import TapeMachine.Proofs.Configuration.Frame
import TapeMachine.Proofs.Program.WellFormed
import TapeMachine.Proofs.Program.Defects
import TapeMachine.Proofs.RuleTable
import TapeMachine.Proofs.Program.Course
import TapeMachine.Proofs.Program.Growth
import TapeMachine.Proofs.Program.Reach
import TapeMachine.Proofs.Program.Findings
import TapeMachine.Proofs.Machine.Refinement
import TapeMachine.Proofs.Machine.Calls
import TapeMachine.Proofs.Machine.Safety
import TapeMachine.Proofs.Machine.Halting
import TapeMachine.Proofs.Machine.Controls
import TapeMachine.Proofs.Machine.Trace
import TapeMachine.Proofs.Machine.Invariant
import TapeMachine.Proofs.Machine.Stepping
import TapeMachine.Proofs.Machine.Reset
import TapeMachine.Proofs.Machine.Findings
import TapeMachine.Proofs.CommandLine.TimedRun
import TapeMachine.Proofs.CommandLine.Plan
import TapeMachine.Proofs.Program.Strip
import TapeMachine.Proofs.Machine.OneTape
import TapeMachine.Proofs.Notation.Reading
import TapeMachine.Proofs.Notation.Tokens
import TapeMachine.Proofs.Notation.Lists
import TapeMachine.Proofs.Notation.Lines
import TapeMachine.Proofs.Notation.Rules
import TapeMachine.Proofs.Notation.Sections
import TapeMachine.Proofs.Notation.Drafts
import TapeMachine.Proofs.Notation.RoundTrip
import TapeMachine.Proofs.Notation.Writing
import TapeMachine.Proofs.Notation.Values
import TapeMachine.Proofs.Notation.Accepted
import TapeMachine.Proofs.Json.Tokens
import TapeMachine.Proofs.Json.RoundTrip
import TapeMachine.Proofs.Json.Fields
import TapeMachine.Proofs.Request
import TapeMachine.Proofs.Request.Wire
import TapeMachine.Proofs.Request.Forms
import TapeMachine.Proofs.Request.Answer
import TapeMachine.Proofs.Library.Programs
import TapeMachine.Proofs.Library.PrimeChecker
import TapeMachine.Proofs.Library.Binary
import TapeMachine.Proofs.Library.BinaryMultiplication
import TapeMachine.Proofs.Library.BubbleSort
import TapeMachine.Proofs.Library.PalindromeChecker
import TapeMachine.Proofs.Library.BalancedParentheses
import TapeMachine.Proofs.Library.BinaryReverse
import TapeMachine.Proofs.Library.DuplicateString
import TapeMachine.Proofs.Library.BinaryIncrement
import TapeMachine.Proofs.Tape.Writes
import TapeMachine.Proofs.Tape.Bounds
import TapeMachine.Proofs.Machine.Padding
import TapeMachine.Proofs.Machine.Renaming
import TapeMachine.Proofs.Machine.TapeOrder
import TapeMachine.Proofs.Machine.RuleOrder
import TapeMachine.Proofs.Notation.Gaps
import TapeMachine.Proofs.Notation.Agreement
import TapeMachine.Proofs.Notation.Contents
import TapeMachine.Proofs.Notation.Likeness
import TapeMachine.Proofs.Notation.Scanning
import TapeMachine.Proofs.Notation.Outline
import TapeMachine.Proofs.Notation.Merging
import TapeMachine.Proofs.Notation.Layout
import TapeMachine.Proofs.Notation.Order
import TapeMachine.Proofs.Notation.Positions
import TapeMachine.Proofs.Notation.Edits
import TapeMachine.Proofs.Notation.Places
import TapeMachine.Proofs.Notation.Faults
import TapeMachine.Proofs.Notation.Verdict
import TapeMachine.Proofs.Tape.Canonical
import TapeMachine.Proofs.LoopDetector
import TapeMachine.Proofs.RuleTable.Search
import TapeMachine.Proofs.Path
import TapeMachine.Proofs.Folder
import TapeMachine.Proofs.Loader.Directory
import TapeMachine.Proofs.Program.Description
