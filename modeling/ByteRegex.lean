import ByteRegex.Automaton.Graph
import ByteRegex.Matching.Regex
import ByteRegex.Proofs.Layout
import ByteRegex.Proofs.Conversion
import ByteRegex.Proofs.Outcome
import ByteRegex.Proofs.Shape
import ByteRegex.Proofs.Runs
import ByteRegex.Proofs.Flow
import ByteRegex.Proofs.Reach
import ByteRegex.Proofs.Simulation
import ByteRegex.Proofs.Subsets
import ByteRegex.Proofs.RowWord
import ByteRegex.Proofs.Table
import ByteRegex.Proofs.Sessions
import ByteRegex.Proofs.History
import ByteRegex.Proofs.Spelling
import ByteRegex.Proofs.Unrolling
import ByteRegex.Proofs.Faults
import ByteRegex.Proofs.Phrase
import ByteRegex.Proofs.Reading
import ByteRegex.Proofs.Grammar
import ByteRegex.Proofs.Violation
import ByteRegex.Proofs.Parsing
import ByteRegex.Proofs.Meaning
import ByteRegex.Proofs.NodeLimit
import ByteRegex.Proofs.Answers
import ByteRegex.Proofs.PlainText
import ByteRegex.Proofs.Evaluation
import ByteRegex.Proofs.Regrouping
import ByteRegex.Proofs.Parentheses
import ByteRegex.Proofs.Content
import ByteRegex.Proofs.Refusals
import ByteRegex.Proofs.Filling
import ByteRegex.Proofs.Acceptance
import ByteRegex.Proofs.Reuse
import ByteRegex.Proofs.Leftovers
import ByteRegex.Proofs.Trees
import ByteRegex.Proofs.Growth
import ByteRegex.Proofs.Offsets
import ByteRegex.Proofs.Rendering
import ByteRegex.Proofs.Membership
import ByteRegex.Proofs.Ending
import ByteRegex.Proofs.Quoting
import ByteRegex.Proofs.Choosing
import ByteRegex.Proofs.Walks
import ByteRegex.Proofs.Drawing
import ByteRegex.Proofs.Intervals
import ByteRegex.Proofs.SetLabels
