import Descent.Grammar.Basic
import Descent.Grammar.Error
import Descent.Grammar.Registry
import Descent.Grammar.Segment
import Descent.Lexing.Adjustment
import Descent.Lexing.Lexer
import Descent.Lexing.Recognizer
import Descent.Lexing.Token
import Descent.Number.Decimal
import Descent.Number.Shortest
import Descent.Pattern.Automaton
import Descent.Pattern.Basic
import Descent.Pattern.CharClass
import Descent.Pattern.CharSet
import Descent.Pattern.Reader
import Descent.Pattern.Search
import Descent.Proofs.Accounts
import Descent.Proofs.Agreement
import Descent.Proofs.Assembling
import Descent.Proofs.Attempts
import Descent.Proofs.Backtracking
import Descent.Proofs.Balance
import Descent.Proofs.Borrowing
import Descent.Proofs.Bracketing
import Descent.Proofs.Calls
import Descent.Proofs.ChainBound
import Descent.Proofs.Chains
import Descent.Proofs.Choices
import Descent.Proofs.Circling
import Descent.Proofs.Climbing
import Descent.Proofs.Consuming
import Descent.Proofs.Delimiting
import Descent.Proofs.DepthLimit
import Descent.Proofs.Documents
import Descent.Proofs.Ending
import Descent.Proofs.Erasure
import Descent.Proofs.Excerpts
import Descent.Proofs.Findings
import Descent.Proofs.Furthest
import Descent.Proofs.Grouping
import Descent.Proofs.Honesty
import Descent.Proofs.Indexing
import Descent.Proofs.Inside
import Descent.Proofs.Iteration
import Descent.Proofs.Journeys
import Descent.Proofs.Laid
import Descent.Proofs.LaidRuns
import Descent.Proofs.Layout
import Descent.Proofs.Legible
import Descent.Proofs.Literals
import Descent.Proofs.Lockstep
import Descent.Proofs.LoneOperand
import Descent.Proofs.LongChains
import Descent.Proofs.Lookahead
import Descent.Proofs.Looking
import Descent.Proofs.Mirroring
import Descent.Proofs.Nodes
import Descent.Proofs.Operands
import Descent.Proofs.Orderly
import Descent.Proofs.Parallel
import Descent.Proofs.ParallelLoops
import Descent.Proofs.Places
import Descent.Proofs.Plan
import Descent.Proofs.Positions
import Descent.Proofs.Progress
import Descent.Proofs.Quoting
import Descent.Proofs.Reading
import Descent.Proofs.Recognition
import Descent.Proofs.References
import Descent.Proofs.Repeating
import Descent.Proofs.Reporting
import Descent.Proofs.SampleCompleteness
import Descent.Proofs.SampleParser
import Descent.Proofs.SampleSoundness
import Descent.Proofs.SampleSpans
import Descent.Proofs.SampleSyntax
import Descent.Proofs.SampleTrees
import Descent.Proofs.Scanning
import Descent.Proofs.Searches
import Descent.Proofs.Sharing
import Descent.Proofs.Sights
import Descent.Proofs.Skipped
import Descent.Proofs.Surfaced
import Descent.Proofs.Survey
import Descent.Proofs.SurveyRuns
import Descent.Proofs.Tagging
import Descent.Proofs.Termination
import Descent.Proofs.Tiling
import Descent.Proofs.Tokens
import Descent.Proofs.Unbounded
import Descent.Proofs.Unfolding
import Descent.Proofs.Unreadable
import Descent.Proofs.Walks
import Descent.Run.Event
import Descent.Run.Parse
import Descent.Run.Parser
import Descent.Run.Precedence
import Descent.Run.Repetition
import Descent.Run.Script
import Descent.Run.Segment
import Descent.Run.Stream
import Descent.Sample
import Descent.Source.Cursor
import Descent.Source.Excerpt
import Descent.Source.Position
import Descent.Source.ReadError
import Descent.Source.Scan
import Descent.Tree.Draft
import Descent.Tree.Fields
import Descent.Tree.Json
import Descent.Tree.Outcome
import Descent.Tree.Value
