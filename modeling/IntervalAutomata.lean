import IntervalAutomata.Algebra
import IntervalAutomata.Ascending
import IntervalAutomata.Automaton.Acceptors
import IntervalAutomata.Automaton.Assembly
import IntervalAutomata.Automaton.Basic
import IntervalAutomata.Automaton.Listing
import IntervalAutomata.Automaton.Run
import IntervalAutomata.Automaton.Sweep
import IntervalAutomata.Binary.Checksum
import IntervalAutomata.Binary.Decode
import IntervalAutomata.Binary.Encode
import IntervalAutomata.Binary.Header
import IntervalAutomata.Binary.Word
import IntervalAutomata.Compile
import IntervalAutomata.CycleSearch
import IntervalAutomata.DepthFirst
import IntervalAutomata.Determinize
import IntervalAutomata.Exploration
import IntervalAutomata.Graph.Basic
import IntervalAutomata.Graph.Closure
import IntervalAutomata.Graph.Copy
import IntervalAutomata.Graph.Flatten
import IntervalAutomata.Graph.Fragment
import IntervalAutomata.Graph.Listing
import IntervalAutomata.Graph.Repetition
import IntervalAutomata.Graph.Search
import IntervalAutomata.Interval
import IntervalAutomata.Interval.Segments
import IntervalAutomata.Journal
import IntervalAutomata.Json.Container
import IntervalAutomata.Json.Lexeme
import IntervalAutomata.Json.Magnitude
import IntervalAutomata.Limits
import IntervalAutomata.Match.Matcher
import IntervalAutomata.Match.Search
import IntervalAutomata.Match.Trace
import IntervalAutomata.Minimize
import IntervalAutomata.Operation.Analysis
import IntervalAutomata.Operation.Complement
import IntervalAutomata.Operation.Product
import IntervalAutomata.Operation.Regular
import IntervalAutomata.Operation.Trim
import IntervalAutomata.Partition
import IntervalAutomata.Pattern.Basic
import IntervalAutomata.Pattern.Display
import IntervalAutomata.Pattern.Json
import IntervalAutomata.Proofs.Acceptors
import IntervalAutomata.Proofs.Ascending
import IntervalAutomata.Proofs.Assembly
import IntervalAutomata.Proofs.BreadthFirst
import IntervalAutomata.Proofs.Build
import IntervalAutomata.Proofs.Canonical
import IntervalAutomata.Proofs.Closure
import IntervalAutomata.Proofs.Coalesce
import IntervalAutomata.Proofs.Compilation
import IntervalAutomata.Proofs.Complement
import IntervalAutomata.Proofs.Completion
import IntervalAutomata.Proofs.Construction
import IntervalAutomata.Proofs.Cycles
import IntervalAutomata.Proofs.Denotation
import IntervalAutomata.Proofs.Exploration
import IntervalAutomata.Proofs.Flatten
import IntervalAutomata.Proofs.Fragments
import IntervalAutomata.Proofs.GraphPaths
import IntervalAutomata.Proofs.GraphSearch
import IntervalAutomata.Proofs.Interval
import IntervalAutomata.Proofs.MinimalForm
import IntervalAutomata.Proofs.Minimization
import IntervalAutomata.Proofs.Partition
import IntervalAutomata.Proofs.Paths
import IntervalAutomata.Proofs.Product
import IntervalAutomata.Proofs.Reduce
import IntervalAutomata.Proofs.Refinement
import IntervalAutomata.Proofs.Running
import IntervalAutomata.Proofs.Segments
import IntervalAutomata.Proofs.SubsetConstruction
import IntervalAutomata.Proofs.Sweep
import IntervalAutomata.Proofs.Trim
import IntervalAutomata.Proofs.Unrolling
import IntervalAutomata.Report
import IntervalAutomata.Text.Invisible
import IntervalAutomata.Text.Numeral
import IntervalAutomata.Text.Offset
import IntervalAutomata.Transducer.Basic
import IntervalAutomata.Transducer.Image
import IntervalAutomata.Transducer.Listing
import IntervalAutomata.Proofs.Acceptance
import IntervalAutomata.Proofs.Regular
import IntervalAutomata.Proofs.BooleanAlgebra
import IntervalAutomata.Proofs.Decoding
import IntervalAutomata.Proofs.RegularAlgebra
import IntervalAutomata.Proofs.RoundTrip
import IntervalAutomata.Binary.Guarded
import IntervalAutomata.Proofs.Guarded
import IntervalAutomata.Proofs.GuardedStates
import IntervalAutomata.Proofs.GuardedSweep
import IntervalAutomata.Proofs.SafeDecoding
import IntervalAutomata.Proofs.Image
import IntervalAutomata.Proofs.LongestMatch
import IntervalAutomata.Proofs.MatchSearch
import IntervalAutomata.Proofs.MinimalMark
import IntervalAutomata.Proofs.Mutation
import IntervalAutomata.Proofs.TruthfulMarks
import IntervalAutomata.Proofs.Transduction
import IntervalAutomata.Proofs.Ceilings
import IntervalAutomata.Proofs.Reencoding
import IntervalAutomata.Proofs.Arrays
import IntervalAutomata.Proofs.Combinators
import IntervalAutomata.Proofs.Emptiness
import IntervalAutomata.Proofs.ShortestExample
import IntervalAutomata.Proofs.KnownText
import IntervalAutomata.Proofs.Schedule
import IntervalAutomata.Proofs.Inclusion
import IntervalAutomata.Proofs.FlatFragments
import IntervalAutomata.Proofs.JsonLexemes
import IntervalAutomata.Proofs.PatternCodec
import IntervalAutomata.Proofs.Finiteness
import IntervalAutomata.Proofs.Totality
import IntervalAutomata.Proofs.LeastExample
import IntervalAutomata.Proofs.LongestAt
import IntervalAutomata.Proofs.ReducedForm
import IntervalAutomata.Proofs.TrimmedForm
import IntervalAutomata.Proofs.CompilationErrors
import IntervalAutomata.Proofs.InPlace
import IntervalAutomata.Proofs.RepetitionCost
import IntervalAutomata.Proofs.Traces
import IntervalAutomata.Proofs.Literals
import IntervalAutomata.Proofs.InsertionOrder
import IntervalAutomata.Proofs.PartitionRounds
import IntervalAutomata.Proofs.UniformSegments
import IntervalAutomata.Proofs.IsolatedCopies
import IntervalAutomata.Proofs.Regrouping
import IntervalAutomata.Proofs.SelfDelimiting
import IntervalAutomata.Proofs.Display
