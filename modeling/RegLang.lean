import RegLang.Alphabet
import RegLang.Automaton.Basic
import RegLang.Automaton.Combine
import RegLang.Automaton.Compare
import RegLang.Automaton.Iterate
import RegLang.Automaton.Product
import RegLang.Automaton.Run
import RegLang.Checked.ActiveLists
import RegLang.Checked.Comparison
import RegLang.Checked.Compile
import RegLang.Checked.Graphs
import RegLang.Checked.Interval
import RegLang.Checked.Marking
import RegLang.Checked.Operations
import RegLang.Checked.Quotient
import RegLang.Checked.Refinement
import RegLang.Checked.Runs
import RegLang.Checked.Subsets
import RegLang.Checked.Table
import RegLang.Checked.Tours
import RegLang.EpsilonClosure
import RegLang.Expr.Basic
import RegLang.Expr.Compile
import RegLang.Expr.Parser
import RegLang.Expr.Printer
import RegLang.Fault
import RegLang.Graph.Basic
import RegLang.Graph.Edit
import RegLang.Graph.Link
import RegLang.Graph.Normal
import RegLang.Graph.Reachable
import RegLang.Graph.Subsets
import RegLang.Graph.Unfold
import RegLang.Minimize.Algorithm
import RegLang.Minimize.Marking
import RegLang.Minimize.Quotient
import RegLang.Minimize.Refinement
import RegLang.Numeral
import RegLang.Options
import RegLang.Overlap
import RegLang.Primitive.Basic
import RegLang.Primitive.Digits
import RegLang.Primitive.Interval
import RegLang.Primitive.Substring
import RegLang.Proofs.Absorption
import RegLang.Proofs.ActiveLists
import RegLang.Proofs.Anchors
import RegLang.Proofs.AutomatonTexts
import RegLang.Proofs.BooleanOperations
import RegLang.Proofs.BreadthFirst
import RegLang.Proofs.Caching
import RegLang.Proofs.Canonical
import RegLang.Proofs.Chaining
import RegLang.Proofs.CheckedGraphs
import RegLang.Proofs.CheckedIntervals
import RegLang.Proofs.CheckedMarking
import RegLang.Proofs.CheckedOperations
import RegLang.Proofs.CheckedQuotients
import RegLang.Proofs.CheckedSubsets
import RegLang.Proofs.Compilation
import RegLang.Proofs.Counting
import RegLang.Proofs.Covering
import RegLang.Proofs.Cursors
import RegLang.Proofs.Cycles
import RegLang.Proofs.DecimalFormats
import RegLang.Proofs.Determinism
import RegLang.Proofs.Determinization
import RegLang.Proofs.Digits
import RegLang.Proofs.Distinguishing
import RegLang.Proofs.Dividing
import RegLang.Proofs.Draws
import RegLang.Proofs.EdgeClosure
import RegLang.Proofs.Endings
import RegLang.Proofs.Escapes
import RegLang.Proofs.Exploration
import RegLang.Proofs.FiniteWalks
import RegLang.Proofs.FiniteWords
import RegLang.Proofs.Grouping
import RegLang.Proofs.Handovers
import RegLang.Proofs.HashCodes
import RegLang.Proofs.Idempotence
import RegLang.Proofs.Inclusion
import RegLang.Proofs.Intervals
import RegLang.Proofs.Iteration
import RegLang.Proofs.Letters
import RegLang.Proofs.Levels
import RegLang.Proofs.Linking
import RegLang.Proofs.Machine
import RegLang.Proofs.MarkedClasses
import RegLang.Proofs.Marks
import RegLang.Proofs.Merging
import RegLang.Proofs.Minimality
import RegLang.Proofs.Minimization
import RegLang.Proofs.NormalForms
import RegLang.Proofs.Numbers
import RegLang.Proofs.Operations
import RegLang.Proofs.Overlaps
import RegLang.Proofs.Parsing
import RegLang.Proofs.Parts
import RegLang.Proofs.Pieces
import RegLang.Proofs.Primitives
import RegLang.Proofs.PrintedIntervals
import RegLang.Proofs.Printing
import RegLang.Proofs.Product
import RegLang.Proofs.Proper
import RegLang.Proofs.Quotients
import RegLang.Proofs.Readers
import RegLang.Proofs.Reducing
import RegLang.Proofs.RefinedClasses
import RegLang.Proofs.RefinementTables
import RegLang.Proofs.Refining
import RegLang.Proofs.Reversal
import RegLang.Proofs.Running
import RegLang.Proofs.Sessions
import RegLang.Proofs.SetHistories
import RegLang.Proofs.ShortestWords
import RegLang.Proofs.SignificantDigits
import RegLang.Proofs.SimpleQuestions
import RegLang.Proofs.Simulation
import RegLang.Proofs.Splitting
import RegLang.Proofs.StartPoints
import RegLang.Proofs.StateSets
import RegLang.Proofs.Subsets
import RegLang.Proofs.Substrings
import RegLang.Proofs.TabledClasses
import RegLang.Proofs.Tasks
import RegLang.Proofs.Totality
import RegLang.Proofs.Totalizing
import RegLang.Proofs.Tours
import RegLang.Proofs.Trimming
import RegLang.Proofs.Unfolding
import RegLang.Proofs.Union
import RegLang.Proofs.Walks
import RegLang.Query.Count
import RegLang.Query.Finite
import RegLang.Query.Shortest
import RegLang.Random.Walk
import RegLang.Random.Words
import RegLang.Result
import RegLang.Sampler
import RegLang.Semantics.Acceptance
import RegLang.Semantics.Denotation
import RegLang.Semantics.Discovery
import RegLang.Semantics.EmptyEdges
import RegLang.Semantics.Folding
import RegLang.Semantics.Grammar
import RegLang.Semantics.History
import RegLang.Semantics.Minimizing
import RegLang.Semantics.Path
import RegLang.Semantics.Searching
import RegLang.Semantics.Shortlex
import RegLang.Semantics.Words
import RegLang.SortedList
import RegLang.State
import RegLang.StateSet
import RegLang.Text.Automaton
import RegLang.Text.Dot
import RegLang.Text.Letter
import RegLang.Transition
import RegLang.Worklist
