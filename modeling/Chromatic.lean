import Chromatic.Assignment
import Chromatic.Branching.FewestColours
import Chromatic.Branching.LeastConstraining
import Chromatic.Branching.Scripted
import Chromatic.Branching.TieBreaker
import Chromatic.Branching.View
import Chromatic.CommandLine.Execution
import Chromatic.CommandLine.Invocation
import Chromatic.Domain.Basic
import Chromatic.Domain.Store
import Chromatic.Event
import Chromatic.Family
import Chromatic.Fault
import Chromatic.Graph
import Chromatic.Instance
import Chromatic.Limit
import Chromatic.Main
import Chromatic.Order.Ascending
import Chromatic.Order.Countdown
import Chromatic.Problem
import Chromatic.Propagation
import Chromatic.Search.Progress
import Chromatic.Search.Run
import Chromatic.Search.State
import Chromatic.Search.Step
import Chromatic.Solution
import Chromatic.Solver
import Chromatic.Statistics.Casing
import Chromatic.Statistics.Ledger
import Chromatic.Statistics.Name
import Chromatic.Table
import Chromatic.Text.Blank
import Chromatic.Text.Integer
import Chromatic.Text.Pieces
import Chromatic.Trail
import Chromatic.Variable
import Chromatic.Verdict
import Chromatic.Proofs.Domain.Reduction
import Chromatic.Proofs.Propagation.Soundness
import Chromatic.Proofs.Search.Recursion
import Chromatic.Proofs.Search.Refinement
import Chromatic.Proofs.Search.Attempt
import Chromatic.Proofs.Search.Root
import Chromatic.Proofs.Search.Proper
import Chromatic.Proofs.Branching.Alternating
import Chromatic.Proofs.Branching.Contract
import Chromatic.Proofs.Branching.TieBreaker
import Chromatic.Proofs.Branching.FewestColours
import Chromatic.Proofs.Branching.LeastConstraining
import Chromatic.Proofs.Limit
import Chromatic.Proofs.Search.Completeness
import Chromatic.Proofs.Propagation.Consistency
import Chromatic.Proofs.Propagation.Copying
import Chromatic.Proofs.Search.Copying
import Chromatic.Proofs.Search.Return
import Chromatic.Proofs.Problem.Colourable
import Chromatic.Proofs.Solver.Decision
import Chromatic.Proofs.Propagation.ArcConsistency
import Chromatic.Proofs.Search.Prepared
import Chromatic.Proofs.Search.Stack
import Chromatic.Proofs.Search.Symmetry
import Chromatic.Proofs.Search.GapFree
import Chromatic.Proofs.Solver.Reached
import Chromatic.Proofs.Solver.GapFree
import Chromatic.Proofs.Search.SpareColours
import Chromatic.Proofs.Search.SurplusColours
import Chromatic.Proofs.Propagation.Largest
import Chromatic.Proofs.Search.ConflictFree
import Chromatic.Proofs.Solver.ConflictFree
import Chromatic.Proofs.Domain.Undoing
import Chromatic.Proofs.Search.Allowance
import Chromatic.Proofs.Solver.Budget
import Chromatic.Proofs.Search.Past
import Chromatic.Proofs.Solver.Repetition
import Chromatic.Proofs.Problem.Tables
import Chromatic.Proofs.Solver.Faultless
import Chromatic.Proofs.Search.BacktrackFree
import Chromatic.Proofs.Solver.BacktrackFree
import Chromatic.Proofs.Search.Effort
import Chromatic.Proofs.Search.Carrying
import Chromatic.Proofs.Search.Relabelling
import Chromatic.Proofs.Solver.Relabelling
import Chromatic.Proofs.Problem.Additions
import Chromatic.Proofs.Solver.Rephrasing
import Chromatic.Proofs.Problem.Renaming
import Chromatic.Proofs.Text.Trimming
import Chromatic.Proofs.Text.Pieces
import Chromatic.Proofs.Instance.Encoding
import Chromatic.Proofs.Problem.Merging
import Chromatic.Proofs.Instance.Composition
import Chromatic.Proofs.Text.Integer
import Chromatic.Proofs.Instance.Statement
import Chromatic.Proofs.Instance.Format
import Chromatic.Proofs.Instance.Line
import Chromatic.Proofs.Instance.Rendering
import Chromatic.Proofs.Solution.Line
import Chromatic.Proofs.Solver.Answer
import Chromatic.Proofs.CommandLine.Execution
import Chromatic.Proofs.Propagation.Accounting
import Chromatic.Proofs.Solver.Refusal
import Chromatic.Proofs.Search.Completion
import Chromatic.Proofs.Solver.Completion
import Chromatic.Proofs.Search.Accounting
import Chromatic.Proofs.Problem.Calls
import Chromatic.Proofs.Problem.Depiction
import Chromatic.Proofs.Problem.Violation
import Chromatic.Proofs.Solver.Acceptance
