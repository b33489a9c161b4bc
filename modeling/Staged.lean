import Staged.BindingTime
import Staged.Flow.Table
import Staged.Specialization
import Staged.Proofs.Eval.Basic
import Staged.Proofs.Text.Numeral
import Staged.Proofs.Text.Quoted
import Staged.Proofs.Eval.Staging
import Staged.Proofs.Step.Resumption
import Staged.Proofs.Exploration.Resumption
import Staged.Proofs.Division
import Staged.Proofs.Solution.Constraint
import Staged.Proofs.Solution.Sweep
import Staged.Proofs.Dependency
import Staged.Proofs.Solution.Greatest
import Staged.Proofs.Graph.Embedding
import Staged.Proofs.Graph.Behaviour
import Staged.Proofs.Exploration.Levels
import Staged.Proofs.Solution.ClosedForm
import Staged.Proofs.Solution.Definitions
import Staged.Proofs.Step.Decided
import Staged.Proofs.Graph.Targets
import Staged.Proofs.BindingTime.Agreement
import Staged.Proofs.BindingTime.Folding
import Staged.Proofs.Solution.Comparison
import Staged.Proofs.Graph.Goto
import Staged.Proofs.Eval.Denotation
import Staged.Proofs.Step.Refinement
import Staged.Proofs.BindingTime.Loops
import Staged.Proofs.Renaming.Exploration
import Staged.Proofs.Eval.Failure
import Staged.Proofs.Step.Branching
import Staged.Proofs.Dependency.Rounds
import Staged.Proofs.Solution.Endless
import Staged.Proofs.Solution.Course
import Staged.Proofs.Dependency.Walk
import Staged.Proofs.Text.Grammar
import Staged.Proofs.Eval.Strings
import Staged.Proofs.Text.Integer
import Staged.Proofs.Value.Arithmetic
import Staged.Proofs.Eval.Reading
import Staged.Proofs.BindingTime.Choices
import Staged.Proofs.Eval.Order
import Staged.Proofs.Step.Assignment
import Staged.Proofs.Graph.Relation
import Staged.Proofs.Graph.Blocks
import Staged.Proofs.Graph.Closed
import Staged.Proofs.Exploration.Completion
import Staged.Proofs.Step.Grouping
import Staged.Proofs.Settings.File
import Staged.Proofs.Dependency.Closures
import Staged.Proofs.Scope
