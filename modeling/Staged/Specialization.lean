import Staged.Exploration
import Staged.Graph.Compilation
import Staged.Settings

/-!
Specialization of a body: its flow graph, and how the paths through it end where the variables of a
scope are known at the start.
-/

namespace Staged

inductive SpecializeError where
  | settings (e : SettingsError)
  | evaluation (e : EvalError)
  deriving Repr

namespace SpecializeError

def message : SpecializeError → String
  | settings e => "Configuration error: " ++ e.message
  | evaluation e => "Evaluation error: " ++ e.message

end SpecializeError

structure Specialization where
  graph : FlowGraph
  entry : PointId
  exploration : Exploration

/-- Settings out of range are refused before anything is explored. -/
def Stmt.specialize (body : Stmt) (scope : Scope) (settings : Settings) :
    Except SpecializeError Specialization := do
  settings.explorer.validate.mapError .settings
  let (entry, graph) := body.graph
  let exploration ← (graph.explore settings.explorer ⟨entry, scope⟩).mapError .evaluation
  return { graph, entry, exploration }

end Staged
