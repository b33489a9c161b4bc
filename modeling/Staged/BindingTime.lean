import Staged.Graph.Flow
import Staged.Graph.Compilation
import Staged.Solution

/-!
The binding-time analysis of a body: its flow graph, and for each reachable point the variables
that are known there, given those that are known at the start.
-/

namespace Staged

structure DependencyCounts where
  reachablePoints : Nat
  dataDeps : Nat
  /-- Loop dependencies on a choice. -/
  loopDeps : Nat
  /-- Loop dependencies without one. -/
  unboundedLoops : Nat
  deriving DecidableEq, Repr

def DependencyGraph.counts {P : Type} (g : DependencyGraph P) : DependencyCounts :=
  let nodes := g.nodes.toList
  let loopDeps := nodes.flatMap Node.loopDeps
  { reachablePoints := nodes.length
    dataDeps := (nodes.flatMap Node.dataDeps).length
    loopDeps := loopDeps.countP (· ≠ .unbounded)
    unboundedLoops := loopDeps.count .unbounded }

structure BindingTimes where
  graph : FlowGraph
  entry : PointId
  solution : Solution PointId
  counts : DependencyCounts

/-- The binding times of `body`, where `seed` is known at the start. -/
def Stmt.bindingTimes (body : Stmt) (resolve : Resolver) (seed : Division) : BindingTimes :=
  let (entry, graph) := body.graph
  let flow := graph.flow resolve entry
  let deps := flow.dependencies
  { graph, entry, solution := deps.solve flow.decides seed, counts := deps.counts }

end Staged
