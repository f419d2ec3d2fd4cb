import Mathlib.Tactic.ByContra
import Atlantide.Graph.Cbd

/-! # The dependency graph, and its rejection of cycles -/

namespace Atlantide

/-- Both directions of a graph's edges. -/
structure DiGraph where
  nodeIds : List String
  deps : String → List String
  dependents : String → List String

namespace DiGraph

/-- Nodes that must act before `nodeId` for the given direction. -/
def predecessors (graph : DiGraph) (nodeId : String) (reverse : Bool) : List String :=
  if reverse then graph.dependents nodeId else graph.deps nodeId

end DiGraph

namespace IRGraph

def digraph (ir : IRGraph) : DiGraph where
  nodeIds := ir.byId.keys
  deps := ir.edgesOf
  dependents dep := ir.byId.keys.filter fun nodeId => dep ∈ ir.edgesOf nodeId

/-- Whether some node reaches itself. -/
def hasCycle (ir : IRGraph) : Bool :=
  ir.byId.keys.any fun nodeId => (ir.edgesOf nodeId).any fun dep => nodeId ∈ cbdReach ir dep

/-- No node waits for itself. -/
def Acyclic (ir : IRGraph) : Prop :=
  ∀ nodeId, ¬ Relation.TransGen (Closure.Step ir.edgesOf) nodeId nodeId

end IRGraph

inductive GraphFault
  /-- A node depends on an id that is not there. -/
  | unknown (nodeId dep : String)
  | cycle
  deriving DecidableEq

def buildGraph (ir : IRGraph) : Except GraphFault DiGraph :=
  let unknown := ir.byId.keys.findSome? fun nodeId =>
    ((ir.edgesOf nodeId).find? (· ∉ ir.byId)).map fun dep => (nodeId, dep)
  match unknown with
  | some (nodeId, dep) => .error (.unknown nodeId dep)
  | none => if ir.hasCycle then .error .cycle else .ok ir.digraph

namespace IRGraph

theorem edgesOf_eq_nil {ir : IRGraph} {nodeId : String} (hnode : nodeId ∉ ir.byId) :
    ir.edgesOf nodeId = [] := by
  rw [edgesOf, Std.ExtTreeMap.getElem?_eq_none hnode]

/-- A node with an edge is declared. -/
theorem mem_byId_of_edge {ir : IRGraph} {nodeId dep : String} (hedge : dep ∈ ir.edgesOf nodeId) :
    nodeId ∈ ir.byId := by
  by_contra hnode
  rw [edgesOf_eq_nil hnode] at hedge
  cases hedge

theorem hasCycle_eq_false {ir : IRGraph} : ir.hasCycle = false ↔ ir.Acyclic := by
  have hcycle : ∀ nodeId, Relation.TransGen (Closure.Step ir.edgesOf) nodeId nodeId ↔
      nodeId ∈ ir.byId ∧ ∃ dep ∈ ir.edgesOf nodeId, nodeId ∈ cbdReach ir dep := by
    intro nodeId
    rw [Relation.TransGen.head'_iff]
    simp only [mem_cbdReach]
    constructor
    · rintro ⟨dep, hedge, hreach⟩
      exact ⟨mem_byId_of_edge hedge, dep, hedge, hreach⟩
    · rintro ⟨-, dep, hedge, hreach⟩
      exact ⟨dep, hedge, hreach⟩
  have hiff : ir.hasCycle = true ↔
      ∃ nodeId, Relation.TransGen (Closure.Step ir.edgesOf) nodeId nodeId := by
    simp only [hasCycle, List.any_eq_true, Std.ExtTreeMap.mem_keys, decide_eq_true_eq, hcycle]
  rw [← Bool.not_eq_true, hiff, not_exists]
  rfl

end IRGraph

/-- A graph is built exactly when every edge leads to a node and no node waits for itself. -/
theorem buildGraph_eq_ok {ir : IRGraph} {graph : DiGraph} : buildGraph ir = .ok graph ↔
    graph = ir.digraph ∧ (∀ nodeId, ∀ dep ∈ ir.edgesOf nodeId, dep ∈ ir.byId) ∧ ir.Acyclic := by
  have hknown : (ir.byId.keys.findSome? fun nodeId =>
      ((ir.edgesOf nodeId).find? (· ∉ ir.byId)).map fun dep => (nodeId, dep)) = none ↔
      ∀ nodeId, ∀ dep ∈ ir.edgesOf nodeId, dep ∈ ir.byId := by
    simp only [List.findSome?_eq_none_iff, Option.map_eq_none_iff, List.find?_eq_none,
      Std.ExtTreeMap.mem_keys, decide_eq_true_eq, not_not]
    constructor
    · intro hall nodeId dep hedge
      exact hall nodeId (IRGraph.mem_byId_of_edge hedge) dep hedge
    · intro hall nodeId _ dep hedge
      exact hall nodeId dep hedge
  rw [← IRGraph.hasCycle_eq_false, ← hknown]
  unfold buildGraph
  dsimp only
  split
  next hunknown =>
    rw [hunknown]
    simp
  next hnone =>
    rw [hnone]
    cases ir.hasCycle <;> simp [eq_comm]

end Atlantide
