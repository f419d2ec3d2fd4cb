import Atlantide.Graph.Build
import Atlantide.Reconcile.Changes

/-! # Persisted state read back as a graph -/

namespace Atlantide

/-- Each row stands under its own id. -/
def StateGraph.Keyed (state : StateGraph) : Prop :=
  ∀ (nodeId : String) (row : StateNode), state[nodeId]? = some row → row.id = nodeId

/-- A row as a node of the graph: its edges to ids absent from state are dropped. -/
def StateNode.irNode (row : StateNode) (present : StateGraph) : IRNode where
  id := row.id
  type := row.type
  provider := row.provider
  providerVersion := row.providerVersion
  properties := ∅
  dependencies := row.dependencies.filter (· ∈ present)
  dependsOn := row.dependsOn.filter (· ∈ present)

def irFromState (state : StateGraph) : IRGraph :=
  ⟨state.toList.map fun entry => entry.2.irNode state⟩

/-- The dependency graph recorded in state, for the order of destroys. -/
def stateDigraph (state : StateGraph) : Except GraphFault DiGraph := buildGraph (irFromState state)

/-- Every id the row names. -/
def StateNode.edges (row : StateNode) : List String := row.dependencies ++ row.dependsOn

/-- The nodes read back are those of the rows. -/
theorem irFromState_byId {state : StateGraph} (hkeyed : state.Keyed) {nodeId : String}
    {node : IRNode} : (irFromState state).byId[nodeId]? = some node ↔
      ∃ row, state[nodeId]? = some row ∧ node = row.irNode state := by
  have hids : ((irFromState state).nodes.map (·.id)) = state.keys := by
    rw [← Std.ExtTreeMap.map_fst_toList_eq_keys, irFromState, List.map_map]
    refine List.map_congr_left fun entry hmem => ?_
    exact hkeyed entry.1 entry.2 (Std.ExtTreeMap.mem_toList_iff_getElem?_eq_some.mp hmem)
  rw [IRGraph.byId, getElem?_foldl_insert (hids ▸ Std.ExtTreeMap.nodup_keys)]
  simp only [Std.ExtTreeMap.getElem?_empty, reduceCtorEq, false_and, or_false, irFromState,
    List.mem_map, Prod.exists, Std.ExtTreeMap.mem_toList_iff_getElem?_eq_some]
  constructor
  · rintro ⟨⟨key, row, hrow, rfl⟩, hid⟩
    obtain rfl : key = nodeId := (hkeyed key row hrow).symm.trans hid
    exact ⟨row, hrow, rfl⟩
  · rintro ⟨row, hrow, rfl⟩
    exact ⟨⟨nodeId, row, hrow, rfl⟩, hkeyed nodeId row hrow⟩

/-- The edges read back: those the rows name, to ids that are there. -/
theorem mem_edgesOf_irFromState {state : StateGraph} (hkeyed : state.Keyed) {nodeId dep : String} :
    dep ∈ (irFromState state).edgesOf nodeId ↔
      ∃ row, state[nodeId]? = some row ∧ dep ∈ row.edges ∧ dep ∈ state := by
  have hedges : ∀ row : StateNode, dep ∈ (row.irNode state).edges ↔ dep ∈ row.edges ∧ dep ∈ state := by
    intro row
    rw [IRNode.edges, mem_sortedSet, StateNode.irNode, ← List.filter_append, List.mem_filter]
    simp [StateNode.edges]
  rw [IRGraph.edgesOf]
  constructor
  · intro hedge
    split at hedge
    next node hfound =>
      obtain ⟨row, hrow, rfl⟩ := (irFromState_byId hkeyed).mp hfound
      exact ⟨row, hrow, (hedges row).mp hedge⟩
    next => cases hedge
  · rintro ⟨row, hrow, hedge⟩
    rw [(irFromState_byId hkeyed).mpr ⟨row, hrow, rfl⟩]
    exact (hedges row).mpr hedge

/-- The rows make a graph exactly when no row waits for itself: every edge leads to a row. -/
theorem stateDigraph_isOk {state : StateGraph} (hkeyed : state.Keyed) :
    (∃ graph, stateDigraph state = .ok graph) ↔ (irFromState state).Acyclic := by
  constructor
  · rintro ⟨graph, hgraph⟩
    exact (buildGraph_eq_ok.mp hgraph).2.2
  · intro hacyclic
    refine ⟨_, buildGraph_eq_ok.mpr ⟨rfl, fun nodeId dep hedge => ?_, hacyclic⟩⟩
    obtain ⟨row, -, -, hpresent⟩ := (mem_edgesOf_irFromState hkeyed).mp hedge
    obtain ⟨other, hother⟩ := Option.isSome_iff_exists.mp
      (Std.ExtTreeMap.mem_iff_isSome_getElem?.mp hpresent)
    rw [Std.ExtTreeMap.mem_iff_isSome_getElem?, (irFromState_byId hkeyed).mpr ⟨other, hother, rfl⟩]
    rfl

end Atlantide
