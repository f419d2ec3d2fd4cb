import Mathlib.Data.String.Basic
import Atlantide.Graph.Build
import Atlantide.Lib.Fallible
import Atlantide.Lib.Tarjan

/-! # The cycles a graph is rejected for

Building a graph checks every edge's end, then walks the graph for its strongly connected
components. What is reported are all of them of more than one node, and every node that depends on
itself. -/

namespace Atlantide

inductive BuildFault
  /-- A node depends on an id that is not there. -/
  | irError (nodeId dep : String)
  | cycleError (cycles : List (List String))
  /-- The walk's rounds ran out. -/
  | rounds
  deriving DecidableEq

namespace IRGraph

/-- `sorted(n.id for n in ir.nodes)`. -/
def nodeIds (ir : IRGraph) : List String :=
  (ir.nodes.map (·.id)).mergeSort fun a b => decide (a ≤ b)

/-- Both directions of the edges, or the first edge whose end is not known. -/
def adjacency (ir : IRGraph) : Except BuildFault DiGraph :=
  let known := ir.nodes.map (·.id)
  let unknown := ir.nodes.findSome? fun node =>
    (node.edges.find? (· ∉ known)).map fun dep => (node.id, dep)
  match unknown with
  | some (nodeId, dep) => .error (.irError nodeId dep)
  | none => .ok {
      nodeIds := ir.nodeIds
      deps := ir.edgesOf
      dependents := fun dep =>
        ((ir.nodes.filter fun node => dep ∈ node.edges).map (·.id)).mergeSort
          fun a b => decide (a ≤ b) }

/-- `build_graph`, with the cycles it reports. -/
def build (ir : IRGraph) : Except BuildFault DiGraph := do
  let graph ← ir.adjacency
  match Tarjan.findCycles graph.nodeIds graph.deps with
  | none => .error .rounds
  | some cycles => if cycles = [] then return graph else .error (.cycleError cycles)

section

variable {ir : IRGraph}

theorem mem_nodeIds {nodeId : String} : nodeId ∈ ir.nodeIds ↔ nodeId ∈ ir.nodes.map (·.id) :=
  List.mem_mergeSort

/-- An edge is one of some node of its id. -/
theorem exists_of_mem_edgesOf {nodeId dep : String} (hedge : dep ∈ ir.edgesOf nodeId) :
    ∃ node ∈ ir.nodes, node.id = nodeId ∧ dep ∈ node.edges := by
  unfold edgesOf at hedge
  split at hedge
  next node hnode =>
    rcases mem_of_getElem?_foldl_insert hnode with ⟨hmem, hid⟩ | hnone
    · exact ⟨node, hmem, hid, hedge⟩
    · rw [Std.ExtTreeMap.getElem?_empty] at hnone
      cases hnone
  next => cases hedge

theorem adjacency_eq_ok (hknown : ∀ node ∈ ir.nodes, ∀ dep ∈ node.edges,
    dep ∈ ir.nodes.map (·.id)) :
    ∃ graph, ir.adjacency = .ok graph ∧ graph.nodeIds = ir.nodeIds ∧ graph.deps = ir.edgesOf := by
  have hnone : (ir.nodes.findSome? fun node =>
      (node.edges.find? (· ∉ ir.nodes.map (·.id))).map fun dep => (node.id, dep)) = none := by
    simp only [List.findSome?_eq_none_iff, Option.map_eq_none_iff, List.find?_eq_none,
      decide_eq_true_eq, not_not]
    exact hknown
  rw [adjacency]
  simp only [hnone]
  exact ⟨_, rfl, rfl, rfl⟩

theorem adjacency_eq_ok_iff : (∃ graph, ir.adjacency = .ok graph) ↔
    ∀ node ∈ ir.nodes, ∀ dep ∈ node.edges, dep ∈ ir.nodes.map (·.id) := by
  constructor
  · rintro ⟨graph, hok⟩
    rw [adjacency] at hok
    split at hok
    next => cases hok
    next hnone =>
      simpa only [List.findSome?_eq_none_iff, Option.map_eq_none_iff, List.find?_eq_none,
        decide_eq_true_eq, not_not] using hnone
  · intro hknown
    obtain ⟨graph, hgraph, _⟩ := adjacency_eq_ok hknown
    exact ⟨graph, hgraph⟩

theorem mem_byId {nodeId : String} : nodeId ∈ ir.byId ↔ nodeId ∈ ir.nodes.map (·.id) := by
  constructor
  · intro hmem
    obtain ⟨node, hnode⟩ := Option.isSome_iff_exists.mp
      (Std.ExtTreeMap.mem_iff_isSome_getElem?.mp hmem)
    rcases mem_of_getElem?_foldl_insert hnode with ⟨hmem, hid⟩ | hnone
    · exact hid ▸ List.mem_map_of_mem hmem
    · rw [Std.ExtTreeMap.getElem?_empty] at hnone
      cases hnone
  · exact fun hmem => mem_foldl_insert (.inl hmem)

/-- A cycle shows as a node that depends on itself or as a component of more than one node. -/
theorem acyclic_iff : ir.Acyclic ↔
    ∀ nodeId ∈ ir.nodeIds, nodeId ∉ ir.edgesOf nodeId ∧
      ∀ other ≠ nodeId, Tarjan.Leads ir.edgesOf nodeId other →
        ¬ Tarjan.Leads ir.edgesOf other nodeId := by
  constructor
  · intro hacyclic nodeId _
    refine ⟨fun hself => hacyclic nodeId (.single hself), fun other hne hthere hback => ?_⟩
    have hcycle : Relation.TransGen (Closure.Step ir.edgesOf) nodeId other :=
      (Relation.reflTransGen_iff_eq_or_transGen.mp hthere).resolve_left hne
    exact hacyclic nodeId (hcycle.trans_left hback)
  · intro hall nodeId hcycle
    obtain ⟨next, hedge, hback⟩ := Relation.TransGen.head'_iff.mp hcycle
    obtain ⟨node, hnode, hid, _⟩ := exists_of_mem_edgesOf hedge
    have hmem : nodeId ∈ ir.nodeIds := mem_nodeIds.mpr (hid ▸ List.mem_map_of_mem hnode)
    obtain ⟨hloop, hmutual⟩ := hall nodeId hmem
    by_cases hsame : next = nodeId
    · exact hloop (hsame ▸ hedge)
    · exact hmutual next hsame (.single hedge) hback

/-- How building ends when every edge's end is known. -/
theorem build_cases (hknown : ∀ node ∈ ir.nodes, ∀ dep ∈ node.edges, dep ∈ ir.nodes.map (·.id)) :
    ∃ graph cycles, ir.build = (if cycles = [] then .ok graph else .error (.cycleError cycles)) ∧
      (ir.Acyclic ↔ cycles = []) ∧
      (∀ members, members ∈ cycles ↔
        (∃ nodeId ∈ ir.nodeIds, Tarjan.Component ir.edgesOf nodeId members) ∨
          ∃ nodeId ∈ ir.nodeIds, nodeId ∈ ir.edgesOf nodeId ∧ members = [nodeId]) ∧
      (ir.nodeIds.Nodup → cycles.Nodup) := by
  obtain ⟨graph, hgraph, hids, hdeps⟩ := adjacency_eq_ok hknown
  have hclosed : ∀ nodeId ∈ ir.nodeIds, ∀ dep ∈ ir.edgesOf nodeId, dep ∈ ir.nodeIds := by
    intro nodeId _ dep hedge
    obtain ⟨node, hnode, _, hdep⟩ := exists_of_mem_edgesOf hedge
    exact mem_nodeIds.mpr (hknown node hnode dep hdep)
  obtain ⟨cycles, hcycles, hexact, hcomplete, honce⟩ := Tarjan.findCycles_exact hclosed
  refine ⟨graph, cycles, ?_, ?_, hexact, honce⟩
  · rw [build, hgraph, Fallible.bind_of_ok rfl, hids, hdeps, hcycles]
    rfl
  · rw [acyclic_iff, List.eq_nil_iff_forall_not_mem]
    constructor
    · intro hall members hmembers
      rcases (hexact members).mp hmembers with
        ⟨nodeId, hnode, hcomponent⟩ | ⟨nodeId, hnode, hself, _⟩
      · obtain ⟨other, hother, hne⟩ := hcomponent.exists_ne
        obtain ⟨hthere, hback⟩ := (hcomponent.exact other).mp hother
        exact (hall nodeId hnode).2 other hne hthere hback
      · exact (hall nodeId hnode).1 hself
    · intro hnone nodeId hnode
      refine ⟨fun hself => hnone [nodeId] ((hexact _).mpr (.inr ⟨nodeId, hnode, hself, rfl⟩)), ?_⟩
      intro other hne hthere hback
      obtain ⟨members, hmembers, _⟩ := hcomplete nodeId hnode other hne hthere hback
      exact hnone members hmembers

theorem build_ok_iff
    (hknown : ∀ node ∈ ir.nodes, ∀ dep ∈ node.edges, dep ∈ ir.nodes.map (·.id)) :
    (∃ graph, ir.build = .ok graph) ↔ ir.Acyclic := by
  obtain ⟨graph, cycles, hbuild, hacyclic, _⟩ := build_cases hknown
  rw [hacyclic, hbuild]
  split
  next hnone => exact iff_of_true ⟨graph, rfl⟩ hnone
  next hsome => exact iff_of_false (fun ⟨_, hok⟩ => by cases hok) hsome

end

/-- **Building a graph finds its cycles exactly.** It succeeds when no node waits for itself and
otherwise reports each strongly connected component of more than one node, its members sorted, and
each node that depends on itself; all of them once when no id is declared twice. -/
theorem build_exact (ir : IRGraph)
    (hknown : ∀ node ∈ ir.nodes, ∀ dep ∈ node.edges, dep ∈ ir.nodes.map (·.id)) :
    ((∃ graph, ir.build = .ok graph) ↔ ir.Acyclic) ∧
      (¬ ir.Acyclic → ∃ cycles, ir.build = .error (.cycleError cycles) ∧
        (∀ members, members ∈ cycles ↔
          (∃ nodeId ∈ ir.nodeIds, Tarjan.Component ir.edgesOf nodeId members) ∨
            ∃ nodeId ∈ ir.nodeIds, nodeId ∈ ir.edgesOf nodeId ∧ members = [nodeId]) ∧
        (ir.nodeIds.Nodup → cycles.Nodup)) := by
  refine ⟨build_ok_iff hknown, fun hcyclic => ?_⟩
  obtain ⟨graph, cycles, hbuild, hacyclic, hexact, honce⟩ := build_cases hknown
  rw [if_neg fun hnone => hcyclic (hacyclic.mpr hnone)] at hbuild
  exact ⟨cycles, hbuild, hexact, honce⟩

/-- Two nodes that wait for each other and one that waits for itself. -/
def entangled : IRGraph where
  nodes := [("a", ["b"]), ("b", ["a"]), ("c", ["c"])].map fun (id, dependencies) =>
    { id, type := "t", provider := "p", providerVersion := "", properties := ∅, dependencies }

theorem build_exact_entangled : ¬ entangled.Acyclic ∧
    ∃ cycles, entangled.build = .error (.cycleError cycles) ∧
      (∀ members, members ∈ cycles ↔
        (∃ nodeId ∈ entangled.nodeIds, Tarjan.Component entangled.edgesOf nodeId members) ∨
          ∃ nodeId ∈ entangled.nodeIds,
            nodeId ∈ entangled.edgesOf nodeId ∧ members = [nodeId]) := by
  have hself : "c" ∈ entangled.edgesOf "c" := by decide +kernel
  have hcyclic : ¬ entangled.Acyclic := fun hacyclic => hacyclic "c" (.single hself)
  obtain ⟨cycles, hbuild, hexact, _⟩ := (build_exact entangled (by decide +kernel)).2 hcyclic
  exact ⟨hcyclic, cycles, hbuild, hexact⟩

/-- Where no id is declared twice, a graph is built exactly when deciding about its cycles builds
it. -/
theorem build_ok_iff_buildGraph (ir : IRGraph) (hdistinct : (ir.nodes.map (·.id)).Nodup) :
    (∃ graph, ir.build = .ok graph) ↔ ∃ graph, buildGraph ir = .ok graph := by
  have hknown : (∀ nodeId, ∀ dep ∈ ir.edgesOf nodeId, dep ∈ ir.byId) ↔
      ∀ node ∈ ir.nodes, ∀ dep ∈ node.edges, dep ∈ ir.nodes.map (·.id) := by
    constructor
    · intro hall node hnode dep hdep
      have hfound : ir.byId[node.id]? = some node :=
        (getElem?_foldl_insert hdistinct).mpr (.inl ⟨hnode, rfl⟩)
      apply mem_byId.mp
      apply hall node.id
      rw [edgesOf, hfound]
      exact hdep
    · intro hall nodeId dep hedge
      obtain ⟨node, hnode, _, hdep⟩ := exists_of_mem_edgesOf hedge
      exact mem_byId.mpr (hall node hnode dep hdep)
  simp only [buildGraph_eq_ok, hknown, exists_eq_left]
  by_cases hall : ∀ node ∈ ir.nodes, ∀ dep ∈ node.edges, dep ∈ ir.nodes.map (·.id)
  · rw [build_ok_iff hall, and_iff_right hall]
  · refine iff_of_false ?_ fun hboth => hall hboth.1
    rintro ⟨graph, hok⟩
    obtain ⟨graph, hgraph, _⟩ := Fallible.bind_eq_ok hok
    exact hall (adjacency_eq_ok_iff.mp ⟨graph, hgraph⟩)

end IRGraph

end Atlantide
