import Mathlib.Data.String.Basic
import Atlantide.Graph.Build
import Atlantide.Lib.Kahn

/-! # Topological order

Dependencies first, or dependents first in reverse; ties are broken by id. -/

namespace Atlantide

/-- Nodes unblocked once `nodeId` has acted, for the given direction. -/
def DiGraph.successors (graph : DiGraph) (nodeId : String) (reverse : Bool) : List String :=
  if reverse then graph.deps nodeId else graph.dependents nodeId

def topologicalOrder (graph : DiGraph) (reverse : Bool := false) : List String :=
  Kahn.sort graph.nodeIds (graph.predecessors · reverse) (graph.successors · reverse)

theorem IRGraph.nodup_edgesOf (ir : IRGraph) (nodeId : String) : (ir.edgesOf nodeId).Nodup := by
  unfold edgesOf
  split
  · exact nodup_sortedSet _
  · exact List.nodup_nil

section

variable {ir : IRGraph} {graph : DiGraph}

/-- A graph that was built has its edges in both directions. -/
theorem buildGraph_converse (hbuilt : buildGraph ir = .ok graph) :
    Kahn.Converse graph.nodeIds graph.deps graph.dependents := by
  obtain ⟨rfl, hknown, -⟩ := buildGraph_eq_ok.mp hbuilt
  constructor
  · exact Std.ExtTreeMap.nodup_keys
  · exact fun nodeId _ => ir.nodup_edgesOf nodeId
  · exact fun _ _ => Std.ExtTreeMap.nodup_keys.filter _
  · exact fun nodeId _ dep hedge => Std.ExtTreeMap.mem_keys.mpr (hknown nodeId dep hedge)
  · intro nodeId _ dependent
    simp [IRGraph.digraph]

/-- **An order lists every node once, after its dependencies.** -/
theorem topologicalOrder_follows (hbuilt : buildGraph ir = .ok graph) :
    Kahn.Follows ir.edgesOf [] (topologicalOrder graph) := by
  have hfollows := Kahn.sort_follows (buildGraph_converse hbuilt)
  obtain ⟨rfl, -, -⟩ := buildGraph_eq_ok.mp hbuilt
  exact hfollows

theorem mem_topologicalOrder (hbuilt : buildGraph ir = .ok graph) {nodeId : String}
    (hnode : nodeId ∈ ir.byId) : nodeId ∈ topologicalOrder graph := by
  have hconverse := buildGraph_converse hbuilt
  obtain ⟨rfl, -, hacyclic⟩ := buildGraph_eq_ok.mp hbuilt
  exact Kahn.mem_sort hconverse hacyclic (Std.ExtTreeMap.mem_keys.mpr hnode)

theorem mem_byId_of_topologicalOrder (hbuilt : buildGraph ir = .ok graph) {nodeId : String}
    (hmem : nodeId ∈ topologicalOrder graph) : nodeId ∈ ir.byId := by
  have hnode := Kahn.sort_subset (buildGraph_converse hbuilt) hmem
  obtain ⟨rfl, -, -⟩ := buildGraph_eq_ok.mp hbuilt
  exact Std.ExtTreeMap.mem_keys.mp hnode

end

/-! ## The least order -/

/-- The second node waits for the first: for its dependencies, or in reverse for its dependents. -/
def IRGraph.Waits (ir : IRGraph) (reverse : Bool) (first second : String) : Prop :=
  if reverse then second ∈ ir.edgesOf first else first ∈ ir.edgesOf second

/-- Every node of the config stands in the list once, after everything it waits for. -/
structure IRGraph.Ordered (ir : IRGraph) (reverse : Bool) (order : List String) : Prop where
  perm : order.Perm ir.byId.keys
  waits : ∀ before nodeId after, order = before ++ nodeId :: after →
    ∀ other, ir.Waits reverse other nodeId → other ∈ before

section

variable {ir : IRGraph} {graph : DiGraph} {reverse : Bool}

theorem IRGraph.mem_predecessors {node other : String} :
    other ∈ ir.digraph.predecessors node reverse ↔ ir.Waits reverse other node := by
  unfold DiGraph.predecessors Waits digraph
  cases reverse with
  | false => rfl
  | true =>
    simp only [if_true, List.mem_filter, Std.ExtTreeMap.mem_keys, decide_eq_true_eq]
    exact ⟨And.right, fun hedge => ⟨mem_byId_of_edge hedge, hedge⟩⟩

theorem buildGraph_converse_of (hbuilt : buildGraph ir = .ok graph) (reverse : Bool) :
    Kahn.Converse graph.nodeIds (graph.predecessors · reverse) (graph.successors · reverse) := by
  have hconverse := buildGraph_converse hbuilt
  cases reverse with
  | false => exact hconverse
  | true => exact hconverse.swap

/-- No node waits for itself in either direction. -/
theorem acyclic_of (hbuilt : buildGraph ir = .ok graph) (reverse : Bool) (node : String) :
    ¬ Closure.Reaches (graph.predecessors · reverse) node node := by
  obtain ⟨rfl, -, hacyclic⟩ := buildGraph_eq_ok.mp hbuilt
  cases reverse with
  | false => exact hacyclic node
  | true =>
    intro hreaches
    have hsteps : Closure.Step (ir.digraph.predecessors · true) ≤
        Function.swap (Closure.Step ir.edgesOf) := by
      intro first second hstep
      have hedge := (List.mem_filter.mp hstep).2
      rw [decide_eq_true_eq] at hedge
      exact hedge
    exact hacyclic node (Relation.transGen_swap.mp (Relation.TransGen.mono hsteps node node hreaches))

theorem IRGraph.ordered_iff {order : List String} : ir.Ordered reverse order ↔
    order.Perm ir.byId.keys ∧ Kahn.Follows (ir.digraph.predecessors · reverse) [] order := by
  have hnodup : ir.byId.keys.Nodup := Std.ExtTreeMap.nodup_keys
  constructor
  · rintro ⟨hperm, hwaits⟩
    refine ⟨hperm, Kahn.follows_iff.mpr ⟨⟨hperm.nodup_iff.mpr hnodup, fun _ _ => List.not_mem_nil⟩, ?_⟩⟩
    intro before node after hsplit other hmem
    exact .inr (hwaits before node after hsplit other (mem_predecessors.mp hmem))
  · rintro ⟨hperm, hfollows⟩
    refine ⟨hperm, fun before node after hsplit other hwaits => ?_⟩
    exact ((Kahn.follows_iff.mp hfollows).2 before node after hsplit other
      (mem_predecessors.mpr hwaits)).resolve_left List.not_mem_nil

theorem topologicalOrder_ordered (hbuilt : buildGraph ir = .ok graph) (reverse : Bool) :
    ir.Ordered reverse (topologicalOrder graph reverse) := by
  have hconverse := buildGraph_converse_of hbuilt reverse
  have hfollows := Kahn.sort_follows hconverse
  have hperm := Kahn.sort_perm hconverse (acyclic_of hbuilt reverse)
  obtain ⟨rfl, -, -⟩ := buildGraph_eq_ok.mp hbuilt
  exact IRGraph.ordered_iff.mpr ⟨hperm, hfollows⟩

/-- A graph is built from the nodes by their ids alone. -/
theorem buildGraph_congr {ir ir' : IRGraph} (hsame : ir'.byId = ir.byId) :
    buildGraph ir' = buildGraph ir := by
  have hedges : ir'.edgesOf = ir.edgesOf := funext fun nodeId => by
    rw [IRGraph.edgesOf, IRGraph.edgesOf, hsame]
  unfold buildGraph IRGraph.hasCycle IRGraph.digraph cbdReach
  rw [hedges, hsame]

theorem IRGraph.byId_perm {ir ir' : IRGraph} (hperm : ir'.nodes.Perm ir.nodes)
    (hdistinct : (ir.nodes.map (·.id)).Nodup) : ir'.byId = ir.byId := by
  have hdistinct' : (ir'.nodes.map (·.id)).Nodup := (hperm.map _).nodup_iff.mpr hdistinct
  refine Std.ExtTreeMap.ext_getElem? fun nodeId => Option.ext fun node => ?_
  rw [byId, byId, getElem?_foldl_insert hdistinct, getElem?_foldl_insert hdistinct', hperm.mem_iff]
  simp

/-- **The order is the least of all orders.** Whatever the direction, the order has each node of the
config once, after everything it waits for, it is the lexicographically least list that does, and a
config that lists the same nodes in another order has the same one. -/
theorem topologicalOrder_least (hbuilt : buildGraph ir = .ok graph) (reverse : Bool) :
    ir.Ordered reverse (topologicalOrder graph reverse) ∧
      (∀ order, ir.Ordered reverse order → topologicalOrder graph reverse = order ∨
        List.Lex (· < ·) (topologicalOrder graph reverse) order) ∧
      ∀ ir' : IRGraph, ir'.nodes.Perm ir.nodes → (ir.nodes.map (·.id)).Nodup →
        ∃ graph', buildGraph ir' = .ok graph' ∧
          topologicalOrder graph' reverse = topologicalOrder graph reverse := by
  refine ⟨topologicalOrder_ordered hbuilt reverse, fun order hordered => ?_, fun ir' hperm hdistinct => ?_⟩
  · have hconverse := buildGraph_converse_of hbuilt reverse
    obtain ⟨rfl, -, -⟩ := buildGraph_eq_ok.mp hbuilt
    obtain ⟨hperm, hfollows⟩ := IRGraph.ordered_iff.mp hordered
    exact Kahn.sort_least hconverse hfollows hperm
  · refine ⟨graph, ?_, rfl⟩
    rw [buildGraph_congr (IRGraph.byId_perm hperm hdistinct), hbuilt]

end

/-- Two nodes over a third, listed against their order. -/
def fork : IRGraph where
  nodes := [{ id := "net:a", type := "subnet", provider := "aws", providerVersion := "1"
              properties := ∅, dependencies := ["net:vpc"] },
            { id := "net:b", type := "subnet", provider := "aws", providerVersion := "1"
              properties := ∅, dependencies := [], dependsOn := ["net:vpc"] },
            { id := "net:vpc", type := "vpc", provider := "aws", providerVersion := "1"
              properties := ∅, dependencies := [] }]

theorem topologicalOrder_least_fork : ∃ graph, buildGraph fork = .ok graph ∧
    topologicalOrder graph false = ["net:vpc", "net:a", "net:b"] ∧
    (∀ order, fork.Ordered false order → ["net:vpc", "net:a", "net:b"] = order ∨
      List.Lex (· < ·) ["net:vpc", "net:a", "net:b"] order) ∧
    ∃ graph', buildGraph ⟨fork.nodes.reverse⟩ = .ok graph' ∧
      topologicalOrder graph' false = ["net:vpc", "net:a", "net:b"] := by
  have hisOk : (buildGraph fork).isOk = true := by decide +kernel
  have horder : topologicalOrder fork.digraph false = ["net:vpc", "net:a", "net:b"] := by
    decide +kernel
  obtain ⟨graph, hbuilt⟩ : ∃ graph, buildGraph fork = .ok graph := by
    cases hfork : buildGraph fork with
    | error fault =>
      rw [hfork] at hisOk
      cases hisOk
    | ok graph => exact ⟨graph, rfl⟩
  obtain ⟨-, hleast, hsame⟩ := topologicalOrder_least hbuilt false
  obtain ⟨graph', hbuilt', horder'⟩ := hsame ⟨fork.nodes.reverse⟩ (List.reverse_perm _)
    (by decide)
  have hgraph : topologicalOrder graph false = ["net:vpc", "net:a", "net:b"] := by
    rw [(buildGraph_eq_ok.mp hbuilt).1, horder]
  rw [hgraph] at hleast horder'
  exact ⟨graph, hbuilt, hgraph, hleast, graph', hbuilt', horder'⟩

end Atlantide
