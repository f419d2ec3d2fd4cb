import Atlantide.IR.Model
import Atlantide.Lib.Closure

/-! # Create-before-destroy propagation

A node declared create-before-destroy makes everything it depends on create-before-destroy too:
destroying an upstream first would delete what the dependent still uses. -/

namespace Atlantide

namespace IRGraph

/-- The edges out of `nodeId`, none for an id the config does not declare. -/
def edgesOf (ir : IRGraph) (nodeId : String) : List String :=
  match ir.byId[nodeId]? with
  | some node => node.edges
  | none => []

end IRGraph

/-- Everything `origin` depends on, itself included. -/
def cbdReach (ir : IRGraph) (origin : String) : List String :=
  Closure.visit ir.edgesOf (1 + Closure.pushes ir.edgesOf ir.byId.keys []) [origin] []

/-- The declared nodes that make `nodeId` create-before-destroy. -/
def cbdForcers (ir : IRGraph) (nodeId : String) : List String :=
  ((ir.nodes.filter (·.createBeforeDestroy)).map (·.id)).filter fun origin =>
    nodeId ∈ cbdReach ir origin

/-- The ids a REPLACE runs create-before-destroy: declared, plus their dependency closure. -/
def effectiveCbd (ir : IRGraph) : List String :=
  ((ir.nodes.filter (·.createBeforeDestroy)).map (·.id)).flatMap (cbdReach ir)

theorem mem_cbdReach {ir : IRGraph} {origin nodeId : String} :
    nodeId ∈ cbdReach ir origin ↔
      Relation.ReflTransGen (Closure.Step ir.edgesOf) origin nodeId := by
  have hnodes : ∀ node ∉ ir.byId.keys, ir.edgesOf node = [] := by
    intro node hnode
    rw [Std.ExtTreeMap.mem_keys] at hnode
    rw [IRGraph.edgesOf, Std.ExtTreeMap.getElem?_eq_none hnode]
  rw [cbdReach, Closure.mem_visit_iff hnodes (by simp)]
  simp

theorem mem_effectiveCbd {ir : IRGraph} {nodeId : String} :
    nodeId ∈ effectiveCbd ir ↔ ∃ origin ∈ ir.nodes, origin.createBeforeDestroy ∧
      Relation.ReflTransGen (Closure.Step ir.edgesOf) origin.id nodeId := by
  simp only [effectiveCbd, List.mem_flatMap, List.mem_map, List.mem_filter, mem_cbdReach]
  constructor
  · rintro ⟨_, ⟨origin, ⟨hmem, hflag⟩, rfl⟩, hreach⟩
    exact ⟨origin, hmem, hflag, hreach⟩
  · rintro ⟨origin, hmem, hflag, hreach⟩
    exact ⟨origin.id, ⟨origin, ⟨hmem, hflag⟩, rfl⟩, hreach⟩

end Atlantide
