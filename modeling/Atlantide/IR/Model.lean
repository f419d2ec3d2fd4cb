import Atlantide.Core.Markers

/-! # The intermediate form of a config -/

namespace Atlantide

/-- What a node stands for: something managed, or a read-only lookup. -/
inductive NodeKind
  | resource
  | data
  deriving DecidableEq

structure IRNode where
  id : String
  type : String
  provider : String
  providerVersion : String
  properties : Dict String Value
  dependencies : List String
  preventDestroy : Bool := false
  createBeforeDestroy : Bool := false
  ignoreChanges : List String := []
  dependsOn : List String := []
  kind : NodeKind := .resource
  /-- The ids or bare names it went by before. -/
  aliases : List String := []
  deriving DecidableEq

namespace IRNode

def isData (node : IRNode) : Bool := node.kind = .data

/-- Every node that must act before this one: value references and explicit edges. -/
def edges (node : IRNode) : List String := sortedSet (node.dependencies ++ node.dependsOn)

end IRNode

structure IRGraph where
  nodes : List IRNode

namespace IRGraph

/-- `{node.id: node for node in nodes}`: the last node of an id stands. -/
def byId (ir : IRGraph) : Dict String IRNode :=
  ir.nodes.foldl (fun table node => table.insert node.id node) ∅

end IRGraph

end Atlantide
