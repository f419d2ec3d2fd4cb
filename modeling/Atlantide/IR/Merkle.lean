import Atlantide.IR.Model
import Atlantide.Reconcile.Resolve

/-! # Merkle hashes of a config

A node's hash covers its type, what it sets with its references as markers, and the hashes of its
dependencies, so that a change upstream reaches every dependent's hash. The node's own id is no
part of it. -/

namespace Atlantide

namespace IRNode

/-- What the hash covers of what the node sets. -/
def hashed (node : IRNode) : Dict String Value :=
  node.properties.filter fun name _ => name ∉ node.ignoreChanges

/-- What a node's hash is taken of. -/
def merklePayload (node : IRNode) (deps : List String) : Value :=
  .dict [("deps", .list (deps.map .str)), ("properties", .dict node.hashed.toList),
    ("type", .str node.type)]

end IRNode

/-- The hashes of the nodes, in the given order; none if a node comes before a dependency. -/
def merkleHashes (codec : Codec) (ir : IRGraph) (topoOrder : List String) :
    Option (Dict String String) :=
  topoOrder.foldlM (fun hashes nodeId => do
    let node ← ir.byId[nodeId]?
    let deps ← (node.dependencies.mergeSort (fun a b => compare a b ≠ .gt)).mapM (hashes[·]?)
    pure (hashes.insert nodeId (codec.sha256 (codec.canonical (node.merklePayload deps))))) ∅

end Atlantide
