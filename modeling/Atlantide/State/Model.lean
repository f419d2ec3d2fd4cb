import Atlantide.Core.Value

/-! # The persisted rows -/

namespace Atlantide

inductive NodeStatus
  | created
  | creating
  deriving DecidableEq, Inhabited

/-- One persisted resource: the hash of its desired inputs and its realised outputs. -/
structure StateNode where
  id : String
  type : String
  provider : String
  providerVersion : String
  inputHash : String
  outputs : Dict String Value := ∅
  properties : Dict String Value := ∅
  dependencies : List String := []
  preventDestroy : Bool := false
  status : NodeStatus := .created
  secretDigests : Dict String String := ∅
  refDigests : Dict String String := ∅
  dependsOn : List String := []
  deriving DecidableEq

/-- The `inputHash` of a node whose live inputs drifted: no digest equals it. -/
def noInputHash : String := ""

/-- Drops `remove`, then overlays `outputs`. -/
def mergeOutputs (current outputs : Dict String Value) (remove : List String) : Dict String Value :=
  (current.filter fun key _ => key ∉ remove) ∪ outputs

end Atlantide
