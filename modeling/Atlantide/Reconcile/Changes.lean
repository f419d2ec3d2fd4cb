import Atlantide.IR.Model
import Atlantide.State.Model

/-! # The diff's output: changes and changesets -/

namespace Atlantide

inductive Action
  | create
  | update
  | replace
  | delete
  | noop
  deriving DecidableEq

inductive Mutability
  | mutable
  | immutable
  | computed
  deriving DecidableEq

/-- Per resource type, each field's mutability. -/
abbrev TypeMutability := String → String → Option Mutability

abbrev StateGraph := Dict String StateNode

structure Change where
  nodeId : String
  action : Action
  desired : Option IRNode := none
  prior : Option StateNode := none
  changedFields : List String := []
  /-- A REPLACE whose only immutable changes are references, confirmed once they resolve. -/
  conditional : Bool := false
  createBeforeDestroy : Bool := false
  /-- A NOOP whose stored `preventDestroy` differs from the config's. -/
  stateOnly : Bool := false
  upstreamMoved : List String := []
  deriving DecidableEq

structure ChangeSet where
  changes : List Change
  deriving DecidableEq

/-- The `changedFields` entry of a REPLACE forced rather than found. -/
def forcedField : String := "(forced)"

namespace ChangeSet

def map (f : Change → Change) (changeset : ChangeSet) : ChangeSet := ⟨changeset.changes.map f⟩

def byAction (action : Action) (changeset : ChangeSet) : List Change :=
  changeset.changes.filter (·.action = action)

/-- The changes that call a provider. -/
def actionable (changeset : ChangeSet) : List Change :=
  changeset.changes.filter (·.action ≠ .noop)

/-- The changes an apply would make. -/
def pending (changeset : ChangeSet) : List Change :=
  changeset.changes.filter fun change => change.action ≠ .noop || change.stateOnly

end ChangeSet

/-- Every change outside `selected` becomes a NOOP. -/
def restrict (changeset : ChangeSet) (selected : List String) : ChangeSet :=
  changeset.map fun change =>
    if change.nodeId ∈ selected then change else { nodeId := change.nodeId, action := .noop }

end Atlantide
