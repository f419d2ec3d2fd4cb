import Atlantide.Reconcile.Diff

/-! # The `prevent_destroy` guard

A DELETE or REPLACE of a protected node fails the plan, except a conditional REPLACE whose
references point only at upstreams that keep their identity: that one is judged at apply. -/

namespace Atlantide

/-- Upstream ids a change references through any of its changed fields. -/
def referenced (change : Change) : List String :=
  match change.desired with
  | none => []
  | some desired =>
    change.changedFields.flatMap fun name => (desired.property name).collectRefTargets

/-- Protected conditional REPLACEs whose verdict waits for the apply. -/
def deferredToApply (changeset : ChangeSet) (guarded : List String) : List String :=
  let recreated := (changeset.changes.filter (reidentifying ·.action)).map (·.nodeId)
  (changeset.changes.filter fun change =>
    change.nodeId ∈ guarded && change.action = .replace && change.conditional &&
      (referenced change).all (· ∉ recreated)).map (·.nodeId)

def destructive (action : Action) : Bool := action = .delete || action = .replace

/-- The changeset, or the protected ids its destructive actions hit. -/
def checkPreventDestroy (changeset : ChangeSet) (guarded : List String) :
    Except (List String) ChangeSet :=
  let deferred := deferredToApply changeset guarded
  let blocked := changeset.changes.filter fun change =>
    destructive change.action && change.nodeId ∈ guarded && change.nodeId ∉ deferred
  if blocked.isEmpty then .ok changeset else .error (sortedSet (blocked.map (·.nodeId)))

/-- The ids the guard protects in a plan: by the config's flag where the config declares the node,
else by the flag in state. -/
def protectedIds (prior : StateGraph) (desired : IRGraph) : List String :=
  (prior.keys.filter fun nodeId =>
      nodeId ∉ desired.byId && ((prior[nodeId]?).any (·.preventDestroy))) ++
    desired.byId.keys.filter fun nodeId => (desired.byId[nodeId]?).any (·.preventDestroy)

end Atlantide
