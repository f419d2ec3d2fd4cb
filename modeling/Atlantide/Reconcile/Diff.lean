import Atlantide.Graph.Cbd
import Atlantide.Reconcile.Classify
import Atlantide.Reconcile.Ordering

/-! # Desired config against current state -/

namespace Atlantide

/-- What a diff compares. -/
structure DiffInputs where
  desired : IRGraph
  desiredHashes : String → String
  prior : StateGraph
  mutability : TypeMutability
  verdicts : ConsumedRefs

namespace DiffInputs

variable (inputs : DiffInputs)

def wanted (nodeId : String) : Option IRNode := inputs.desired.byId[nodeId]?

/-- Classifies one node present in both config and state, given the ids moving this run. -/
def classify (want : IRNode) (row : StateNode) (moved : List String) : Change :=
  -- Neither the config's hash nor a poisoned row's: a mismatch nothing names.
  let unexplained := row.inputHash ≠ inputs.desiredHashes want.id ∧ row.inputHash ≠ noInputHash
  classifyNode want row (inputs.mutability want.type) moved
    (inputs.verdicts.getD want.id ∅) unexplained

/-- Whether a value this node consumes moved since it was applied. -/
def consumesMoved (nodeId : String) (want : IRNode) : Bool :=
  (settled want (inputs.verdicts.getD nodeId ∅) []).any (· ∉ want.ignoreChanges)

/-- One node's change as if nothing else moved. -/
def changeFor (nodeId : String) : Change :=
  match inputs.wanted nodeId, inputs.prior[nodeId]? with
  | none, prior => { nodeId := nodeId, action := .delete, prior := prior }
  | some want, none => { nodeId := nodeId, action := .create, desired := some want }
  | some want, some row =>
    if row.status ≠ .created then
      { nodeId := nodeId, action := .create, desired := some want, prior := some row }
    else if inputs.desiredHashes nodeId = row.inputHash then
      if inputs.consumesMoved nodeId want then inputs.classify want row []
      else
        { nodeId := nodeId, action := .noop, desired := some want, prior := some row
          stateOnly := want.preventDestroy ≠ row.preventDestroy }
    else inputs.classify want row []

/-- Re-classifies a change knowing which upstreams move this run. -/
def refine (stale moved : List String) (change : Change) : Change :=
  match inputs.wanted change.nodeId, inputs.prior[change.nodeId]? with
  | some want, some row =>
    match change.action with
    | .noop => if change.nodeId ∈ stale then inputs.classify want row moved else change
    | .update | .replace =>
      if forcedField ∈ change.changedFields then change else inputs.classify want row moved
    | _ => change
  | _, _ => change

/-- The ids of the config and of the state, in order. -/
def allIds : List String := sortedSet (inputs.desired.byId.keys ++ inputs.prior.keys)

/-- The first pass: each node by itself, with the REPLACEs that were asked for. -/
def firstPass (replace : List String) : List Change :=
  (inputs.allIds.map inputs.changeFor).map fun change =>
    if change.nodeId ∈ replace then forced change else change

end DiffInputs

/-- The declared nodes with an edge to `dep`. -/
def dependentsOf (ir : IRGraph) (dep : String) : List String :=
  ir.byId.keys.filter fun nodeId => dep ∈ ir.edgesOf nodeId

/-- Actions that give a node a new physical identity. -/
def reidentifying (action : Action) : Bool := action = .create || action = .replace

/-- Ids whose resolved inputs moved because an upstream is being recreated. -/
def staleDependents (changes : List Change) (ir : IRGraph) : List String :=
  let queue := (changes.filter (reidentifying ·.action)).map (·.nodeId)
  Closure.saturate (dependentsOf ir) (queue.length + ir.byId.keys.length) queue []

/-- The changes a run makes to bring `prior` to the config. -/
def diff (inputs : DiffInputs) (replace : List String) : ChangeSet :=
  let changes := inputs.firstPass replace
  let stale := staleDependents changes inputs.desired
  let moved := (changes.filter (·.action ≠ .noop)).map (·.nodeId) ++ stale
  let cbd := effectiveCbd inputs.desired
  let refined : ChangeSet := ⟨changes⟩
  behindDestroyFirst (refined.map fun change =>
    createFirst (inputs.refine stale moved change) cbd) inputs.mutability

theorem mem_staleDependents {changes : List Change} {ir : IRGraph} {nodeId : String} :
    nodeId ∈ staleDependents changes ir ↔ ∃ change ∈ changes, reidentifying change.action ∧
      Closure.Reaches (dependentsOf ir) change.nodeId nodeId := by
  have hnodes : ∀ dep, dependentsOf ir dep ⊆ ir.byId.keys := fun dep => List.filter_sublist.subset
  rw [staleDependents, Closure.mem_saturate_iff hnodes (Nat.le_refl _)]
  constructor
  · rintro ⟨source, hsource, hreach⟩
    obtain ⟨change, hchange, rfl⟩ := List.mem_map.mp hsource
    obtain ⟨hmem, haction⟩ := List.mem_filter.mp hchange
    exact ⟨change, hmem, haction, hreach⟩
  · rintro ⟨change, hmem, haction, hreach⟩
    exact ⟨change.nodeId, List.mem_map_of_mem (List.mem_filter.mpr ⟨hmem, haction⟩), hreach⟩

end Atlantide
