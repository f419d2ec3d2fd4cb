import Mathlib.Tactic.Tauto
import Mathlib.Tactic.SplitIfs
import Atlantide.Reconcile.Upstream

/-! # Which action a node present in config and state takes

One set of rules for both halves of a run: the plan applies them to symbolic properties, and the
apply to the resolved properties of a conditional REPLACE. -/

namespace Atlantide

/-- A change as the REPLACE that was asked for, whatever the diff decided. -/
def forced (change : Change) : Change :=
  match change.action, change.desired, change.prior with
  | .delete, _, _ | .replace, _, _ | _, none, _ | _, _, none => change
  | _, some desired, some prior =>
    { nodeId := change.nodeId, action := .replace, desired := some desired, prior := some prior
      changedFields := [forcedField], createBeforeDestroy := desired.createBeforeDestroy }

/-- Whether the stored row holds something else, or nothing, for a field of the config. -/
def differs (prior : StateNode) (name : String) (value : Value) : Bool :=
  match prior.properties[name]? with
  | some stored => !value.same stored
  | none => true

/-- The fields that differ, symbolically or through an upstream's value. `known` are fields whose
consumed value is known to have moved. -/
def changedFields (desired : IRNode) (prior : StateNode) (moved known : List String) :
    List String :=
  let changed := desired.properties.keys.filter (fun name =>
      differs prior name (desired.property name)) ++
    prior.properties.keys.filter (· ∉ desired.properties)
  let touched := desired.properties.keys.filter fun name =>
    touches desired (desired.property name) moved
  sortedSet ((changed ++ touched ++ known).filter (· ∉ desired.ignoreChanges))

/-- The fields a classification names. `unexplained`: the stored hash differs for a reason nothing
names, which alone makes the unrecorded fields count. -/
def namedFields (desired : IRNode) (prior : StateNode) (moved : List String)
    (verdicts : Dict String Consumed) (unexplained : Bool) : List String :=
  let found := changedFields desired prior moved (settled desired verdicts moved)
  if unexplained && found.isEmpty then unrecorded desired verdicts moved else found

/-- Classifies a node whose row is not skipped. -/
def classifyNode (desired : IRNode) (prior : StateNode) (mutability : String → Option Mutability)
    (moved : List String) (verdicts : Dict String Consumed) (unexplained : Bool) : Change :=
  let known := settled desired verdicts moved
  let changed := namedFields desired prior moved verdicts unexplained
  let immutableChanged := changed.filter fun name => mutability name = some .immutable
  -- A changed data source is read again, never replaced.
  if desired.isData || immutableChanged.isEmpty then
    { nodeId := desired.id, action := .update, desired := some desired, prior := some prior
      changedFields := changed, upstreamMoved := changed.filter (· ∈ known) }
  else
    { nodeId := desired.id, action := .replace, desired := some desired, prior := some prior
      changedFields := changed
      conditional := immutableChanged.all fun name =>
        (desired.property name).hasRefKey && name ∉ known
      createBeforeDestroy := desired.createBeforeDestroy
      upstreamMoved := changed.filter (· ∈ known) }

/-- Re-diffs a conditional REPLACE once its references have resolved. A field the row's record
covers is compared with the record; a recorded value that moved differs from anything. -/
def reclassify (change : Change) (desired : IRNode) (prior : StateNode)
    (desiredProperties priorProperties : Dict String Value)
    (mutability : String → Option Mutability) (recorded : Dict String String)
    (sameAs : String → Value → String → Option Bool) : Change :=
  let compared := recorded.foldl (fun (properties : Dict String Value) name digest =>
    match desiredProperties[name]? with
    | none => properties
    | some value =>
      match sameAs name value digest with
      | none => properties
      | some true => properties.insert name value
      | some false => properties.erase name) priorProperties
  let fresh := classifyNode { desired with properties := desiredProperties }
    { prior with properties := compared } mutability [] ∅ false
  if fresh.action = .replace then change
  else
    { change with
      action := if fresh.changedFields.isEmpty then .noop else .update
      changedFields := fresh.changedFields
      conditional := false
      createBeforeDestroy := false }

theorem mem_changedFields {desired : IRNode} {prior : StateNode} {moved known : List String}
    {name : String} : name ∈ changedFields desired prior moved known ↔
      name ∉ desired.ignoreChanges ∧
        ((name ∈ desired.properties ∧ (differs prior name (desired.property name) ∨
            touches desired (desired.property name) moved)) ∨
          (name ∈ prior.properties ∧ name ∉ desired.properties) ∨ name ∈ known) := by
  simp only [changedFields, mem_sortedSet, List.mem_filter, List.mem_append,
    Std.ExtTreeMap.mem_keys, decide_eq_true_eq]
  tauto

section

variable (desired : IRNode) (prior : StateNode) (mutability : String → Option Mutability)
  (moved : List String) (verdicts : Dict String Consumed) (unexplained : Bool)

theorem classifyNode_changedFields :
    (classifyNode desired prior mutability moved verdicts unexplained).changedFields =
      namedFields desired prior moved verdicts unexplained := by
  unfold classifyNode
  dsimp only
  split_ifs <;> rfl

theorem classifyNode_nodeId :
    (classifyNode desired prior mutability moved verdicts unexplained).nodeId = desired.id := by
  unfold classifyNode
  dsimp only
  split_ifs <;> rfl

theorem classifyNode_desired :
    (classifyNode desired prior mutability moved verdicts unexplained).desired = some desired := by
  unfold classifyNode
  dsimp only
  split_ifs <;> rfl

theorem classifyNode_prior :
    (classifyNode desired prior mutability moved verdicts unexplained).prior = some prior := by
  unfold classifyNode
  dsimp only
  split_ifs <;> rfl

/-- A classification is a REPLACE when it names an immutable field, and an UPDATE otherwise. -/
theorem classifyNode_action :
    (classifyNode desired prior mutability moved verdicts unexplained).action =
      if ¬ desired.isData ∧ ∃ name ∈ namedFields desired prior moved verdicts unexplained,
          mutability name = some .immutable then .replace else .update := by
  have hempty : (List.filter (fun name => decide (mutability name = some Mutability.immutable))
      (namedFields desired prior moved verdicts unexplained)).isEmpty = true ↔
      ¬ ∃ name ∈ namedFields desired prior moved verdicts unexplained,
        mutability name = some .immutable := by
    simp [List.filter_eq_nil_iff]
  unfold classifyNode
  dsimp only
  split
  next hupdate =>
    rw [Bool.or_eq_true, hempty] at hupdate
    rw [if_neg fun h => hupdate.elim h.1 fun hnone => hnone h.2]
  next hreplace =>
    rw [Bool.or_eq_true, hempty, not_or, not_not] at hreplace
    rw [if_pos hreplace]

end

end Atlantide
