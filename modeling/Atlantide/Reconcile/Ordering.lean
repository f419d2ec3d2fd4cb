import Atlantide.Reconcile.Upstream

/-! # Replace ordering over a changeset

Which REPLACEs create first, and which conditional ones must be settled now because the upstream
they hang on is destroyed first. -/

namespace Atlantide

/-- What the planner knows of a resource type. -/
structure ResourceType where
  provider : String
  /-- Each field's mutability, in declaration order. -/
  fields : List (String × Mutability)
  /-- The output field that holds the physical id. -/
  identity : String := "id"
  sensitive : List String := []
  physicalName : Option String := none
  isData : Bool := false

abbrev Types := String → Option ResourceType

/-- The table the diff classifies by, for every type there is. -/
def typeMutability (types : Types) : TypeMutability := fun type field =>
  (types type).bind fun cls => cls.fields.lookup field

def createFirst (change : Change) (cbd : List String) : Change :=
  if change.action = .replace ∧ change.nodeId ∈ cbd then { change with createBeforeDestroy := true }
  else change

/-- Whether a create-before-destroy REPLACE would clash with the old resource. -/
def cbdCollides (change : Change) (types : Types) (mutability : TypeMutability) : Bool :=
  if change.action = .replace && change.createBeforeDestroy then
    match change.desired, change.prior with
    | some desired, some prior =>
      match (types desired.type).bind (·.physicalName) with
      -- Distinct only when the cloud name itself changes.
      | some name => (desired.property name).same (prior.properties.getD name .null)
      | none =>
        !change.changedFields.any fun field => mutability desired.type field = some .immutable
    | _, _ => false
  else false

/-- Downgrades create-before-destroy REPLACEs that would collide on identity. The error names the
colliding nodes other create-before-destroy nodes depend on, and those. -/
def resolveCbd (changeset : ChangeSet) (types : Types) (mutability : TypeMutability)
    (forcers : String → List String) :
    Except (List (String × List String)) (ChangeSet × List String) :=
  let dependents (change : Change) : List String :=
    sortedSet ((forcers change.nodeId).filter (· ≠ change.nodeId))
  let collides (change : Change) : Bool := cbdCollides change types mutability
  let conflicts := changeset.changes.filter fun change =>
    collides change && !(dependents change).isEmpty
  if conflicts.isEmpty then
    .ok (changeset.map fun change =>
        if collides change then { change with createBeforeDestroy := false } else change,
      (changeset.changes.filter collides).map (·.nodeId))
  else .error (conflicts.map fun change => (change.nodeId, dependents change))

/-- Whether the change deletes its old resource before creating the new one. -/
def destroyedFirst (change : Change) : Bool :=
  change.action = .replace && !change.createBeforeDestroy && change.prior.isSome

/-- Whether the change is a conditional REPLACE with an immutable reference into `first`. -/
def behind (change : Change) (first : List String) (mutability : TypeMutability) : Bool :=
  match change.desired with
  | some desired =>
    change.action = .replace && change.conditional &&
      change.changedFields.any fun name =>
        mutability desired.type name = some .immutable &&
          touches desired (desired.property name) first
  | none => false

/-- One node's turn in a pass: what is destroyed first so far, and what is pinned. -/
def pin (mutability : TypeMutability) (state : List String × List String) (change : Change) :
    List String × List String :=
  if change.nodeId ∈ state.2 || !behind change state.1 mutability then state
  else (if change.createBeforeDestroy then state.1 else change.nodeId :: state.1,
    change.nodeId :: state.2)

/-- Passes over the changes until one pins nothing. -/
def pinAll (mutability : TypeMutability) (changes : List Change) :
    Nat → List String × List String → List String × List String
  | 0, state => state
  | fuel + 1, state =>
    let next := changes.foldl (pin mutability) state
    if next.2.length = state.2.length then next else pinAll mutability changes fuel next

/-- The conditional REPLACEs that hang on an upstream destroyed first. -/
def pinned (changeset : ChangeSet) (mutability : TypeMutability) : List String :=
  (pinAll mutability changeset.changes (changeset.changes.length + 1)
    ((changeset.changes.filter destroyedFirst).map (·.nodeId), [])).2

/-- Makes every conditional REPLACE behind a destroy-before-create upstream unconditional. -/
def behindDestroyFirst (changeset : ChangeSet) (mutability : TypeMutability) : ChangeSet :=
  let settledNow := pinned changeset mutability
  changeset.map fun change =>
    if change.nodeId ∈ settledNow then { change with conditional := false } else change

@[simp] theorem createFirst_action (change : Change) (cbd : List String) :
    (createFirst change cbd).action = change.action := by
  unfold createFirst
  split <;> rfl

@[simp] theorem createFirst_nodeId (change : Change) (cbd : List String) :
    (createFirst change cbd).nodeId = change.nodeId := by
  unfold createFirst
  split <;> rfl

end Atlantide
