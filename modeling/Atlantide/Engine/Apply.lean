import Atlantide.Engine.Coverage
import Atlantide.Engine.Selection
import Atlantide.Executor.Scope
import Atlantide.Reconcile.Aliases

/-! # A locked apply

An apply plans over a first read of the state, which sizes its lock. Under the lock it reads the
state again, writes the renames back, and runs a plan made over what it then finds. -/

namespace Atlantide

open Executor

/-- Why an apply has no plan. -/
inductive ApplyFault
  /-- The renamed rows make no graph. -/
  | aliases
  | target (error : TargetError)
  | plan (fault : PlanFault)

structure Apply where
  planner : Planner
  compiled : Compiled
  narrowing : Narrowing
  stackOutputs : Dict String Value
  /-- Whether a mandatory policy denies the plan. -/
  blocked : Plan → Bool
  /-- The state before the lock is taken. -/
  snapshot : StateGraph
  /-- The state under the lock. -/
  before : StateGraph
  keyed : before.Keyed

namespace Apply

variable (apply : Apply)

/-- The plan over the state, its renamed nodes under their new ids. -/
def planFromCompiled (prior : StateGraph) : Except ApplyFault Plan :=
  match resolveAliases apply.planner.codec prior apply.compiled.ir with
  | none => .error .aliases
  | some (migrated, _) => do
    let (selected, forced) ←
      (apply.narrowing.chosen apply.compiled migrated).mapError ApplyFault.target
    (apply.planner.build apply.compiled migrated apply.stackOutputs selected forced).mapError
      ApplyFault.plan

/-- Whether the first plan lets the apply go on to take its lock. -/
def begins : Bool :=
  match apply.planFromCompiled apply.snapshot with
  | .ok plan => !apply.blocked plan
  | .error _ => false

/-- The lock's scope: every declared node, every recorded one, and the companion of every node that
may be replaced create-before-destroy. -/
def applyScope : List String :=
  apply.compiled.ir.byId.keys ++ apply.snapshot.keys ++
    (effectiveCbd apply.compiled.ir).map cbdCompanionId

/-- The rows the run is given; none where the migration is refused. -/
def prepared : Option StateGraph :=
  aliasMigration apply.planner.codec apply.applyScope apply.before apply.compiled.ir

/-- The run is of the plan made over the rows it starts from, none of which is new. -/
structure Runs (run : RunContext) : Prop where
  begins : apply.begins
  prior : apply.prepared = some run.prior
  scope : ∀ nodeId ∈ run.prior, nodeId ∈ apply.applyScope
  ir : run.desired.ir = apply.compiled.ir
  plan : ∃ plan, apply.planFromCompiled run.prior = .ok plan ∧ ¬ apply.blocked plan ∧
    plan.changeset = run.changeset

/-- The rows an apply may leave behind, wherever it stops. -/
inductive Leaves : StateGraph → Prop
  /-- It is refused before its first write, or that write fails. -/
  | untouched : Leaves apply.before
  /-- It stops with the renames written. -/
  | migrated {rows : StateGraph} (hbegins : apply.begins) (hprepared : apply.prepared = some rows) :
    Leaves rows
  /-- It stops in its run, or ends with it. -/
  | ran {run : RunContext} {cloud : Cloud} {state : RunState} (hruns : apply.Runs run)
    (hreach : run.Reaches cloud state) : Leaves state.world.rows

/-- The plan a locked apply makes, in the terms of what it is made of. -/
theorem planFromCompiled_eq_ok {apply : Apply} {prior : StateGraph} {plan : Plan}
    (hplan : apply.planFromCompiled prior = .ok plan) :
    ∃ migrated remap selected forced,
      resolveAliases apply.planner.codec prior apply.compiled.ir = some (migrated, remap) ∧
      apply.narrowing.chosen apply.compiled migrated = .ok (selected, forced) ∧
      apply.planner.build apply.compiled migrated apply.stackOutputs selected forced =
        .ok plan := by
  unfold planFromCompiled at hplan
  split at hplan
  next => cases hplan
  next migrated remap hresolved =>
    obtain ⟨⟨selected, forced⟩, hchosen, hbuild⟩ := Fallible.bind_eq_ok hplan
    exact ⟨migrated, remap, selected, forced, hresolved, Fallible.mapError_eq_ok hchosen,
      Fallible.mapError_eq_ok hbuild⟩

end Apply

end Atlantide
