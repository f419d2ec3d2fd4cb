import Atlantide.Executor.Saga
import Atlantide.Reconcile.Classify

/-! # The work of each node: deletes, replacements, and the forward pass -/

namespace Atlantide.Executor

open Interleaving

namespace RunContext

variable (run : RunContext)

/-! ## Destroys -/

/-- Destroys a DELETE node and drops its row, at most once. -/
def deleteNode (nodeId : String) : Step Unit := do
  if ← Step.takeDelete nodeId then
    match run.prior[nodeId]? with
    | none => .raise (.fault (.engine nodeId))
    | some prior =>
      let memory ← Step.look
      let res ← Step.compute (reconstruct run.env memory.live prior)
      -- Deleting a data source only drops its row.
      if isData run.env.types prior.type then forget nodeId
      else
        Step.compute (providerFor run.env prior.provider)
        Step.delete res
        forget nodeId
  else .ret ()

/-- The desired resource of a node. -/
def resource (nodeId : String) : Except Fault Resource :=
  match run.desired.resources[nodeId]? with
  | some res => .ok res
  | none => .error (.engine nodeId)

/-- Deletes the old half of a destroy-before-create REPLACE; the forward pass creates the new. -/
def predestroy (nodeId : String) : Step Unit :=
  match run.prior[nodeId]? with
  | none => .raise (.fault (.engine nodeId))
  | some prior => do
    let memory ← Step.look
    let old ← Step.compute (reconstruct run.env memory.live prior)
    Step.compute (providerFor run.env prior.provider)
    let res ← Step.compute (run.resource nodeId)
    run.writeAhead nodeId res
    Step.delete old
    run.record nodeId (.delete old prior)

/-- Phase 0: destroys a node ahead of the forward pass. -/
def predeleteNode (nodeId : String) : Step Unit :=
  if nodeId ∉ run.predeleted then .ret ()
  else if nodeId ∈ run.deleteIds then run.deleteNode nodeId
  else run.predestroy nodeId

section

variable {asks : Request → Prop} {nodeId : String}

theorem deleteNode_only (htake : asks (.takeDelete nodeId)) (hlook : asks .look)
    (hdelete : ∀ res, asks (.delete res)) (hforget : (forget nodeId).Only asks) :
    (run.deleteNode nodeId).Only asks := by
  refine (Step.takeDelete_only htake).bind fun taken => .ite ?_ trivial
  split
  · trivial
  · refine (Step.look_only hlook).bind fun memory => (Step.compute_only _).bind fun res => ?_
    refine .ite hforget ((Step.compute_only _).bind fun _ => ?_)
    exact (Step.delete_only (hdelete res)).bind fun _ => hforget

theorem record_only {undo : Undo} (hrecord : asks (.memory (.record nodeId undo))) :
    (run.record nodeId undo).Only asks :=
  .ite (Step.memory_only hrecord) trivial

theorem predestroy_only (hlook : asks .look) (hput : ∀ row, asks (.put row))
    (hdelete : ∀ res, asks (.delete res))
    (hrecord : ∀ undo, asks (.memory (.record nodeId undo))) :
    (run.predestroy nodeId).Only asks := by
  unfold predestroy
  split
  · trivial
  · refine (Step.look_only hlook).bind fun memory => (Step.compute_only _).bind fun old => ?_
    refine (Step.compute_only _).bind fun _ => (Step.compute_only _).bind fun res => ?_
    refine (run.writeAhead_only hlook hput).bind fun _ => ?_
    exact (Step.delete_only (hdelete old)).bind fun _ => run.record_only (hrecord _)

theorem predeleteNode_only (htake : asks (.takeDelete nodeId)) (hlook : asks .look)
    (hput : ∀ row, asks (.put row)) (hdelete : ∀ res, asks (.delete res))
    (hforget : (forget nodeId).Only asks)
    (hrecord : ∀ undo, asks (.memory (.record nodeId undo))) :
    (run.predeleteNode nodeId).Only asks :=
  .ite trivial (.ite (run.deleteNode_only htake hlook hdelete hforget)
    (run.predestroy_only hlook hput hdelete hrecord))

end

/-! ## Replacements -/

/-- Destroys what an earlier replace's companion row describes: its planned DELETE, brought
forward. A row this run does not destroy is not overwritten. -/
def clearCompanion (companion : String) : Step Unit := do
  let memory ← Step.look
  if companion ∈ memory.deleteIds then run.deleteNode companion
  else if companion ∈ run.prior ∧ companion ∉ run.predeleted then
    .raise (.fault (.engine companion))
  else .ret ()

/-- Create-before-destroy: the old resource's row is copied to the companion's, and the cleanup
destroys what it describes. -/
def replaceCbd (nodeId : String) (res old : Resource) (prior : StateNode) : Step Unit := do
  run.clearCompanion (cbdCompanionId nodeId)
  Step.put { prior with id := cbdCompanionId nodeId }
  run.writeAhead nodeId res
  let created ← Step.create res
  Step.memory (.live nodeId created)
  Step.memory (.deferCleanup nodeId old)
  run.record nodeId (.cbdCreate (withOutputs run.env.types res created) prior)

/-- The delete half of a destroy-before-create REPLACE, unless phase 0 ran it. -/
def destroyOld (nodeId : String) (res old : Resource) : Step Unit :=
  if nodeId ∈ run.predeleted then .ret ()
  else do
    run.writeAhead nodeId res
    Step.delete old

/-- Records the undo of a destroy-before-create REPLACE. -/
def recordReplaced (nodeId : String) (new old : Resource) (prior : Option StateNode) : Step Unit :=
  -- Phase 0 recorded recreating `old`; this undo runs before it.
  if nodeId ∈ run.predeleted then run.record nodeId (.create new)
  else
    match prior with
    | none => .ret ()
    | some prior => do
      -- A rollback re-creates `old` from the values it was resolved against, and records those.
      let memory ← Step.look
      run.record nodeId (.replace new old
        { prior with refDigests := run.refDigests prior.type prior.properties memory.live })

/-- Destroy-before-create: deletes `old`, then creates the replacement. -/
def replaceDbc (nodeId : String) (res old : Resource) (prior : Option StateNode) : Step Unit := do
  run.destroyOld nodeId res old
  let created ← Step.create res
  Step.memory (.live nodeId created)
  run.recordReplaced nodeId (withOutputs run.env.types res created) old prior

def replace (nodeId : String) (change : Change) (res : Resource) : Step Unit := do
  match run.prior[nodeId]? with
  | none => run.replaceDbc nodeId res res none
  | some prior =>
    let memory ← Step.look
    let old ← Step.compute (reconstruct run.env memory.live prior)
    if change.createBeforeDestroy then run.replaceCbd nodeId res old prior
    else run.replaceDbc nodeId res old (some prior)

/-- Destroys the prior half of a create-before-destroy REPLACE. -/
def cbdCleanup (nodeId : String) (old : Resource) : Step Unit := do
  catchException
    (do
      Step.compute (providerFor run.env old.provider)
      Step.delete old)
    fun failure => do
      Step.memory (.orphan nodeId)
      .raise failure
  Step.erase (cbdCompanionId nodeId)

/-! ## Rows no provider call produced -/

/-- Writes such a row. Its undo is recorded first: a cancelled write may still land. -/
def rewriteRow (prior row : StateNode) : Step Unit := do
  run.record prior.id (.restoreRow prior)
  Step.put row

def recordStateOnly (nodeId : String) (change : Change) : Step Unit :=
  match run.prior[nodeId]?, change.desired with
  | some prior, some desired =>
    run.rewriteRow prior { prior with preventDestroy := desired.preventDestroy }
  | _, _ => .raise (.fault (.engine nodeId))

def recordCollapsed (nodeId : String) : Step Unit :=
  match run.prior[nodeId]? with
  | none => .raise (.fault (.engine nodeId))
  | some prior => do
    let memory ← Step.look
    let row ← Step.compute (run.collapsedRow memory.live prior)
    run.rewriteRow prior row

/-! ## The forward pass -/

/-- The first recorded digest that cannot be compared for want of a key. -/
def matchFault (recorded : Dict String String) (properties : Dict String Value) : Option Fault :=
  recorded.toList.findSome? fun (name, digest) =>
    (properties[name]?).bind fun value =>
      match sameAsRecorded run.env.codec run.env.secrets name value digest with
      | .error fault => some fault
      | .ok _ => none

/-- A recorded digest's verdict on a value. -/
def sameAs (name : String) (value : Value) (digest : String) : Option Bool :=
  match sameAsRecorded run.env.codec run.env.secrets name value digest with
  | .ok verdict => verdict
  | .error _ => none

/-- Re-diffs a conditional REPLACE now that its upstreams have applied. -/
def confirmed (live : LiveOutputs) (nodeId : String) (change : Change) : Except Failure Change :=
  match run.prior[nodeId]?, change.desired, change.prior with
  | some prior, some desired, some diffed =>
    match resolveProperties run.env.codec live true desired.properties,
        resolveProperties run.env.codec run.priorOutputs false prior.properties with
    | .ok desiredProperties, .ok priorProperties =>
      match run.matchFault prior.refDigests desiredProperties with
      | some fault => .error (.fault fault)
      | none =>
        let fresh := reclassify change desired diffed desiredProperties priorProperties
          (typeMutability run.env.types desired.type) prior.refDigests run.sameAs
        if fresh.action = .replace ∧ desired.preventDestroy then .error .prevented else .ok fresh
    | .error fault, _ | _, .error fault => .error (.fault fault)
  | _, _, _ => .error (.fault (.engine nodeId))

def create (nodeId : String) (res : Resource) : Step Unit := do
  run.writeAhead nodeId res
  let created ← Step.create res
  Step.memory (.live nodeId created)
  run.record nodeId (.create (withOutputs run.env.types res created))

def update (nodeId : String) (res : Resource) : Step Unit := do
  let memory ← Step.look
  let updated ← Step.update (memory.live.getD nodeId ∅) res
  Step.memory (.live nodeId updated)
  match run.prior[nodeId]? with
  | none => .ret ()
  | some prior =>
    -- Resolved against the prior outputs: the live ones hold this run's values.
    let old ← Step.compute (reconstruct run.env run.priorOutputs prior)
    let priorOutputs ← Step.compute (unsealOutputs run.env.secrets prior.outputs)
    run.record nodeId (.update old prior priorOutputs)

/-- What the change does at the provider, and what goes before it. -/
def applyChange (nodeId : String) (change : Change) (res : Resource) : Step Unit :=
  match change.action with
  | .create => run.create nodeId res
  | .update => run.update nodeId res
  | .replace => run.replace nodeId change res
  | .delete | .noop => .raise (.fault (.engine nodeId))

/-- Applies a node whose change is settled. -/
def applyOne (nodeId : String) (change : Change) : Step Unit :=
  if change.action = .noop then
    if change.stateOnly then run.recordStateOnly nodeId change else run.recordCollapsed nodeId
  else do
    let wanted ← Step.compute (run.resource nodeId)
    let memory ← Step.look
    let res ← Step.compute (resolveResource run.env memory.live wanted)
    Step.compute (providerFor run.env res.provider)
    run.applyChange nodeId change res
    run.persist nodeId res

/-- A node's turn in the forward pass. -/
def applyNode (nodeId : String) : Step Unit :=
  match run.changes[nodeId]? with
  | none => .raise (.fault (.engine nodeId))
  | some change =>
    if change.action = .noop ∧ !change.stateOnly then .ret ()
    -- A node whose delete half ran in phase 0 is past confirming.
    else if change.conditional ∧ nodeId ∉ run.predeleted then do
      let memory ← Step.look
      match run.confirmed memory.live nodeId change with
      | .ok effective => run.applyOne nodeId effective
      | .error failure => .raise failure
    else run.applyOne nodeId change

/-- Phase 2: a create-before-destroy REPLACE's cleanup, or a planned delete. -/
def destroyNode (nodeId : String) : Step Unit := do
  let memory ← Step.look
  match memory.cbdDeferred[nodeId]? with
  | some old => run.cbdCleanup nodeId old
  | none => run.deleteNode nodeId

/-- What `deleteNode` goes on with once it has taken the delete. -/
def deleteTaken (nodeId : String) : Step Unit :=
  match run.prior[nodeId]? with
  | none => .raise (.fault (.engine nodeId))
  | some prior => do
    let memory ← Step.look
    let res ← Step.compute (reconstruct run.env memory.live prior)
    if isData run.env.types prior.type then forget nodeId
    else
      Step.compute (providerFor run.env prior.provider)
      Step.delete res
      forget nodeId

/-- What `destroyNode` goes on with once it has looked. -/
def destroyLooked (nodeId : String) (memory : RunMemory) : Step Unit :=
  match memory.cbdDeferred[nodeId]? with
  | some old => run.cbdCleanup nodeId old
  | none => run.deleteNode nodeId

/-- What `applyNode` goes on with once it has looked. -/
def applyLooked (nodeId : String) (change : Change) (memory : RunMemory) : Step Unit :=
  match run.confirmed memory.live nodeId change with
  | .ok effective => run.applyOne nodeId effective
  | .error failure => .raise failure

end RunContext

end Atlantide.Executor
