import Atlantide.Executor.Context

/-! # A run's state rows: what each node's row holds, and the writes that land it -/

namespace Atlantide.Executor

open Interleaving

/-- The sensitive texts of a table sealed for persistence. -/
def sealOutputs (env : ApplyEnv) (type : String) (outputs : Dict String Value) : Dict String Value :=
  let sensitive := ((env.types type).map (·.sensitive)).getD []
  outputs.map fun name value =>
    match value with
    | .str text => if name ∈ sensitive then env.secrets.sealText text else value
    | _ => value

/-- A digest of each resolved secret field's value, to detect rotations by. -/
def secretDigests (env : ApplyEnv) (res : Resource) (nodeId : String) :
    Except Fault (Dict String String) :=
  let sensitive : List String := ((env.types res.type).map (·.sensitive)).getD []
  sensitive.foldlM (fun (digests : Dict String String) (name : String) => do
    match res.inputs[name]? with
    | some (.str text) =>
      return digests.insert name (← env.secrets.digest (fieldScope nodeId name) text)
    | _ => return digests) ∅

namespace RunContext

variable (run : RunContext)

/-- The config's node of an id. -/
def irNode (nodeId : String) : Except Fault IRNode :=
  match run.desired.ir.byId[nodeId]? with
  | some node => .ok node
  | none => .error (.engine nodeId)

def refDigests (type : String) (properties : Dict String Value) (outputs : LiveOutputs) :
    Dict String String :=
  Atlantide.refDigests run.env.codec run.env.types run.env.secrets type properties outputs

/-- The row of a node as the config describes it, given the run's live outputs. -/
def stateNode (live : LiveOutputs) (nodeId : String) (res : Resource)
    (outputs : Dict String Value) (status : NodeStatus) : Except Fault StateNode := do
  let node ← run.irNode nodeId
  let digests ← secretDigests run.env res nodeId
  .ok
    { id := nodeId, type := res.type, provider := res.provider
      providerVersion := node.providerVersion
      inputHash := run.desired.hashes nodeId
      outputs := sealOutputs run.env res.type outputs
      properties := node.properties, dependencies := node.dependencies
      dependsOn := node.dependsOn, preventDestroy := res.preventDestroy
      secretDigests := digests
      refDigests := run.refDigests node.type node.properties live
      status }

/-- A prior row as the config now describes it, for a replace that did nothing. -/
def collapsedRow (live : LiveOutputs) (prior : StateNode) : Except Fault StateNode := do
  let node ← run.irNode prior.id
  .ok { prior with
    inputHash := run.desired.hashes prior.id
    properties := node.properties, dependencies := node.dependencies
    dependsOn := node.dependsOn, preventDestroy := node.preventDestroy
    refDigests := run.refDigests node.type node.properties live }

/-- Records a creating row before the provider create, so that a create cut short stays tracked. -/
def writeAhead (nodeId : String) (res : Resource) : Step Unit := do
  let memory ← Step.look
  let row ← Step.compute (run.stateNode memory.live nodeId res ∅ .creating)
  Step.put row

def persist (nodeId : String) (res : Resource) : Step Unit := do
  let memory ← Step.look
  let row ← Step.compute
    (run.stateNode memory.live nodeId res (memory.live.getD nodeId ∅) .created)
  Step.put row

end RunContext

/-- Tries a step, and handles what `except Exception` catches. -/
def catchException {α : Type} (step : Step α) (handler : Failure → Step α) : Step α :=
  step.catching fun failure => if failure.isException then handler failure else .raise failure

/-- The given rows, else the backend's. -/
def rowsOrLoad : Option StateGraph → Step StateGraph
  | some rows => .ret rows
  | none => Step.load

/-- Clears a node's hash, so that the next plan cannot skip it. Nothing is raised: what goes wrong
is reported. -/
def markStale (nodeId : String) (rows : Option StateGraph) : Step Unit :=
  catchException
    (do
      let current ← rowsOrLoad rows
      match current[nodeId]? with
      | none => .ret ()
      | some row => Step.put { row with inputHash := noInputHash })
    fun _ => Step.memory (.poisonFailed nodeId)

theorem markStale_some (nodeId : String) (rows : StateGraph) :
    markStale nodeId (some rows) = catchException
      (match rows[nodeId]? with
        | none => .ret ()
        | some row => Step.put { row with inputHash := noInputHash })
      fun _ => Step.memory (.poisonFailed nodeId) := rfl

/-- Drops a destroyed node's row, marking it stale if the drop fails. -/
def forget (nodeId : String) : Step Unit :=
  catchException (Step.erase nodeId) fun failure => do
    markStale nodeId none
    .raise failure

/-! ## What they ask for -/

section

variable {α : Type} {asks : Request → Prop} {nodeId : String}

theorem catchException_only {step : Step α} {handler : Failure → Step α} (hstep : step.Only asks)
    (hhandler : ∀ failure, (handler failure).Only asks) :
    (catchException step handler).Only asks :=
  hstep.catching fun failure => .ite (hhandler failure) trivial

theorem markStale_only (rows : Option StateGraph) (hload : asks .load)
    (hput : ∀ row, asks (.put row)) (hmemory : asks (.memory (.poisonFailed nodeId))) :
    (markStale nodeId rows).Only asks := by
  refine catchException_only (Prog.Only.bind ?_ fun current => ?_) fun _ => Step.memory_only hmemory
  · cases rows with
    | none => exact Step.load_only hload
    | some rows => trivial
  · split
    · trivial
    · exact Step.put_only (hput _)

theorem forget_only (herase : asks (.erase nodeId)) (hload : asks .load)
    (hput : ∀ row, asks (.put row)) (hmemory : asks (.memory (.poisonFailed nodeId))) :
    (forget nodeId).Only asks :=
  catchException_only (Step.erase_only herase) fun _ =>
    (markStale_only none hload hput hmemory).bind fun _ => trivial

theorem RunContext.writeAhead_only (run : RunContext) {res : Resource} (hlook : asks .look)
    (hput : ∀ row, asks (.put row)) : (run.writeAhead nodeId res).Only asks :=
  (Step.look_only hlook).bind fun _ => (Step.compute_only _).bind fun _ => Step.put_only (hput _)

theorem RunContext.persist_only (run : RunContext) {res : Resource} (hlook : asks .look)
    (hput : ∀ row, asks (.put row)) : (run.persist nodeId res).Only asks :=
  (Step.look_only hlook).bind fun _ => (Step.compute_only _).bind fun _ => Step.put_only (hput _)

end

end Atlantide.Executor
