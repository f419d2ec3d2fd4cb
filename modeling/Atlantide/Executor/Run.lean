import Atlantide.Executor.Forward
import Atlantide.Lib.Schedule
import Atlantide.Reconcile.Diff

/-! # A run, pass after pass

Phase 0 destroys what the forward pass must wait for, dependents first; the forward pass applies
every node of the config, dependencies first; phase 2 destroys the rest, dependents first. Before
phase 2 a failure goes to the saga, once nothing is running any more. A run that is stopped leaves
the world as it was at that step. -/

namespace Atlantide.Executor

open Interleaving

/-- The stage after one that ended well. -/
def Stage.following : Stage → Stage
  | predelete => forward
  | forward => destroy
  | destroy | rolling | ended => ended

/-- Whether a failure of the stage goes to the saga. -/
def Stage.compensated : Stage → Bool
  | predelete | forward => true
  | destroy | rolling | ended => false

abbrev Tasks := Schedule.Config String World Request Request.Reply Failure

structure RunState where
  stage : Stage
  tasks : Tasks

/-- The world as it stands. -/
abbrev RunState.world (state : RunState) : World := state.tasks.world

inductive RunAct
  | task (act : Schedule.Act String Choice Unit)
  /-- The stage is over. -/
  | next

namespace RunContext

variable (run : RunContext)

/-- The nodes a stage works on; the saga is a single task. -/
def nodesOf : Stage → List String
  | .predelete | .destroy => run.priorGraph.nodeIds
  | .forward => run.desired.ir.digraph.nodeIds
  | .rolling => [""]
  | .ended => []

def workOf (stage : Stage) (nodeId : String) : Step Unit :=
  match stage with
  | .predelete => run.predeleteNode nodeId
  | .forward => run.applyNode nodeId
  | .destroy => run.destroyNode nodeId
  | .rolling => run.rollBack
  | .ended => .ret ()

def schedule (stage : Stage) : Schedule String Choice World Request Request.Reply Unit Failure where
  before nodeId :=
    match stage with
    | .predelete | .destroy => run.priorGraph.predecessors nodeId true
    | .forward => run.desired.ir.digraph.predecessors nodeId false
    | .rolling | .ended => []
  work nodeId := if nodeId ∈ run.nodesOf stage then run.workOf stage nodeId else .ret ()
  serve nodeId choice :=
    World.serve run.env.types stage nodeId (if stage = .rolling then choice.shielded else choice)
  env _ := World.loseLease

/-- Every node of the stage has ended well. -/
def finished (stage : Stage) (tasks : Tasks) : Bool :=
  (run.nodesOf stage).all fun nodeId => (tasks.tasks nodeId).done

/-- A node of the stage failed, and none is at work. -/
def aborted (stage : Stage) (tasks : Tasks) : Bool :=
  (run.nodesOf stage).any (fun nodeId => (tasks.tasks nodeId).failed.isSome) &&
    (run.nodesOf stage).all fun nodeId => !(tasks.tasks nodeId).busy

/-- Where a run goes from a stage that is over. -/
def nextStage (stage : Stage) (tasks : Tasks) : Option Stage :=
  if stage = .ended then none
  else if run.finished stage tasks then some stage.following
  else if run.aborted stage tasks then
    some (if stage.compensated && run.rollback then .rolling else .ended)
  else none

def step : RunAct → RunState → Option RunState
  | .task act, state =>
    ((run.schedule state.stage).step act state.tasks).map fun tasks => { state with tasks }
  | .next, state =>
    (run.nextStage state.stage state.tasks).map fun stage =>
      ⟨stage, Schedule.initial state.world⟩

/-- The states a run goes through. -/
def steps : List RunAct → RunState → Option RunState
  | [], state => some state
  | act :: acts, state => (run.step act state).bind (steps acts)

/-- The world a run starts in. -/
def startWorld (cloud : Cloud) : World :=
  { rows := run.prior, cloud, leaseLost := false, memory := run.memory }

def start (cloud : Cloud) : RunState := ⟨.predelete, Schedule.initial (run.startWorld cloud)⟩

/-- The run can be in the state, having started on the cloud. -/
def Reaches (cloud : Cloud) (state : RunState) : Prop :=
  ∃ acts, run.steps acts (run.start cloud) = some state

end RunContext

/-! ## Small plans

One provider of one type of things, whose codec and secrets are as plain as can be. -/

namespace Small

def codec : Codec where
  canonical
    | .str text => text
    | _ => ""
  sha256 := id
  transform _ _ := .error .shape

def secrets : SecretsRegistry where
  resolve ref := .ok ref.name
  digest scope text := .ok (scope ++ "=" ++ text)
  sealText := .str
  unsealValue := .ok

def thing : ResourceType where
  provider := "p"
  fields := [("id", .computed), ("size", .mutable), ("kind", .immutable)]

def env : ApplyEnv where
  codec := codec
  types type := if type = "t" then some thing else none
  secrets := secrets
  providers := ["p"]
  stackOutputs := ∅
  ambient := {}
  validate _ properties := .ok properties

/-- A node of the config, hashed by its properties. -/
def node (name : String) (dependsOn : List String) (properties : Dict String Value := ∅)
    (dependencies : List String := []) : IRNode :=
  { id := "s:t:" ++ name, type := "t", provider := "p", providerVersion := "1", properties,
    dependencies, dependsOn }

/-- The resource the node's source line builds. -/
def resource (node : IRNode) : Resource :=
  { type := "t", provider := "p", stack := "s", name := localNameOf node.id
    inputs := node.properties }

def hashOf (node : IRNode) : String :=
  node.properties.foldl (fun hash name value => hash ++ name ++ "=" ++ codec.canonical value) "#"

def config (nodes : List IRNode) : Desired where
  ir := ⟨nodes⟩
  hashes nodeId := ((⟨nodes⟩ : IRGraph).byId[nodeId]?.map hashOf).getD ""
  resources := nodes.foldl (fun table node => table.insert node.id (resource node)) ∅

/-- The row of a node whose resource is live. -/
def row (node : IRNode) (physical : String) : StateNode :=
  { id := node.id, type := "t", provider := "p", providerVersion := "1", inputHash := hashOf node
    properties := node.properties, dependencies := node.dependencies, dependsOn := node.dependsOn
    outputs := (∅ : Dict String Value).insert "id" (.str physical) }

def rows (rows : List StateNode) : StateGraph :=
  rows.foldl (fun table row => table.insert row.id row) ∅

/-- What the planner diffs. -/
def diffInputs (desired : Desired) (prior : StateGraph) : DiffInputs where
  desired := desired.ir
  desiredHashes := desired.hashes
  prior := prior
  mutability := typeMutability env.types
  verdicts := ∅

/-- The next requests of a node's work end well. -/
def serves (nodeId : String) (count : Nat) : List RunAct :=
  List.replicate count (.task (.serve nodeId ⟨.done, ∅⟩))

/-- A node's work begins, and its first requests end well. -/
def goes (nodeId : String) (count : Nat) : List RunAct :=
  .task (.start nodeId) :: serves nodeId count

/-- The next request of a node's work fails, without effect. -/
def fails (nodeId : String) : RunAct := .task (.serve nodeId ⟨.raised .provider false, ∅⟩)

end Small

end Atlantide.Executor
