import Atlantide.Executor.World
import Atlantide.Reconcile.StateIr
import Atlantide.Reconcile.Planned

/-! # What one run shares across its collaborators -/

namespace Atlantide.Executor

/-- Plaintext outputs of every recorded node. -/
def liveOutputs (prior : StateGraph) (secrets : SecretsRegistry) : Except Fault LiveOutputs :=
  prior.foldl (fun opened nodeId row => do
    let table ← opened
    .ok (table.insert nodeId (← unsealOutputs secrets row.outputs))) (.ok ∅)

/-- One changeset's execution: its inputs, wired. -/
structure RunContext where
  env : ApplyEnv
  desired : Desired
  changeset : ChangeSet
  prior : StateGraph
  priorGraph : DiGraph
  /-- The prior rows' outputs, as the run's live outputs start. -/
  priorOutputs : LiveOutputs
  /-- Whether a failure is rolled back. -/
  rollback : Bool
  /-- A config's names are identifiers. -/
  named : ∀ nodeId ∈ desired.ir.byId, '~' ∉ nodeId.toList
  keyed : prior.Keyed
  ordered : stateDigraph prior = .ok priorGraph
  seeded : liveOutputs prior env.secrets = .ok priorOutputs
  planned : changeset.Planned desired.ir prior

/-- Whether a run can be wired: the prior rows make a graph, and their outputs open. -/
def startable (env : ApplyEnv) (desired : Desired) (prior : StateGraph) : Bool :=
  desired.ir.byId.keys.all (fun nodeId => '~' ∉ nodeId.toList) &&
    prior.toList.all (fun entry => entry.2.id = entry.1) &&
    (stateDigraph prior).isOk && (liveOutputs prior env.secrets).isOk

namespace RunContext

/-- The run of a changeset over rows that can be read. -/
def wire (env : ApplyEnv) (desired : Desired) (changeset : ChangeSet) (prior : StateGraph)
    (rollback : Bool) (hstart : startable env desired prior)
    (planned : changeset.Planned desired.ir prior) : RunContext where
  env := env
  desired := desired
  changeset := changeset
  prior := prior
  priorGraph := (irFromState prior).digraph
  priorOutputs := (liveOutputs prior env.secrets).toOption.getD ∅
  rollback := rollback
  planned := planned
  named nodeId hmem := by
    simp only [startable, Bool.and_eq_true, List.all_eq_true] at hstart
    simpa using hstart.1.1.1 nodeId (Std.ExtTreeMap.mem_keys.mpr hmem)
  keyed nodeId row hrow := by
    simp only [startable, Bool.and_eq_true, List.all_eq_true] at hstart
    simpa using hstart.1.1.2 (nodeId, row) (Std.ExtTreeMap.mem_toList_iff_getElem?_eq_some.mpr hrow)
  ordered := by
    simp only [startable, Bool.and_eq_true] at hstart
    cases hgraph : stateDigraph prior with
    | ok graph => rw [(buildGraph_eq_ok.mp hgraph).1]
    | error fault => simp [hgraph, Except.isOk, Except.toBool] at hstart
  seeded := by
    simp only [startable, Bool.and_eq_true] at hstart
    cases hopened : liveOutputs prior env.secrets with
    | ok opened => rfl
    | error fault => simp [hopened, Except.isOk, Except.toBool] at hstart

variable (run : RunContext)

def changes : Dict String Change :=
  run.changeset.changes.foldl (fun table change => table.insert change.nodeId change) ∅

/-- A node's change is the one the changeset has for it. -/
theorem changes_eq_some {nodeId : String} {change : Change} :
    run.changes[nodeId]? = some change ↔
      change ∈ run.changeset.changes ∧ change.nodeId = nodeId := by
  rw [changes, getElem?_foldl_insert run.planned.distinct]
  simp

/-- The planned deletes. -/
def deleteIds : List String := (run.changeset.byAction .delete).map (·.nodeId)

/-- The memory a run starts with. -/
def memory : RunMemory := { live := run.priorOutputs, deleteIds := run.deleteIds }

/-- A destroy-before-create REPLACE of something recorded. -/
def destroyBeforeCreate (change : Change) : Bool :=
  change.action = .replace && !change.createBeforeDestroy && change.nodeId ∈ run.prior

/-- Whether the run destroys the change's node ahead of, or without, a create. -/
def destroyed (change : Change) : Bool :=
  change.action = .delete || (run.destroyBeforeCreate change && !change.conditional)

/-- The nodes that depended on `nodeId` in prior state and are destroyed. -/
def destroyedDependents (nodeId : String) : List String :=
  (run.priorGraph.dependents nodeId).filter fun dependent =>
    (run.changes[dependent]?).any run.destroyed

/-- Nodes to destroy before the forward pass, so no delete precedes a dependent's. -/
def predeleted : List String :=
  let pending := (run.changeset.changes.filter run.destroyBeforeCreate).map (·.nodeId)
  Closure.saturate run.destroyedDependents (pending.length + run.prior.keys.length) pending []

theorem priorGraph_eq : run.priorGraph = (irFromState run.prior).digraph :=
  (buildGraph_eq_ok.mp run.ordered).1

theorem mem_priorGraph {nodeId : String} : nodeId ∈ run.priorGraph.nodeIds ↔ nodeId ∈ run.prior := by
  rw [priorGraph_eq, IRGraph.digraph, Std.ExtTreeMap.mem_keys,
    Std.ExtTreeMap.mem_iff_isSome_getElem?, Option.isSome_iff_exists]
  simp only [irFromState_byId run.keyed]
  rw [Std.ExtTreeMap.mem_iff_isSome_getElem?, Option.isSome_iff_exists]
  constructor
  · rintro ⟨node, row, hrow, -⟩
    exact ⟨row, hrow⟩
  · rintro ⟨row, hrow⟩
    exact ⟨_, row, hrow, rfl⟩

theorem mem_prior_of_dependent {nodeId dependent : String}
    (hdependent : dependent ∈ run.priorGraph.dependents nodeId) : dependent ∈ run.prior := by
  rw [priorGraph_eq] at hdependent
  obtain ⟨-, hedge⟩ := List.mem_filter.mp hdependent
  obtain ⟨row, hrow, -⟩ := (mem_edgesOf_irFromState run.keyed).mp (of_decide_eq_true hedge)
  exact StateGraph.mem_of_row hrow

/-- What is destroyed ahead: whatever is destroyed and depended, directly or not, on a
destroy-before-create REPLACE. -/
theorem mem_predeleted {nodeId : String} : nodeId ∈ run.predeleted ↔
    ∃ change ∈ run.changeset.changes, run.destroyBeforeCreate change ∧
      Closure.Reaches run.destroyedDependents change.nodeId nodeId := by
  have hnodes : ∀ dep, run.destroyedDependents dep ⊆ run.prior.keys := fun dep dependent hmem =>
    Std.ExtTreeMap.mem_keys.mpr (run.mem_prior_of_dependent (List.mem_filter.mp hmem).1)
  rw [predeleted, Closure.mem_saturate_iff hnodes (Nat.le_refl _)]
  constructor
  · rintro ⟨source, hsource, hreach⟩
    obtain ⟨change, hchange, rfl⟩ := List.mem_map.mp hsource
    obtain ⟨hmem, hdestroy⟩ := List.mem_filter.mp hchange
    exact ⟨change, hmem, hdestroy, hreach⟩
  · rintro ⟨change, hmem, hdestroy, hreach⟩
    exact ⟨change.nodeId, List.mem_map_of_mem (List.mem_filter.mpr ⟨hmem, hdestroy⟩), hreach⟩

theorem mem_prior_of_predeleted {nodeId : String} (hmem : nodeId ∈ run.predeleted) :
    nodeId ∈ run.prior := by
  obtain ⟨change, -, -, hreach⟩ := run.mem_predeleted.mp hmem
  obtain ⟨dep, -, hstep⟩ := Relation.TransGen.tail'_iff.mp hreach
  exact run.mem_prior_of_dependent (List.mem_filter.mp hstep).1

end RunContext

/-- The registered provider's name, or a fault naming it. -/
def providerFor (env : ApplyEnv) (name : String) : Except Fault Unit :=
  if name ∈ env.providers then .ok ()
  else .error (.engine ("no provider registered for " ++ name))

end Atlantide.Executor
