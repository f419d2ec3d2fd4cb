import Atlantide.Executor.Records

/-! # The compensation saga: the undos, and running them when a run fails -/

namespace Atlantide.Executor

namespace RunContext

variable (run : RunContext)

/-- Records a completed node's undo, if the run rolls back at all. -/
def record (nodeId : String) (undo : Undo) : Step Unit :=
  if run.rollback then Step.memory (.record nodeId undo) else .ret ()

/-- The row that records a compensating re-create: the prior one with the new outputs. -/
def restored (prior : StateNode) (old : Resource) (outputs : Dict String Value) : StateNode :=
  { prior with outputs := sealOutputs run.env old.type outputs }

/-- Runs one undo: a provider call, then the write that realigns the rows with it. -/
def undo (nodeId : String) : Undo → Step Unit
  | .create res => do
    Step.delete res
    Step.drop nodeId
  | .update old prior priorOutputs => do
    let _ ← Step.update priorOutputs old
    Step.put prior
  | .replace new old prior => do
    Step.delete new
    let recreated ← Step.create old
    Step.put (run.restored prior old recreated)
  | .delete old prior => do
    let recreated ← Step.create old
    Step.put (run.restored prior old recreated)
  | .cbdCreate new prior => do
    Step.delete new
    Step.put prior
    Step.drop (cbdCompanionId prior.id)
  | .restoreRow prior => Step.put prior

/-- Marks a node's row stale by the rows that were read, if they could be. -/
def markFrom (rows : Except Failure StateGraph) (nodeId : String) : Step Unit :=
  match rows with
  | .ok rows => markStale nodeId (some rows)
  | .error _ => Step.memory (.poisonFailed nodeId)

/-- One compensation: the row is marked stale before its undo runs. -/
def compensate (rows : Except Failure StateGraph) (nodeId : String) (undo : Undo) : Step Unit := do
  if ← Step.leaseLost then Step.memory (.rollbackFailed nodeId)
  else
    Step.memory (.rolledBack nodeId)
    markFrom rows nodeId
    catchException (run.undo nodeId undo) fun _ => Step.memory (.rollbackFailed nodeId)

/-- The rows the stale marks are made from, read once. -/
def rollbackRows : List (String × Undo) → Step (Except Failure StateGraph)
  | [] => .ret (.ok ∅)
  | _ => Step.load.outcome

/-- Undoes completed nodes in reverse completion order, one after the other. -/
def compensateAll (rows : Except Failure StateGraph) : List (String × Undo) → Step Unit
  | [] => .ret ()
  | (nodeId, undo) :: compensations => do
    run.compensate rows nodeId undo
    compensateAll rows compensations

/-- The saga. Once the lease is lost it does not run. -/
def rollBack : Step Unit := do
  if ← Step.leaseLost then .ret ()
  else
    let memory ← Step.look
    let rows ← rollbackRows memory.compensations
    run.compensateAll rows memory.compensations

end RunContext

end Atlantide.Executor
