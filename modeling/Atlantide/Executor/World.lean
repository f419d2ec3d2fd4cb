import Atlantide.Executor.Env
import Atlantide.Lib.Program

/-! # What a run acts on

A run writes rows and calls providers, and keeps a memory of its own: what each node put out, which
deletes are left, and the undos recorded so far. Rows and resources outlive the run's process; the
memory does not. -/

namespace Atlantide.Executor

open Interleaving

/-- A built undo: what it closes over. -/
inductive Undo
  | create (res : Resource)
  | update (old : Resource) (prior : StateNode) (priorOutputs : Dict String Value)
  /-- The row of the recreated resource takes the outputs of the create. -/
  | replace (new old : Resource) (restored : StateNode)
  | delete (old : Resource) (prior : StateNode)
  | cbdCreate (new : Resource) (prior : StateNode)
  | restoreRow (prior : StateNode)

/-- Why a step failed. -/
inductive Failure
  | fault (fault : Fault)
  | provider
  | backend
  | lease
  | timeout
  | prevented
  | cancelled
  deriving DecidableEq

/-- Whether `except Exception` catches it. -/
def Failure.isException : Failure → Bool
  | cancelled => false
  | _ => true

/-- What the run keeps in its process. -/
structure RunMemory where
  live : LiveOutputs
  deleteIds : List String
  cbdDeferred : Dict String Resource := ∅
  /-- The recorded undos, the latest first. -/
  compensations : List (String × Undo) := []
  orphaned : List String := []
  poisonFailed : List String := []
  rolledBack : List String := []
  rollbackFailed : List String := []

inductive MemoryUpdate
  | live (node : String) (outputs : Dict String Value)
  | deferCleanup (node : String) (old : Resource)
  | record (node : String) (undo : Undo)
  | orphan (node : String)
  | poisonFailed (node : String)
  | rolledBack (node : String)
  | rollbackFailed (node : String)

def RunMemory.apply (memory : RunMemory) : MemoryUpdate → RunMemory
  | .live node outputs => { memory with live := memory.live.insert node outputs }
  | .deferCleanup node old => { memory with cbdDeferred := memory.cbdDeferred.insert node old }
  | .record node undo => { memory with compensations := (node, undo) :: memory.compensations }
  | .orphan node => { memory with orphaned := node :: memory.orphaned }
  | .poisonFailed node => { memory with poisonFailed := node :: memory.poisonFailed }
  | .rolledBack node => { memory with rolledBack := node :: memory.rolledBack }
  | .rollbackFailed node => { memory with rollbackFailed := node :: memory.rollbackFailed }

/-- A resource as it stands at its provider. -/
structure Physical where
  type : String
  inputs : Dict String Value
  deriving DecidableEq

/-- The resources that are live, by physical id, and a supply of fresh ids. -/
structure Cloud where
  resources : Dict String Physical
  next : Nat

/-- Whether the type is of read-only lookups. -/
def isData (types : Types) (type : String) : Bool := (types type).any (·.isData)

namespace Cloud

/-- The physical id the table of a type's fields names, if it names one. -/
def named (types : Types) (type : String) (fields : Dict String Value) : Option String :=
  match (types type).bind fun cls => fields[cls.identity]? with
  | some (.str id) => some id
  | _ => none

/-- The physical id a resource object carries. -/
def idOf (types : Types) (res : Resource) : Option String := named types res.type res.computed

def freshId (cloud : Cloud) : String := "r" ++ toString cloud.next

/-- The outputs of a resource of the type with the physical id. -/
def outputsOf (types : Types) (type id : String) (reported : Dict String Value) :
    Dict String Value :=
  match types type with
  | some cls => reported.insert cls.identity (.str id)
  | none => reported

def create (cloud : Cloud) (res : Resource) : Cloud :=
  ⟨cloud.resources.insert cloud.freshId ⟨res.type, res.inputs⟩, cloud.next + 1⟩

def update (cloud : Cloud) (id : String) (res : Resource) : Cloud :=
  { cloud with resources := cloud.resources.insert id ⟨res.type, res.inputs⟩ }

def delete (cloud : Cloud) (id : String) : Cloud :=
  { cloud with resources := cloud.resources.erase id }

end Cloud

inductive Request
  /-- A lease-checked write. -/
  | put (row : StateNode)
  /-- A lease-checked drop. -/
  | drop (nodeId : String)
  /-- A drop no lease is checked for. -/
  | erase (nodeId : String)
  | load
  | create (res : Resource)
  | update (prior : Dict String Value) (res : Resource)
  | delete (res : Resource)
  /-- Reads the run's memory, and whether the lease is known to be lost. -/
  | look
  /-- Takes a node off the deletes that are left, if it is one of them. -/
  | takeDelete (nodeId : String)
  | memory (update : MemoryUpdate)

@[reducible] def Request.Reply : Request → Type
  | .put _ | .drop _ | .erase _ | .delete _ => Except Failure Unit
  | .load => Except Failure StateGraph
  | .create _ | .update _ _ => Except Failure (Dict String Value)
  | .look => RunMemory × Bool
  | .takeDelete _ => Bool
  | .memory _ => Unit

/-- The passes of a run. -/
inductive Stage
  | predelete
  | forward
  | destroy
  | rolling
  | ended
  deriving DecidableEq

/-- A request of a node's work as it was answered, and whether it took effect. -/
structure Event where
  stage : Stage
  node : String
  request : Request
  reply : request.Reply
  landed : Bool

structure World where
  rows : StateGraph
  cloud : Cloud
  leaseLost : Bool
  memory : RunMemory
  /-- What was asked so far, the latest first. -/
  log : List Event := []

/-- How the awaited call goes: a call that raises may have landed all the same. -/
inductive Fate
  | done
  | raised (failure : Failure) (landed : Bool)
  deriving DecidableEq

structure Choice where
  fate : Fate
  /-- What the provider reports beside the physical id. -/
  reported : Dict String Value := ∅

/-- The call as a shield leaves it: a cancellation of the caller lets it go on. -/
def Choice.shielded (choice : Choice) : Choice :=
  match choice.fate with
  | .raised .cancelled _ => { choice with fate := .done }
  | _ => choice

/-- An answer, whether its request took effect, and the world it leaves. -/
abbrev Answer (α : Type) := α × Bool × World

/-- An awaited call with an effect: the effect is had when it ends well, or raises having landed. -/
def attempt {α : Type} (fate : Fate) (world : World) (value : α) (effect : World) :
    Answer (Except Failure α) :=
  match fate with
  | .done => (.ok value, true, effect)
  | .raised failure landed => (.error failure, landed, if landed then effect else world)

/-- A call refused before it has any effect. -/
def refuse {α : Type} (failure : Failure) (world : World) : Answer (Except Failure α) :=
  (.error failure, false, world)

namespace World

def putRow (world : World) (row : StateNode) : World :=
  { world with rows := world.rows.insert row.id row }

def dropRow (world : World) (nodeId : String) : World :=
  { world with rows := world.rows.erase nodeId }

/-- The physical resource an update is about. -/
def updated (types : Types) (prior : Dict String Value) (res : Resource) : Option String :=
  (Cloud.named types res.type prior).or (Cloud.idOf types res)

/-- What a request does when it takes effect. -/
def effect (types : Types) (world : World) : Request → World
  | .put row => world.putRow row
  | .drop nodeId | .erase nodeId => world.dropRow nodeId
  | .create res =>
    -- A data source is read, and creates nothing.
    if isData types res.type then world else { world with cloud := world.cloud.create res }
  | .update prior res =>
    match isData types res.type, updated types prior res with
    | false, some id => { world with cloud := world.cloud.update id res }
    | _, _ => world
  | .delete res =>
    match Cloud.idOf types res with
    | some id => { world with cloud := world.cloud.delete id }
    -- Nothing is known to delete.
    | none => world
  | .takeDelete nodeId => { world with
      memory := { world.memory with deleteIds := world.memory.deleteIds.filter (· ≠ nodeId) } }
  | .memory update => { world with memory := world.memory.apply update }
  | .load | .look => world

/-- The backend and the providers answer. -/
def answer (types : Types) (choice : Choice) (world : World) :
    (request : Request) → Answer request.Reply
  | .put row =>
    if world.leaseLost then refuse .lease world
    else attempt choice.fate world () (world.effect types (.put row))
  | .drop nodeId =>
    if world.leaseLost then refuse .lease world
    else attempt choice.fate world () (world.effect types (.drop nodeId))
  | .erase nodeId => attempt choice.fate world () (world.effect types (.erase nodeId))
  | .load => attempt choice.fate world world.rows world
  | .create res =>
    attempt choice.fate world
      (if isData types res.type then choice.reported
        else Cloud.outputsOf types res.type world.cloud.freshId choice.reported)
      (world.effect types (.create res))
  | .update prior res =>
    if isData types res.type then attempt choice.fate world choice.reported world
    else
      match updated types prior res with
      | some id =>
        if id ∈ world.cloud.resources then
          attempt choice.fate world (Cloud.outputsOf types res.type id choice.reported)
            (world.effect types (.update prior res))
        else refuse .provider world
      | none => refuse .provider world
  | .delete res => attempt choice.fate world () (world.effect types (.delete res))
  | .look => ((world.memory, world.leaseLost), true, world)
  | .takeDelete nodeId =>
    (decide (nodeId ∈ world.memory.deleteIds), true, world.effect types (.takeDelete nodeId))
  | .memory update => ((), true, world.effect types (.memory update))

/-- The service: a request of a node's work is answered, and recorded. -/
def serve (types : Types) (stage : Stage) (node : String) (choice : Choice) (world : World)
    (request : Request) : request.Reply × World :=
  let answered := world.answer types choice request
  (answered.1, { answered.2.2 with
    log := ⟨stage, node, request, answered.1, answered.2.1⟩ :: answered.2.2.log })

/-- What happens outside the run: its lease is found to be lost. -/
def loseLease (world : World) : World := { world with leaseLost := true }

end World

/-- A step of a run, or a whole node's work. -/
abbrev Step (α : Type) := Prog Request Request.Reply Failure α

namespace Step

/-- A pure computation that may raise. -/
def compute {α : Type} : Except Fault α → Step α
  | .ok value => .ret value
  | .error fault => .raise (.fault fault)

/-- A reply, its failure raised. -/
def reply {α : Type} : Except Failure α → Step α
  | .ok value => .ret value
  | .error failure => .raise failure

def put (row : StateNode) : Step Unit := .ask (.put row) reply
def drop (nodeId : String) : Step Unit := .ask (.drop nodeId) reply
def erase (nodeId : String) : Step Unit := .ask (.erase nodeId) reply
def load : Step StateGraph := .ask .load reply
def create (res : Resource) : Step (Dict String Value) := .ask (.create res) reply
def update (prior : Dict String Value) (res : Resource) : Step (Dict String Value) :=
  .ask (.update prior res) reply
def delete (res : Resource) : Step Unit := .ask (.delete res) reply
def look : Step RunMemory := .ask .look fun found => .ret found.1
def leaseLost : Step Bool := .ask .look fun found => .ret found.2
def takeDelete (nodeId : String) : Step Bool := .ask (.takeDelete nodeId) .ret
def memory (change : MemoryUpdate) : Step Unit := .ask (.memory change) .ret

section

variable {α : Type} {asks : Request → Prop}

theorem compute_only (computed : Except Fault α) : (compute computed).Only asks := by
  cases computed <;> trivial

theorem reply_only (answer : Except Failure α) : (reply answer).Only asks := by
  cases answer <;> trivial

theorem put_only {row : StateNode} (hasks : asks (.put row)) : (put row).Only asks :=
  ⟨hasks, reply_only⟩

theorem drop_only {nodeId : String} (hasks : asks (.drop nodeId)) : (drop nodeId).Only asks :=
  ⟨hasks, reply_only⟩

theorem erase_only {nodeId : String} (hasks : asks (.erase nodeId)) : (erase nodeId).Only asks :=
  ⟨hasks, reply_only⟩

theorem load_only (hasks : asks .load) : load.Only asks := ⟨hasks, reply_only⟩

theorem create_only {res : Resource} (hasks : asks (.create res)) : (create res).Only asks :=
  ⟨hasks, reply_only⟩

theorem update_only {prior : Dict String Value} {res : Resource}
    (hasks : asks (.update prior res)) : (update prior res).Only asks :=
  ⟨hasks, reply_only⟩

theorem delete_only {res : Resource} (hasks : asks (.delete res)) : (delete res).Only asks :=
  ⟨hasks, reply_only⟩

theorem look_only (hasks : asks .look) : look.Only asks := ⟨hasks, fun _ => trivial⟩

theorem leaseLost_only (hasks : asks .look) : leaseLost.Only asks := ⟨hasks, fun _ => trivial⟩

theorem takeDelete_only {nodeId : String} (hasks : asks (.takeDelete nodeId)) :
    (takeDelete nodeId).Only asks :=
  ⟨hasks, fun _ => trivial⟩

theorem memory_only {update : MemoryUpdate} (hasks : asks (.memory update)) :
    (memory update).Only asks :=
  ⟨hasks, fun _ => trivial⟩

end

end Step

end Atlantide.Executor
