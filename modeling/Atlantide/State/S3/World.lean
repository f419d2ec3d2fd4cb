import Atlantide.Lib.System
import Atlantide.State.S3.View

/-! # Backends over the two stores

The world is the store, every backend process's memory, and the history of what happened, newest
first. A task is one thread of one process. Its next request is served when the run says so, and
the run also says how: answered; applied, or not applied, with the answer lost; or, for a
transaction, cancelled for a transient reason. -/

namespace Atlantide

open Interleaving

structure Tid where
  process : Nat
  thread : Nat
  deriving DecidableEq, Inhabited

/-- One thing that happened: which task did it, and what its host's clock showed. -/
structure Moment where
  task : Tid
  clock : Int
  event : Event

abbrev History := List Moment

structure World where
  store : Store := {}
  memory : Nat → Memory := fun _ => {}
  history : History := []

inductive Fate
  | answered
  /-- The request was applied but its answer never arrived. -/
  | lost
  /-- The request was not applied and no answer arrived. -/
  | failed
  /-- The transaction was cancelled for a reason other than a condition. -/
  | transient
  deriving DecidableEq

structure Choice where
  fate : Fate := .answered
  schedule : List Nat := []
  bounds : List EntryKey := []

inductive Request
  | aws (request : AwsRequest)
  | memory (op : MemoryOp)
  /-- A fresh random name. -/
  | uuid
  /-- How the thread pool will interleave the threads given to it. -/
  | schedule
  /-- Where the pages of a listing will end. -/
  | paging

def Request.Reply : Request → Type
  | aws request => Option request.Payload
  | memory op => op.Result
  | uuid => Nat
  | schedule => List Nat
  | paging => List EntryKey

namespace World

def clock (world : World) (tid : Tid) : Int := (world.memory tid.process).clock

def record (world : World) (tid : Tid) (events : List Event) : History :=
  events.map (fun event => ⟨tid, world.clock tid, event⟩) ++ world.history

/-- What the client makes of a request that was applied while its answer was lost. A `PutObject` of a
fresh key, repeated, finds its own object and is refused; a lease item that is put again is taken as
put. -/
def afterLost : (request : AwsRequest) → request.Payload → Option request.Payload
  | .putEntry _, _ => some none
  | .putLease .., leaseId => some leaseId
  | _, _ => none

/-- Only a transaction is cancelled for a transient reason. -/
def afterTransient : (request : AwsRequest) → Option request.Payload
  | .transact _ => some .transient
  | _ => none

/-- The world once the request was applied. -/
def after (tid : Tid) (world : World) (request : AwsRequest) : World :=
  { world with
    store := (world.store.serve request).2.1
    history := world.record tid (world.store.serve request).2.2 }

/-- Serves an AWS request. A transaction carries an idempotency token, so a client that repeats it
after a lost answer gets the first call's answer. -/
def serveAws (tid : Tid) (choice : Choice) (world : World) (request : AwsRequest) :
    Option request.Payload × World :=
  let payload := (world.store.serve request).1
  match choice.fate with
  | .answered => (some payload, world.after tid request)
  | .lost => (afterLost request payload, world.after tid request)
  | .failed => (none, world)
  | .transient => (afterTransient request, world)

def serveMemory (tid : Tid) (world : World) (op : MemoryOp) : op.Result × World :=
  let served := (world.memory tid.process).serve op
  (served.1,
    { world with
      memory := Function.update world.memory tid.process served.2.1
      history := world.record tid served.2.2 })

def serve (tid : Tid) (choice : Choice) (world : World) :
    (request : Request) → request.Reply × World
  | .aws request => world.serveAws tid choice request
  | .memory op => world.serveMemory tid op
  | .uuid =>
    (world.store.minted,
      { world with store := { world.store with minted := world.store.minted + 1 } })
  | .schedule => (choice.schedule, world)
  | .paging => (choice.bounds, world)

end World

/-- What the surroundings may do at any moment: a host's clock advances, and a process is bound to a
lease, or to none. -/
inductive Surroundings
  | tick (process : Nat) (amount : Nat)
  | bind (process : Nat) (lease : Option Lease)

def World.env (event : Surroundings) (world : World) : World :=
  match event with
  | .tick process amount =>
    let memory := world.memory process
    { world with
      memory := Function.update world.memory process { memory with clock := memory.clock + amount } }
  | .bind process lease =>
    let memory := world.memory process
    { world with memory := Function.update world.memory process { memory with lease } }

end Atlantide
