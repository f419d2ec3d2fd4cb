import Mathlib.Data.List.Basic
import Atlantide.State.S3.Store

/-! # A backend's memory

Each backend process keeps a cached view of the state, the lease it is bound to, the leases it was
granted, and the findings of the acquires it has in progress. Its threads share this memory; each
operation below is one critical section of the source, so it is served atomically like a request to
a store. -/

namespace Atlantide

/-- A held lock over a set of node ids. -/
structure Lease where
  owner : String
  expiresAt : Int
  scope : List String := []
  fence : Nat := 0

/-- A lease item a process created. -/
structure Grant where
  leaseId : Nat
  fence : Nat
  deriving DecidableEq

/-- The state as a backend last read it, kept current by its own writes. -/
structure View where
  epoch : Option Nat
  nodes : Dict String StateNode
  outputs : Dict String Value
  serial : Nat
  nodeSeq : Dict String Nat
  outSeq : Dict String Nat
  /-- The sequence number a stack's head holds, where that is behind `outSeq`. -/
  outBehind : Dict String Nat := ∅
  deriving DecidableEq

namespace View

def seqOf (view : View) (item : Item) : Nat :=
  match item.kind with
  | .node => view.nodeSeq.getD item.name 0
  | .output => view.outSeq.getD item.name 0

/-- Applies a commit unless the view has it. -/
def absorb (view : View) (item : Item) (seq : Nat) (value : ItemValue) : View :=
  let known := view.seqOf item
  if seq ≤ known then view
  else
    match item.kind, value with
    | .node, .node record =>
      { view with
        nodes := view.nodes.alter item.name fun _ => record
        nodeSeq := view.nodeSeq.insert item.name seq
        serial := view.serial + (seq - known) }
    | .output, .outputs values =>
      { view with
        outputs := replaceStack view.outputs item.name values
        outBehind := view.outBehind.erase item.name
        outSeq := view.outSeq.insert item.name seq
        serial := view.serial + (seq - known) }
    | _, _ => view

def of : Option Cut → View
  | none => ⟨none, ∅, ∅, 0, ∅, ∅, ∅⟩
  | some cut =>
    { epoch := some cut.doc.epoch
      nodes := cut.nodes
      outputs := cut.outputs
      serial := cut.serial
      nodeSeq := cut.seqs .node
      outSeq := cut.seqs .output }

end View

/-- One acquire in progress, shared by its chunks: the leases found takeable, and the takeable lease
each row was read pointing at. -/
structure Takeover where
  owner : String
  grant : Grant
  now : Int
  pointed : Dict String Nat := ∅
  dead : List Nat := []
  aborted : Bool := false

/-- The lease ids an unread row may point at and still be taken. -/
def sharedAllowed : Nat := 98

namespace Takeover

def allows (takeover : Takeover) (leaseId : Nat) : Bool :=
  leaseId = takeover.grant.leaseId ∨ leaseId ∈ takeover.dead

def kill (takeover : Takeover) (leaseId : Nat) : Takeover :=
  if leaseId ∈ takeover.dead then takeover
  else { takeover with dead := takeover.dead ++ [leaseId] }

/-- Records that the node's row points at the takeable lease. -/
def allow (takeover : Takeover) (node : String) (leaseId : Nat) : Takeover :=
  { takeover.kill leaseId with pointed := takeover.pointed.insert node leaseId }

def allowedFor (takeover : Takeover) (node : String) : List Nat :=
  match takeover.pointed[node]? with
  | some leaseId => [takeover.grant.leaseId, leaseId]
  | none =>
    takeover.grant.leaseId ::
      takeover.dead.drop (takeover.dead.length - sharedAllowed)

end Takeover

structure Memory where
  clock : Int := 0
  lease : Option Lease := none
  view : Option View := none
  /-- Commits made while there was no view, replayed onto the next one installed. -/
  unseen : List (Item × Nat × ItemValue) := []
  held : Dict String (List String) := ∅
  grants : Dict String (List Grant) := ∅
  takeovers : Dict Nat Takeover := ∅

inductive MemoryOp
  | clock
  | boundLease
  | view
  | installView (fresh : View)
  | dropView
  | dropViewIf (view : View)
  | resetViews
  | record (item : Item) (seq : Nat) (value : ItemValue)
  | absorb (item : Item) (seq : Nat) (value : ItemValue)
  | setBehind (stack : String) (seq : Nat)
  | grants (owner : String)
  | grantScope (owner : String) (grant : Grant) (scope : List String)
  | popGrants (owner : String)
  | restoreGrants (owner : String) (grants : List Grant) (nodes : List String)
  | openTakeover (takeover : Takeover)
  | takeover (leaseId : Nat)
  | kill (takeover leaseId : Nat)
  | allow (takeover : Nat) (node : String) (leaseId : Nat)
  | abort (takeover : Nat)

def MemoryOp.Result : MemoryOp → Type
  | clock => Int
  | boundLease => Option Lease
  | view => Option View
  | installView _ => View
  | grants _ => List Grant
  | popGrants _ => List Grant × List String
  | takeover _ => Option Takeover
  | _ => Unit

namespace Memory

def modifyTakeover (memory : Memory) (leaseId : Nat) (change : Takeover → Takeover) : Memory :=
  { memory with takeovers := memory.takeovers.modify leaseId change }

def serve (memory : Memory) : (op : MemoryOp) → op.Result × Memory × List Event
  | .clock => (memory.clock, memory, [])
  | .boundLease => (memory.lease, memory, [])
  | .view => (memory.view, memory, [])
  | .installView fresh =>
    match memory.view with
    | some view => (view, memory, [])
    | none =>
      let view := memory.unseen.foldl (fun view (item, seq, value) => view.absorb item seq value) fresh
      (view, { memory with view := some view, unseen := [] }, [])
  | .dropView => ((), { memory with view := none }, [])
  | .dropViewIf view =>
    ((), if memory.view = some view then { memory with view := none } else memory, [])
  | .resetViews => ((), { memory with view := none, unseen := [] }, [])
  | .record item seq value =>
    ((), match memory.view with
      | some view => { memory with view := some (view.absorb item seq value) }
      | none => { memory with unseen := memory.unseen ++ [(item, seq, value)] }, [])
  | .absorb item seq value =>
    ((), { memory with view := memory.view.map fun view => view.absorb item seq value }, [])
  | .setBehind stack seq =>
    ((), { memory with view := memory.view.map fun view =>
        { view with outBehind := view.outBehind.insert stack seq } }, [])
  | .grants owner => (memory.grants.getD owner [], memory, [])
  | .grantScope owner grant scope =>
    ((), { memory with
        grants := memory.grants.insert owner (memory.grants.getD owner [] ++ [grant])
        held := memory.held.insert owner ((memory.held.getD owner []).union scope) },
      [.granted owner grant.leaseId scope])
  | .popGrants owner =>
    ((memory.grants.getD owner [], memory.held.getD owner []),
      { memory with grants := memory.grants.erase owner, held := memory.held.erase owner }, [])
  | .restoreGrants owner grants nodes =>
    ((), { memory with
        grants := memory.grants.insert owner (grants ++ memory.grants.getD owner [])
        held := memory.held.insert owner ((memory.held.getD owner []).union nodes) }, [])
  | .openTakeover takeover =>
    ((), { memory with takeovers := memory.takeovers.insert takeover.grant.leaseId takeover }, [])
  | .takeover leaseId => (memory.takeovers[leaseId]?, memory, [])
  | .kill takeover leaseId => ((), memory.modifyTakeover takeover (·.kill leaseId), [])
  | .allow takeover node leaseId =>
    ((), memory.modifyTakeover takeover (·.allow node leaseId), [])
  | .abort takeover =>
    ((), memory.modifyTakeover takeover fun takeover => { takeover with aborted := true }, [])

end Memory

end Atlantide
