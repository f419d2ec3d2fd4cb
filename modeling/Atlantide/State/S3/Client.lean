import Atlantide.State.S3.World

/-! # Client plumbing: bounded retries and fan-out -/

namespace Atlantide

open Interleaving

/-- Why a backend call failed. -/
inductive Error
  /-- A request got no answer. -/
  | service
  /-- An entry vanished mid-read: it was compacted. -/
  | entryVanished
  /-- The snapshot changed between the read and the conditional write. -/
  | snapshotMoved
  | outsideScope (node : String)
  /-- The head is at another fence than the lease's. -/
  | fenced (node : String) (fence recorded : Nat)
  /-- The bounded attempts are spent. -/
  | keptMoving
  /-- The node is locked by a live lease. -/
  | locked (node : String) (owner : String)
  | newerFence (node : String) (fence : Nat)
  | lockContended
  | leaseRevoked (fence : Nat)
  | leaseGone (fence : Nat)
  deriving DecidableEq

abbrev Backend (α : Type) := Prog Request Request.Reply Error α

namespace limits

/-- Attempts the SDK makes at one request. -/
def maxAttempts : Nat := 3
def transactMax : Nat := 100
def casAttempts : Nat := 5
def ddbAttempts : Nat := 5
def readAttempts : Nat := 5
def relistAttempts : Nat := 3
def reseedGap : Nat := 1000000

end limits

/-- One state's configuration. -/
structure S3Context where
  skewMargin : Int := 30

/-- `batched(items, size)`: consecutive runs of at most `size` items. -/
def batchedUpTo {T : Type} (size : Nat) : Nat → List T → List (List T)
  | 0, _ | _, [] => []
  | fuel + 1, items => items.take size :: batchedUpTo size fuel (items.drop size)

def batched {T : Type} (size : Nat) (items : List T) : List (List T) :=
  batchedUpTo size items.length items

theorem sublist_of_mem_batched {T : Type} {size : Nat} {items batch : List T}
    (h : batch ∈ batched size items) : batch.Sublist items := by
  suffices hfuel : ∀ fuel items, batch ∈ batchedUpTo size fuel items → batch.Sublist items from
    hfuel _ _ h
  clear h items
  intro fuel
  induction fuel with
  | zero => exact fun _ h => nomatch h
  | succ fuel ih =>
    intro items h
    cases items with
    | nil => cases h
    | cons first items =>
      rcases List.mem_cons.mp h with rfl | h
      · exact List.take_sublist size _
      · exact (ih _ h).trans (List.drop_sublist size _)

/-- One request as the SDK makes it: repeated while no answer comes, then given up. -/
def sendUpTo (request : AwsRequest) : Nat → Backend request.Payload
  | 0 => .raise .service
  | attempts + 1 =>
    .ask (.aws request) fun reply =>
      match reply with
      | some payload => .ret payload
      | none => sendUpTo request attempts

def send (request : AwsRequest) : Backend request.Payload := sendUpTo request limits.maxAttempts

def memory (op : MemoryOp) : Backend op.Result := .ask (.memory op) .ret

/-- `[work(item) for item in items]`, fanned out when there is enough of it. -/
def parallel {T R : Type} (work : T → Backend R) (items : List T) : Backend (List R) :=
  if items.length ≤ 2 then Prog.sequence (items.map work)
  else .ask .schedule fun schedule => Prog.join schedule (items.map work)

/-- The `TransactWriteItems` calls one transaction may make, transient retries included. `none` in
the outcome's refusal means it applied. -/
def transact (items : List TransactItem) : Nat → Backend (Option (List Nat) × Nat)
  | 0 => .raise .lockContended
  | budget + 1 =>
    .ask (.aws (.transact items)) fun reply =>
      match reply with
      | none => .raise .service
      | some .applied => .ret (none, budget)
      | some (.refused failed) => .ret (some failed, budget)
      | some .transient => transact items budget

end Atlantide
