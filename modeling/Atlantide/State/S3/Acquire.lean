import Atlantide.State.S3.Writes

/-! # Taking a scope's lock rows for a new lease, and raising its heads' fences

Rows are written in parallel transactions, a lock row and a head fence for each node. A row refused
by its condition is judged by its lease item: a lease that is gone, revoked, this owner's own, or
lapsed more than the skew margin ago may be taken from, and a lapsed one is revoked first. -/

namespace Atlantide

open Interleaving

namespace Fences

def bumpFence (amount seed : Nat) : Backend Nat := send (.bumpFence amount seed)

/-- Mints the next fence. `above` is the highest fence the snapshot records; a missing counter
restarts `reseedGap` past it. -/
def nextFence (above : Nat) : Backend Nat := do
  let fence ← bumpFence 1 (if 0 < above then above + limits.reseedGap else 0)
  if fence ≤ above then bumpFence (above - fence + 1) 0 else pure fence

end Fences

namespace LeaseItems

def deleteLease (grant : Grant) (owner : String) : Backend Unit :=
  send (.deleteLease grant.leaseId owner)

def releaseRow (owner : String) (leaseId : Option Nat) (node : String) : Backend Unit :=
  send (.deleteRow node owner leaseId)

/-- Undoes a failed acquire: its lease item, then the rows it may have written. -/
def dropGrant (owner : String) (grant : Grant) (nodes : List String) : Backend Unit := do
  deleteLease grant owner
  let _ ← parallel (releaseRow owner (some grant.leaseId)) nodes
  pure ()

def readRows (nodes : List String) : Backend (List (String × LockRow)) := do
  let rows ← parallel (fun node => (send (.getRow node) : Backend (Option LockRow))) nodes
  pure ((nodes.zip rows).filterMap fun (node, row) => row.map fun row => (node, row))

def readLeases (leaseIds : List Nat) : Backend (List (Nat × Option LeaseItem)) := do
  let leases ← parallel (fun leaseId => (send (.getLease leaseId) : Backend (Option LeaseItem)))
    leaseIds
  pure (leaseIds.zip leases)

end LeaseItems

namespace Acquirer

/-- How one lock chunk of an acquire ended. -/
inductive ChunkOutcome
  | taken
  | skipped
  | refused (refusal : Error)

/-- Marks a lapsed lease revoked: `none` once it is dead, else its live item. -/
def revoke (leaseId : Nat) (owner : String) (stale : Int) : Backend (Option LeaseItem) := do
  match ← send (.revokeLease leaseId owner stale) with
  | .applied => pure none
  | .refused old => pure old

/-- `none` if the lease may be taken from, else its live item. -/
def judgeLease (leaseId : Nat) (item : Option LeaseItem) (owner : String) (stale : Int) :
    Backend (Option LeaseItem) :=
  match item with
  | none => pure none
  | some lease =>
    if lease.revoked = true ∨ lease.owner = owner then pure none
    else if stale ≤ lease.expires then pure (some lease)
    else revoke leaseId owner stale

/-- Judges each lease in turn; the live ones. -/
def judgeEach (takeover : Nat) (owner : String) (stale : Int) :
    List (Nat × Option LeaseItem) → Backend (List (Nat × LeaseItem))
  | [] => pure []
  | (leaseId, item) :: rest => do
    let now : Option Takeover ← memory (.takeover takeover)
    if now.any (·.allows leaseId) then judgeEach takeover owner stale rest
    else
      match ← judgeLease leaseId item owner stale with
      | some lease =>
        let live ← judgeEach takeover owner stale rest
        pure ((leaseId, lease) :: live)
      | none =>
        memory (.kill takeover leaseId)
        judgeEach takeover owner stale rest

/-- Records each row that points at a takeable lease. -/
def allowEach (takeover : Nat) (live : List (Nat × LeaseItem)) :
    List (String × LockRow) → Backend Unit
  | [] => pure ()
  | (node, row) :: rows => do
    if live.any (fun (leaseId, _) => leaseId = row.leaseId) then pure ()
    else memory (.allow takeover node row.leaseId)
    allowEach takeover live rows

/-- The first requested node that a live lease of another owner holds. -/
def scopeConflict (owner : String) (stale : Int) (live : List (Nat × LeaseItem))
    (rows : List (String × LockRow)) : Option Error :=
  rows.findSome? fun (node, row) =>
    (live.find? fun (leaseId, _) => leaseId = row.leaseId).bind fun (_, lease) =>
      if lease.owner ≠ owner ∧ stale < lease.expires then some (.locked node lease.owner) else none

/-- Judges the leases holding `nodes`: allows the takeable, reports a live one. -/
def judgeHolders (ctx : S3Context) (takeover : Takeover) (nodes : List String) :
    Backend (Option Error) := do
  let rows ← LeaseItems.readRows nodes
  let now : Option Takeover ← memory (.takeover takeover.grant.leaseId)
  let unknown := ((rows.map fun (_, row) => row.leaseId).dedup).filter fun leaseId =>
    !now.any (·.allows leaseId)
  let leases ← LeaseItems.readLeases unknown
  let stale := takeover.now - ctx.skewMargin
  let live ← judgeEach takeover.grant.leaseId takeover.owner stale leases
  allowEach takeover.grant.leaseId live rows
  let blocked := rows.any fun (_, row) => live.any fun (leaseId, _) => leaseId = row.leaseId
  pure (if blocked then
    some ((scopeConflict takeover.owner stale live rows).getD .lockContended) else none)

/-- The transaction items claiming one node for the new lease: the lock row, then the head. -/
def claimItems (takeover : Takeover) (allowed : List Nat) (node : String) : List TransactItem :=
  [.putRow node ⟨takeover.owner, takeover.grant.fence, takeover.grant.leaseId⟩ allowed,
    .raiseFence node takeover.grant.fence]

/-- The transaction items claiming the batch. Each row's condition is read at its own moment. -/
def claimBatch (takeover : Takeover) : List String → Backend (List TransactItem)
  | [] => pure []
  | node :: nodes => do
    let now : Option Takeover ← memory (.takeover takeover.grant.leaseId)
    let rest ← claimBatch takeover nodes
    pure (claimItems takeover ((now.getD takeover).allowedFor node) node ++ rest)

def newerFence (node : String) (fence : Nat) : Backend Error := do
  let _ ← Reads.getHead ⟨.node, node⟩
  pure (.newerFence node fence)

/-- Takes one chunk in one transaction, judging the holders of the rows that refused it: `none` on
success, else the refusal. -/
def takeChunkUpTo (ctx : S3Context) (takeover : Takeover) (batch : List String) :
    Nat → Nat → Backend (Option Error)
  | 0, _ => pure (some .lockContended)
  | attempts + 1, budget =>
    if budget = 0 then pure (some .lockContended)
    else do
      let items ← claimBatch takeover batch
      match ← (transact items budget).outcome with
      | .error .lockContended => pure (some .lockContended)
      | .error error => .raise error
      | .ok (none, _) => pure none
      | .ok (some failed, left) =>
        let heads := (failed.filter (· % 2 = 1)).filterMap fun index => batch[index / 2]?
        match heads with
        | node :: _ => some <$> newerFence node takeover.grant.fence
        | [] =>
          let rows := (failed.filter (· % 2 = 0)).filterMap fun index => batch[index / 2]?
          match ← judgeHolders ctx takeover (if rows = [] then batch else rows) with
          | some blocked => pure (some blocked)
          | none => takeChunkUpTo ctx takeover batch attempts left

def takeChunk (ctx : S3Context) (takeover : Takeover) (batch : List String) :
    Backend (Option Error) :=
  takeChunkUpTo ctx takeover batch limits.ddbAttempts limits.ddbAttempts

/-- One chunk, unless another failed before it started. -/
def take (ctx : S3Context) (takeover : Takeover) (batch : List String) : Backend ChunkOutcome := do
  let now : Option Takeover ← memory (.takeover takeover.grant.leaseId)
  if now.any Takeover.aborted then pure .skipped
  else
    match ← (takeChunk ctx takeover batch).outcome with
    | .error error =>
      memory (.abort takeover.grant.leaseId)
      .raise error
    | .ok (some refusal) =>
      memory (.abort takeover.grant.leaseId)
      pure (.refused refusal)
    | .ok none => pure .taken

/-- Each chunk's outcome, in order. -/
def runChunks (ctx : S3Context) (takeover : Takeover) (batches : List (List String)) :
    Backend (List (Except Error ChunkOutcome)) := do
  let schedule ← .ask .schedule .ret
  let left ← Prog.weave schedule (batches.map (take ctx takeover))
  Prog.sequence (left.map Prog.outcome)

def refusalOf : Except Error ChunkOutcome → Option Error
  | .ok (.refused refusal) => some refusal
  | _ => none

def errorOf : Except Error ChunkOutcome → Option Error
  | .error error => some error
  | _ => none

/-- Whether the chunk may have written its rows. -/
def mayHaveWritten : Except Error ChunkOutcome → Bool
  | .ok .taken => true
  | .ok _ => false
  | .error _ => true

/-- Takes every chunk in parallel; on any failure, undoes the whole acquire. -/
def takeChunks (ctx : S3Context) (takeover : Takeover) (batches : List (List String)) :
    Backend (Option Error) := do
  let outcomes ← runChunks ctx takeover batches
  let errors := outcomes.filterMap errorOf
  let refusals := outcomes.filterMap refusalOf
  match errors, refusals with
  | [], [] => pure none
  | errors, refusals =>
    let written := ((batches.zip outcomes).filter fun (_, outcome) => mayHaveWritten outcome).flatMap
      Prod.fst
    let _ ← (LeaseItems.dropGrant takeover.owner takeover.grant written).outcome (δ := Error)
    match errors with
    | error :: _ => .raise error
    | [] => pure refusals.head?

/-- Takes every node of `scope`; `none` on success. -/
def claim (ctx : S3Context) (takeover : Takeover) (scope : List String) : Backend (Option Error) :=
  takeChunks ctx takeover (batched (max 1 (limits.transactMax / 2)) (sortedSet scope))

end Acquirer

namespace LockTable

/-- A new lease over `scope`: mint a fence, write the lease item, claim the rows. -/
def takeScope (ctx : S3Context) (owner : String) (ttl : Int) (scope : List String)
    (renewing : Bool) : Backend (Except Error Lease) := do
  let now : Int ← memory .clock
  let expires := now + ttl
  if scope = [] then pure (.ok { owner, expiresAt := expires })
  else
    let snap ← Snapshots.ensure
    let fence ← Fences.nextFence snap.doc.maxFence
    let leaseId : Nat ← send (.putLease owner fence expires)
    let grant : Grant := ⟨leaseId, fence⟩
    let takeover : Takeover := { owner, grant, now }
    memory (.openTakeover takeover)
    match ← Acquirer.claim ctx takeover scope with
    | some refusal => pure (.error refusal)
    | none =>
      memory (.grantScope owner grant scope)
      if renewing then pure () else memory .resetViews
      pure (.ok { owner, expiresAt := expires, scope, fence })

def acquire (ctx : S3Context) (owner : String) (ttl : Int) (scope : List String) :
    Backend (Except Error Lease) :=
  takeScope ctx owner ttl scope false

/-- The lease item a renewal of `scope` extends, if it is the bound one. -/
def renewable (owner : String) (scope : List String) : Backend (Option Grant) := do
  let bound : Option Lease ← memory .boundLease
  let grants : List Grant ← memory (.grants owner)
  pure (match bound, grants.getLast? with
    | some bound, some grant =>
      if scope = [] ∨ bound.owner ≠ owner ∨ bound.fence ≠ grant.fence ∨
          ¬ ∀ node ∈ scope, node ∈ bound.scope then none
      else some grant
    | _, _ => none)

def extend (owner : String) (grant : Grant) (expires : Int) (scope : List String) :
    Backend (Except Error Lease) := do
  match ← send (.extendLease grant.leaseId owner grant.fence expires) with
  | .applied => pure (.ok { owner, expiresAt := expires, scope, fence := grant.fence })
  | .refused (some old) =>
    pure (.error (if old.revoked then .leaseRevoked grant.fence else .leaseGone grant.fence))
  | .refused none => pure (.error (.leaseGone grant.fence))

/-- Pushes the lease's expiry out, keeping the bound lease's fence. Anything the bound lease does not
cover is an acquire. -/
def renew (ctx : S3Context) (owner : String) (ttl : Int) (scope : List String) :
    Backend (Except Error Lease) := do
  match ← renewable owner scope with
  | none => takeScope ctx owner ttl scope true
  | some grant =>
    let now : Int ← memory .clock
    extend owner grant (now + ttl) scope

def deleteLeases (owner : String) : List Grant → Backend (List Grant)
  | [] => pure []
  | grant :: grants => do
    let deleted ← (LeaseItems.deleteLease grant owner).outcome (δ := Error)
    let kept ← deleteLeases owner grants
    pure (match deleted with
      | .ok _ => kept
      | .error _ => grant :: kept)

/-- Deletes this owner's lease items, then its lock rows. What fails is kept for a second release. -/
def release (owner : String) : Backend Unit := do
  let popped : List Grant × List String ← memory (.popGrants owner)
  let kept ← deleteLeases owner popped.1
  let nodes := sortedSet popped.2
  let failed ← parallel (fun node =>
    (LeaseItems.releaseRow owner none node).outcome (δ := Error)) nodes
  let unreleased := ((nodes.zip failed).filter fun (_, outcome) => !outcome.isOk).map Prod.fst
  if kept = [] ∧ unreleased = [] then pure ()
  else
    memory (.restoreGrants owner kept unreleased)
    .raise .service

/-- Breaks the holds on `nodes`; heads and lease items stay. -/
def forceUnlock (nodes : List String) : Backend Nat := do
  let broken ← parallel (fun node => (send (.unlockRow node) : Backend Bool)) (sortedSet nodes)
  pure (broken.count true)

end LockTable

end Atlantide
