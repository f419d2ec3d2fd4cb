import Atlantide.State.Journal

/-! # The two stores, one request at a time

The snapshot and the journal entries stand in S3; the heads, lock rows, lease items and the fence
counter in DynamoDB. A request is served atomically against the store as it is at that moment. Random
names (an entry key's nonce, a lease id, an ETag) are drawn from a counter when the request that
first uses them is served, so no two are equal.

Each request that does something another party could notice leaves an event in the history, so a
property of a run can speak of what was committed, read or taken, when, and by which task. -/

namespace Atlantide

structure Snapshot where
  doc : StateDocument
  etag : Nat

/-- A lease item: one acquisition's liveness. -/
structure LeaseItem where
  owner : String
  fence : Nat
  expires : Int
  revoked : Bool := false
  deriving DecidableEq

/-- A node's lock row, pointing at the lease item that holds it. -/
structure LockRow where
  owner : String
  fence : Nat
  leaseId : Nat
  deriving DecidableEq

structure Store where
  snapshot : Option Snapshot := none
  entries : Dict EntryKey JournalEntry := ∅
  heads : Dict Item Head := ∅
  rows : Dict String LockRow := ∅
  leases : Dict Nat LeaseItem := ∅
  counter : Option Nat := none
  /-- How many random names were drawn so far. -/
  minted : Nat := 0

namespace Store

/-- The snapshot's document; the empty one before there is a snapshot. -/
def doc (store : Store) : StateDocument :=
  (store.snapshot.map Snapshot.doc).getD {}

def head (store : Store) (item : Item) : Head :=
  store.heads.getD item {}

/-- The effective value of an item: its head's entry when above the snapshot's watermark, else the
snapshot's value. There is none when that entry is missing. -/
def effective (store : Store) (item : Item) : Option ItemValue :=
  if Cut.past store.doc item (store.head item) then
    ((store.head item).ref.bind fun ref => store.entries[ref]?).map JournalEntry.value
  else some (store.doc.value item)

end Store

/-- The `UpdateItem` that points a head at a journal entry. -/
structure HeadUpdate where
  item : Item
  seq : Nat
  ref : EntryKey
  op : EntryOp
  /-- The head must be at this sequence number or never written; with none, never written. -/
  expect : Option Nat := none
  /-- The head must be at exactly this fence. -/
  fence : Option Nat := none
  /-- The fence to set where the head has none. -/
  seedFence : Option Nat := none
  deriving DecidableEq

namespace HeadUpdate

def allowed (update : HeadUpdate) (head : Head) : Bool :=
  (match update.expect with
    | some expect => head.seq = some expect ∨ head.seq = none
    | none => head.seq = none) &&
  (match update.fence with
    | some fence => head.fence = some fence
    | none => true)

def applied (update : HeadUpdate) (head : Head) : Head :=
  { fence := head.fence.or update.seedFence
    seq := some update.seq
    ref := some update.ref
    op := some update.op }

end HeadUpdate

/-- One item of a `TransactWriteItems` call. -/
inductive TransactItem
  | update (update : HeadUpdate)
  | checkFence (node : String) (fence : Nat)
  | putRow (node : String) (row : LockRow) (allowed : List Nat)
  | raiseFence (node : String) (fence : Nat)

/-- What happened, as the parties could observe it. -/
inductive Event
  | opened (etag : Option Nat)
  | listed (after upto : Option EntryKey)
  | headRead (item : Item) (head : Option Head)
  | stored (key : EntryKey) (entry : JournalEntry)
  | committed (update : HeadUpdate)
  | swapped (doc : StateDocument) (writes : List (String × Option StateNode))
  | raised (node : String) (fence : Nat)
  | leased (leaseId : Nat) (owner : String) (fence : Nat)
  | took (node : String) (row : LockRow) (before : Option LockRow)
  | granted (owner : String) (leaseId : Nat) (scope : List String)
  | renewed (leaseId : Nat)
  | revoked (leaseId : Nat) (taker : String) (expires stale : Int)
  | dropped (leaseId : Nat)
  | rowDropped (node : String) (leaseId : Nat)
  | unlocked (node : String)

/-- How a conditional write ended: applied, or refused with the item as it stood. -/
inductive Conditional (α : Type)
  | applied
  | refused (old : Option α)

inductive TransactReply
  | applied
  | refused (failed : List Nat)
  | transient

inductive AwsRequest
  | getSnapshot
  | headSnapshot
  | putSnapshot (doc : StateDocument) (ifMatch : Option Nat)
      (writes : List (String × Option StateNode))
  | listPage (after upto : Option EntryKey)
  | getEntry (key : EntryKey)
  | putEntry (entry : JournalEntry)
  | deleteEntry (key : EntryKey)
  | getHead (item : Item)
  | updateHead (update : HeadUpdate)
  | transact (items : List TransactItem)
  | getRow (node : String)
  | getLease (leaseId : Nat)
  | putLease (owner : String) (fence : Nat) (expires : Int)
  | extendLease (leaseId : Nat) (owner : String) (fence : Nat) (expires : Int)
  | revokeLease (leaseId : Nat) (owner : String) (stale : Int)
  | deleteLease (leaseId : Nat) (owner : String)
  | deleteRow (node : String) (owner : String) (leaseId : Option Nat)
  | unlockRow (node : String)
  | bumpFence (amount seed : Nat)
  | readFence

/-- What a request is answered with. -/
def AwsRequest.Payload : AwsRequest → Type
  | getSnapshot => Option Snapshot
  | headSnapshot => Option Nat
  | putSnapshot .. => Option Snapshot
  | listPage .. => List EntryKey
  | getEntry _ => Option JournalEntry
  | putEntry _ => Option EntryKey
  | deleteEntry _ => Unit
  | getHead _ => Option Head
  | updateHead _ => Conditional Head
  | transact _ => TransactReply
  | getRow _ => Option LockRow
  | getLease _ => Option LeaseItem
  | putLease .. => Nat
  | extendLease .. => Conditional LeaseItem
  | revokeLease .. => Conditional LeaseItem
  | deleteLease .. => Unit
  | deleteRow .. => Unit
  | unlockRow _ => Bool
  | bumpFence .. => Nat
  | readFence => Option Nat

/-- Whether a page from past `after` up to `upto` is where the key would stand. -/
def pageCovers (after upto : Option EntryKey) (key : EntryKey) : Bool :=
  (after.all fun bound => (compare bound key).isLT) && (upto.all fun bound => (compare key bound).isLE)

namespace Store

def listPage (store : Store) (after upto : Option EntryKey) : List EntryKey :=
  store.entries.keys.filter (pageCovers after upto)

/-- Whether the condition of one transaction item holds. -/
def itemAllowed (store : Store) : TransactItem → Bool
  | .update update => update.allowed (store.head update.item)
  | .checkFence node fence => (store.head ⟨.node, node⟩).fence = some fence
  | .putRow node _ allowed => store.rows[node]?.all fun row => row.leaseId ∈ allowed
  | .raiseFence node fence => (store.head ⟨.node, node⟩).fence.all (· ≤ fence)

def updateHead (store : Store) (update : HeadUpdate) : Store :=
  { store with heads := store.heads.insert update.item (update.applied (store.head update.item)) }

def raiseFence (store : Store) (node : String) (fence : Nat) : Store :=
  { store with
    heads := store.heads.insert ⟨.node, node⟩ { store.head ⟨.node, node⟩ with fence := some fence } }

def applyItem (store : Store) : TransactItem → Store
  | .update update => store.updateHead update
  | .checkFence _ _ => store
  | .putRow node row _ => { store with rows := store.rows.insert node row }
  | .raiseFence node fence => store.raiseFence node fence

def itemEvents (store : Store) : TransactItem → List Event
  | .update update => [.committed update]
  | .checkFence _ _ => []
  | .putRow node row _ => [.took node row store.rows[node]?]
  | .raiseFence node fence => [.raised node fence]

/-- Applies the items in order; the events come newest first. -/
def applyItems : List TransactItem → Store → Store × List Event
  | [], store => (store, [])
  | item :: items, store =>
    let rest := applyItems items (store.applyItem item)
    (rest.1, rest.2 ++ store.itemEvents item)

def failedItems (store : Store) (items : List TransactItem) : List Nat :=
  (items.zipIdx.filter fun (item, _) => !store.itemAllowed item).map Prod.snd

/-- Serves one request: the answer, the store after it, and what could be noticed of it. -/
def serve (store : Store) : (request : AwsRequest) → request.Payload × Store × List Event
  | .getSnapshot => (store.snapshot, store, [.opened (store.snapshot.map Snapshot.etag)])
  | .headSnapshot => (store.snapshot.map Snapshot.etag, store, [])
  | .putSnapshot doc ifMatch writes =>
    if store.snapshot.map Snapshot.etag = ifMatch then
      let snapshot : Snapshot := ⟨doc, store.minted⟩
      (some snapshot, { store with snapshot := some snapshot, minted := store.minted + 1 },
        [.swapped doc writes])
    else (none, store, [])
  | .listPage after upto => (store.listPage after upto, store, [.listed after upto])
  | .getEntry key => (store.entries[key]?, store, [])
  | .putEntry entry =>
    let key : EntryKey := ⟨entry.kind, entry.name, entry.seq, entry.fence, store.minted⟩
    (some key, { store with entries := store.entries.insert key entry, minted := store.minted + 1 },
      [.stored key entry])
  | .deleteEntry key => ((), { store with entries := store.entries.erase key }, [])
  | .getHead item => (store.heads[item]?, store, [.headRead item store.heads[item]?])
  | .updateHead update =>
    if update.allowed (store.head update.item) then
      (.applied, store.updateHead update, [.committed update])
    else (.refused store.heads[update.item]?, store, [])
  | .transact items =>
    let failed := store.failedItems items
    if failed = [] then
      let applied := applyItems items store
      (.applied, applied.1, applied.2)
    else (.refused failed, store, [])
  | .getRow node => (store.rows[node]?, store, [])
  | .getLease leaseId => (store.leases[leaseId]?, store, [])
  | .putLease owner fence expires =>
    (store.minted,
      { store with
        leases := store.leases.insert store.minted ⟨owner, fence, expires, false⟩
        minted := store.minted + 1 },
      [.leased store.minted owner fence])
  | .extendLease leaseId owner fence expires =>
    match store.leases[leaseId]? with
    | some lease =>
      if lease.owner = owner ∧ lease.fence = fence ∧ lease.revoked = false then
        (.applied, { store with leases := store.leases.insert leaseId { lease with expires } },
          [.renewed leaseId])
      else (.refused (some lease), store, [])
    | none => (.refused none, store, [])
  | .revokeLease leaseId owner stale =>
    match store.leases[leaseId]? with
    | some lease =>
      if lease.owner = owner ∨ lease.revoked = true ∨ lease.expires < stale then
        (.applied,
          { store with leases := store.leases.insert leaseId { lease with revoked := true } },
          [.revoked leaseId owner lease.expires stale])
      else (.refused (some lease), store, [])
    | none => (.refused none, store, [])
  | .deleteLease leaseId owner =>
    match store.leases[leaseId]? with
    | some lease =>
      if lease.owner = owner then
        ((), { store with leases := store.leases.erase leaseId }, [.dropped leaseId])
      else ((), store, [])
    | none => ((), store, [])
  | .deleteRow node owner leaseId =>
    match store.rows[node]? with
    | some row =>
      if row.owner = owner ∧ leaseId.all (· = row.leaseId) then
        ((), { store with rows := store.rows.erase node }, [.rowDropped node row.leaseId])
      else ((), store, [])
    | none => ((), store, [])
  | .unlockRow node =>
    (store.rows[node]?.isSome, { store with rows := store.rows.erase node }, [.unlocked node])
  | .bumpFence amount seed =>
    let fence := store.counter.getD seed + amount
    (fence, { store with counter := some fence }, [])
  | .readFence => (store.counter, store, [])

theorem head_updateHead_self (store : Store) (update : HeadUpdate) :
    (store.updateHead update).head update.item = update.applied (store.head update.item) := by
  simp [head, updateHead]

theorem head_updateHead_of_ne (store : Store) {update : HeadUpdate} {item : Item}
    (hne : update.item ≠ item) : (store.updateHead update).head item = store.head item := by
  simp [head, updateHead, Std.ExtTreeMap.getD_insert, hne]

theorem head_raiseFence_self (store : Store) (node : String) (fence : Nat) :
    (store.raiseFence node fence).head ⟨.node, node⟩ =
      { store.head ⟨.node, node⟩ with fence := some fence } := by
  simp [head, raiseFence]

theorem head_raiseFence_of_ne (store : Store) {node : String} (fence : Nat) {item : Item}
    (hne : (⟨.node, node⟩ : Item) ≠ item) :
    (store.raiseFence node fence).head item = store.head item := by
  simp [head, raiseFence, Std.ExtTreeMap.getD_insert, hne]

end Store

end Atlantide
