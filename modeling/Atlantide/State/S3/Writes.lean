import Atlantide.State.S3.Maintenance

/-! # Node writes: one entry and one head commit each, or one snapshot swap in bulk -/

namespace Atlantide

open Interleaving

/-- The fence and owner a journal entry records. -/
def stamp : Option Lease → Nat × String
  | none => (0, "")
  | some lease => (lease.fence, lease.owner)

namespace Writes

def checkScope (touched : List String) : Backend Unit := do
  let lease : Option Lease ← memory .boundLease
  match lease with
  | none => pure ()
  | some lease =>
    match (sortedSet touched).find? (· ∉ lease.scope) with
    | some node => .raise (.outsideScope node)
    | none => pure ()

/-- Stores an entry under a fresh key. A refused store is this call's own object, stored before its
answer was lost; the entry is then stored again under a new key. -/
def putEntryUpTo (entry : JournalEntry) : Nat → Backend EntryKey
  | 0 => .raise .keptMoving
  | attempts + 1 => do
    match ← send (.putEntry entry) with
    | some key => pure key
    | none => putEntryUpTo entry attempts

def putEntry (entry : JournalEntry) : Backend EntryKey := putEntryUpTo entry limits.casAttempts

/-- Points the head at `ref`: `none` on success, else the sequence number it moved to. -/
def commit (entry : JournalEntry) (ref : EntryKey) (expect : Nat) (lease : Option Lease) :
    Backend (Option Nat) := do
  match ← send (.updateHead
    { item := entry.item, seq := entry.seq, ref, op := entry.op, expect := some expect
      fence := lease.map Lease.fence }) with
  | .applied => pure none
  | .refused old =>
    let head ← match old with
      | some head => pure head
      | none => Reads.getHead entry.item
    if head.ref = some ref then
      -- The commit applied, and a repeated call lost its answer.
      pure none
    else
      match lease with
      | some lease =>
        if head.fence = some lease.fence then pure (some (head.seq.getD 0))
        else .raise (.fenced entry.name lease.fence (head.fence.getD 0))
      | none => pure (some (head.seq.getD 0))

/-- What `commit` ends with where its update was refused: its own entry is committed all the same, or
there is a head to rebase onto that the lease still may. -/
def commitRefused (entry : JournalEntry) (ref : EntryKey) (lease : Option Lease) (head : Head) :
    Backend (Option Nat) :=
  if head.ref = some ref then pure none
  else
    match lease with
    | some lease =>
      if head.fence = some lease.fence then pure (some (head.seq.getD 0))
      else .raise (.fenced entry.name lease.fence (head.fence.getD 0))
    | none => pure (some (head.seq.getD 0))

def nodeEntry (node : String) (record : Option StateNode) (seq : Nat) (lease : Option Lease) :
    JournalEntry :=
  { kind := .node, name := node, seq, fence := (stamp lease).1
    op := if record.isSome then .put else .delete
    owner := (stamp lease).2, record }

/-- Stores an entry and commits it, rebasing onto the head when it has moved. -/
def writeNodeUpTo (node : String) (record : Option StateNode) (known : Nat) (lease : Option Lease) :
    Nat → Nat → Nat → Backend Nat
  | 0, _, _ => .raise .keptMoving
  | attempts + 1, expect, seq => do
    let entry := nodeEntry node record seq lease
    let ref ← putEntry entry
    match ← commit entry ref expect lease with
    | none => pure seq
    | some moved => writeNodeUpTo node record known lease attempts moved (max moved known + 1)

/-- Journals one node write (`none` deletes) and commits it at the node's head. A write that changes
nothing issues no request. -/
def writeNode (node : String) (record : Option StateNode) : Backend Unit := do
  let view ← Views.writable
  if view.nodes[node]? = record then pure ()
  else
    let known := view.nodeSeq.getD node 0
    checkScope [node]
    let lease : Option Lease ← memory .boundLease
    let seq ← writeNodeUpTo node record known lease limits.casAttempts known (known + 1)
    memory (.record ⟨.node, node⟩ seq (.node record))

/-- Whether every head is still where the fold left it. Under a lease, a head at another fence is an
error; `false` means rebase. -/
def unmoved (heads : Dict Item Head) (folded : StateDocument) (lease : Option Lease) :
    List String → Backend Bool
  | [] => pure true
  | node :: nodes =>
    let head := heads.getD ⟨.node, node⟩ {}
    match lease with
    | some held =>
      if head.fence ≠ some held.fence then
        .raise (.fenced node held.fence (head.fence.getD 0))
      else if folded.wm.getD node 0 < head.seq.getD 0 then pure false
      else unmoved heads folded lease nodes
    | none =>
      if folded.wm.getD node 0 < head.seq.getD 0 then pure false
      else unmoved heads folded lease nodes

/-- The bulk pre-check. -/
def headsUnmoved (touched : List String) (folded : StateDocument) (lease : Option Lease) :
    Backend Bool := do
  let heads ← Reads.readHeads (touched.map fun node => ⟨.node, node⟩)
  unmoved heads folded lease touched

/-- The snapshot's nodes after a bulk write. -/
def bulkNodes (dropped : List String) (fresh nodes : Dict String StateNode) :
    Dict String StateNode :=
  (nodes.filter fun node _ => node ∉ dropped) ∪ fresh

def bulkUpTo (dropped : List String) (fresh : Dict String StateNode) (touched : List String)
    (lease : Option Lease) : Nat → Backend Unit
  | 0 => .raise .keptMoving
  | attempts + 1 => do
    let _ ← Snapshots.ensure
    match ← Reads.cut with
    | none => bulkUpTo dropped fresh touched lease attempts
    | some cut =>
      let folded := cut.fold 0
      let nodes := bulkNodes dropped fresh folded.nodes
      if nodes = folded.nodes then memory .dropView
      else
        let still ← headsUnmoved touched folded lease
        if still then
          let updated := { folded with serial := folded.serial + 1, nodes }
          let writes := touched.map fun node => (node, nodes[node]?)
          match ← (Snapshots.put updated (some cut.etag) writes).outcome with
          | .error .snapshotMoved => bulkUpTo dropped fresh touched lease attempts
          | .error error => .raise error
          | .ok _ =>
            memory .dropView
            let _ ← Maintenance.delete (cut.garbage updated)
            pure ()
        else bulkUpTo dropped fresh touched lease attempts

/-- Folds the journal and applies the change in one compare-and-swap of the snapshot. -/
def bulk (dropped : List String) (fresh : Dict String StateNode) : Backend Unit := do
  let touched := sortedSet (dropped ++ fresh.keys)
  checkScope touched
  let lease : Option Lease ← memory .boundLease
  bulkUpTo dropped fresh touched lease limits.casAttempts

/-- Deletes and upserts as one snapshot write; a single effective change is an ordinary one. -/
def replaceMany (deleteIds : List String) (nodes : List StateNode) : Backend Unit := do
  let fresh : Dict String StateNode :=
    nodes.foldl (fun fresh node => fresh.insert node.id node) ∅
  let view ← Views.writable
  let changes :=
    (sortedSet (deleteIds ++ fresh.keys)).filter fun node => view.nodes[node]? ≠ fresh[node]?
  match changes with
  | [] => pure ()
  | [only] =>
    checkScope (deleteIds ++ fresh.keys)
    writeNode only fresh[only]?
  | _ => bulk deleteIds fresh

end Writes

end Atlantide
