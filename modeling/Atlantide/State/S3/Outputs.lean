import Atlantide.State.S3.Writes

/-! # Committed stack outputs: one entry and one head per changed stack -/

namespace Atlantide

open Interleaving

/-- One stack's pending output commit. -/
structure StackChange where
  stack : String
  expectSeq : Nat
  seq : Nat
  /-- The stack's whole merged output map; empty deletes the stack's outputs. -/
  merged : Dict String Value

/-- The stacks whose merged outputs differ from the view's, in stack order. -/
def stackChanges (view : View) (outputs : Dict String Value) (dropped : List String) :
    List StackChange :=
  (sortedSet ((outputs.keys ++ dropped).map stackOf)).filterMap fun stack =>
    let current := stackOutputs view.outputs stack
    let merged := mergeOutputs current (stackOutputs outputs stack)
      (dropped.filter fun key => stackOf key = stack)
    if merged = current then none
    else
      let known := view.outSeq.getD stack 0
      some ⟨stack, view.outBehind.getD stack known, known + 1, merged⟩

namespace OutputWrites

def outputEntry (lease : Option Lease) (change : StackChange) : JournalEntry :=
  { kind := .output, name := change.stack, seq := change.seq, fence := (stamp lease).1
    op := if change.merged = ∅ then .delete else .put
    owner := (stamp lease).2
    outputs := if change.merged = ∅ then none else some change.merged }

def outputUpdate (change : StackChange) (entry : JournalEntry) (ref : EntryKey) : TransactItem :=
  .update { item := entry.item, seq := entry.seq, ref, op := entry.op, expect := some change.expectSeq }

/-- Judges a refused transaction: an error for the first fence check that failed, else the stacks
whose head moved (all of them when the reasons name none). -/
def refusalFor (failed : List Nat) (changes : List StackChange) (fenced : List String)
    (lease : Option Lease) : Backend (List String) :=
  match lease, failed.find? (changes.length ≤ ·) with
  | some lease, some index => do
    let node := fenced.getD (index - changes.length) ""
    let head ← Reads.getHead ⟨.node, node⟩
    .raise (.fenced node lease.fence (head.fence.getD 0))
  | _, _ =>
    let moved := (failed.filterMap (changes[·]?)).map StackChange.stack
    pure (if moved = [] then changes.map StackChange.stack else moved)

/-- One output transaction: the stacks whose sequence number moved. -/
def transactOutputs (items : List TransactItem) (changes : List StackChange)
    (fenced : List String) (lease : Option Lease) : Backend (List String) := do
  match ← transact items limits.ddbAttempts with
  | (none, _) => pure []
  | (some failed, _) => refusalFor failed changes fenced lease

/-- Reflects the committed changes in the view. -/
def committed : List StackChange → Backend Unit
  | [] => pure ()
  | change :: changes => do
    memory (.record ⟨.output, change.stack⟩ change.seq (.outputs change.merged))
    committed changes

def precheckFences (fenced : List String) (lease : Lease) : Backend Unit := do
  let heads ← Reads.readHeads (fenced.map fun node => ⟨.node, node⟩)
  match fenced.find? fun node => (heads.getD ⟨.node, node⟩ {}).fence ≠ some lease.fence with
  | some node =>
    .raise (.fenced node lease.fence ((heads.getD ⟨.node, node⟩ {}).fence.getD 0))
  | none => pure ()

/-- Commits the changes in chunks, each one transaction. -/
def commitChunks (lease : Option Lease) : List (List (StackChange × TransactItem)) →
    Backend (List String)
  | [] => pure []
  | chunk :: chunks => do
    let moved ← transactOutputs (chunk.map Prod.snd) (chunk.map Prod.fst) [] lease
    if moved = [] then committed (chunk.map Prod.fst) else pure ()
    let rest ← commitChunks lease chunks
    pure (moved ++ rest)

/-- Journals and commits the changes; the stacks whose head moved. -/
def commit (changes : List StackChange) (fenced : List String) (lease : Option Lease) :
    Backend (List String) := do
  let refs ← parallel (fun change => Writes.putEntry (outputEntry lease change)) changes
  let updates := (changes.zip refs).map fun (change, ref) =>
    outputUpdate change (outputEntry lease change) ref
  let checks := match lease with
    | some lease => fenced.map fun node => TransactItem.checkFence node lease.fence
    | none => []
  if updates.length + checks.length ≤ limits.transactMax then
    let moved ← transactOutputs (updates ++ checks) changes fenced lease
    if moved = [] then committed changes else pure ()
    pure moved
  else
    match lease with
    | some lease => precheckFences fenced lease
    | none => pure ()
    commitChunks lease (batched limits.transactMax (changes.zip updates))

/-- Re-reads the heads and entries of the stacks named into the view. -/
def refreshStack (heads : Dict Item Head) (stack : String) : Backend Bool := do
  let head := heads.getD ⟨.output, stack⟩ {}
  let view : Option View ← memory .view
  let known := (view.map fun view => view.outSeq.getD stack 0).getD 0
  match head.seq, head.ref with
  | some seq, some ref =>
    if seq ≤ known then
      memory (.setBehind stack seq)
      pure true
    else
      match ← (Reads.getEntry ref).outcome with
      | .error .entryVanished =>
        memory .dropView
        pure false
      | .error error => .raise error
      | .ok entry =>
        memory (.absorb ⟨.output, stack⟩ seq (.outputs (entry.outputs.getD ∅)))
        pure true
  | seq, _ =>
    memory (.setBehind stack (seq.getD 0))
    pure true

def refreshEach (heads : Dict Item Head) : List String → Backend Unit
  | [] => pure ()
  | stack :: names => do
    let more ← refreshStack heads stack
    if more then refreshEach heads names else pure ()

def refreshStacks (names : List String) : Backend Unit := do
  let heads ← Reads.readHeads (names.map fun stack => ⟨.output, stack⟩)
  refreshEach heads (sortedSet names)

def setOutputsUpTo (outputs : Dict String Value) (dropped : List String) (lease : Option Lease) :
    Nat → Backend Unit
  | 0 => .raise .keptMoving
  | attempts + 1 => do
    let view ← Views.writable
    match stackChanges view outputs dropped with
    | [] => pure ()
    | changes =>
      let fenced := match lease with
        | some lease =>
          sortedSet (lease.scope.filter fun node =>
            changes.any fun change => change.stack = stackOf node)
        | none => []
      match ← commit changes fenced lease with
      | [] => pure ()
      | moved =>
        refreshStacks moved
        setOutputsUpTo outputs dropped lease attempts

/-- Merges stack outputs, one entry and head per changed stack, fenced on the leased nodes of each
stack. -/
def setOutputs (outputs : Dict String Value) (remove : List String) : Backend Unit := do
  let lease : Option Lease ← memory .boundLease
  setOutputsUpTo outputs remove lease limits.casAttempts

end OutputWrites

end Atlantide
