import Atlantide.State.S3.Reads

/-! # Compaction -/

namespace Atlantide

open Interleaving

structure CompactionReport where
  folded : Nat := 0
  deleted : Nat := 0
  skipped : Bool := false
  serial : Nat := 0
  gen : Nat := 0
  deriving DecidableEq

namespace Fences

/-- The counter, `0` when it cannot be read. -/
def readFenceCounter : Backend Nat :=
  (do
    let counter : Option Nat ← send .readFence
    pure (counter.getD 0) : Backend Nat).catching fun _ => pure 0

end Fences

namespace Maintenance

/-- Deletes entries key by key; one that gets no answer is left, and not counted. -/
def delete (keys : List EntryKey) : Backend Nat := do
  let deleted ← parallel (fun key =>
    (.ask (.aws (.deleteEntry key)) fun reply => .ret reply.isSome : Backend Bool)) keys
  pure (deleted.count true)

/-- Whether the fold would change the snapshot. -/
def changed (cut : Cut) (folded : StateDocument) : Bool :=
  cut.effective.size ≠ 0 || folded.maxFence ≠ cut.doc.maxFence || folded.fences ≠ cut.doc.fences

/-- Folds every committed entry into the snapshot, then deletes what it supersedes. The fold is a
compare-and-swap on the snapshot; when it fails nothing is deleted. -/
def compact : Backend CompactionReport := do
  match ← Reads.cut with
  | none => pure {}
  | some cut =>
    let counter ← Fences.readFenceCounter
    let folded := cut.fold counter
    let garbage := cut.garbage folded
    let effective := cut.effective.size
    if !changed cut folded && garbage = [] then pure { serial := cut.doc.serial, gen := cut.doc.gen }
    else if changed cut folded then
      match ← (Snapshots.put folded (some cut.etag) []).outcome with
      | .error .snapshotMoved => pure { skipped := true, serial := folded.serial }
      | .error error => .raise error
      | .ok _ =>
        let deleted ← delete garbage
        pure { folded := effective, deleted, serial := folded.serial, gen := folded.gen }
    else
      let deleted ← delete garbage
      pure { folded := effective, deleted, serial := cut.doc.serial, gen := cut.doc.gen }

end Maintenance

end Atlantide
