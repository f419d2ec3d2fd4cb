import Std.Data.ExtTreeSet
import Atlantide.State.S3.Client

/-! # Reads of the whole state: snapshot, listing, heads, entries -/

namespace Atlantide

open Interleaving

namespace Snapshots

def get : Backend (Option Snapshot) := send .getSnapshot

def etag : Backend (Option Nat) := send .headSnapshot

/-- Writes the snapshot while it is still at `ifMatch` (while there is none, if that is none). The
last argument is a note for the history: the node writes the new snapshot makes effective that no
journal entry records. -/
def put (doc : StateDocument) (ifMatch : Option Nat)
    (writes : List (String × Option StateNode)) : Backend Snapshot := do
  match ← send (.putSnapshot doc ifMatch writes) with
  | some snapshot => pure snapshot
  | none => .raise .snapshotMoved

/-- The snapshot, creating an empty one if there is none. -/
def ensureUpTo : Nat → Backend Snapshot
  | 0 => .raise .keptMoving
  | attempts + 1 => do
    match ← get with
    | some snapshot => pure snapshot
    | none =>
      let epoch ← .ask .uuid .ret
      match ← send (.putSnapshot { epoch } none []) with
      | some snapshot => pure snapshot
      | none => ensureUpTo attempts

def ensure : Backend Snapshot := ensureUpTo limits.casAttempts

end Snapshots

namespace Reads

/-- The pages of a listing, each served at its own moment. The service draws where they end. -/
def listPages (after : Option EntryKey) : List EntryKey → Backend (List EntryKey)
  | [] => send (.listPage after none)
  | bound :: bounds => do
    let page : List EntryKey ← send (.listPage after (some bound))
    let rest ← listPages (some bound) bounds
    pure (page ++ rest)

def listEntries : Backend (List EntryKey) := do
  let bounds ← .ask .paging .ret
  listPages none bounds

def getEntry (key : EntryKey) : Backend JournalEntry := do
  match ← send (.getEntry key) with
  | some entry => pure entry
  | none => .raise .entryVanished

def getHead (item : Item) : Backend Head := do
  let head ← send (.getHead item)
  pure (head.getD {})

/-- Each item once, in key order. -/
def distinctItems (items : List Item) : List Item := (Std.ExtTreeSet.ofList items compare).toList

/-- Adds the heads found of the items read. -/
def foundHeads (items : List Item) (found : List (Option Head)) (heads : Dict Item Head) :
    Dict Item Head :=
  (items.zip found).foldl (fun heads (item, head) =>
    match head with
    | some head => heads.insert item head
    | none => heads) heads

/-- The heads of `items` that exist. A batch read is not atomic: each head is read at its own
moment. -/
def readHeads (items : List Item) : Backend (Dict Item Head) := do
  let items := distinctItems items
  let found ← parallel (fun item => send (.getHead item)) items
  pure (foundHeads items found ∅)

/-- Lists again until every effective head's entry is accounted for, reading only the heads not read
yet. -/
def relist (snap : Snapshot) : Nat → Dict Item (List EntryKey) → Dict Item Head → Backend Cut
  | 0, listed, heads => pure { doc := snap.doc, etag := snap.etag, listed, heads }
  | attempts + 1, listed, heads =>
    let cut : Cut := { doc := snap.doc, etag := snap.etag, listed, heads }
    if cut.unlistedRefs = [] then pure cut
    else do
      let entries ← listEntries
      let listed := groupListing entries
      let unread := (itemsPastWatermark snap.doc listed).filter fun item => item ∉ heads
      let found ← readHeads unread
      relist snap attempts listed (heads ∪ found)

/-- Files the entries fetched under their items. -/
def fetchedEntries (items : List Item) (fetched : List JournalEntry)
    (entries : Dict Item JournalEntry) : Dict Item JournalEntry :=
  (items.zip fetched).foldl (fun entries (item, entry) => entries.insert item entry) entries

/-- Fetches the entry of every effective head. -/
def fetch (cut : Cut) : Backend Cut := do
  let effective := cut.effective.toList
  let fetched ← parallel (fun (pair : Item × Head) =>
    match pair.2.ref with
    | some ref => getEntry ref
    | none => .raise .entryVanished) effective
  pure { cut with entries := fetchedEntries (effective.map Prod.fst) fetched ∅ }

def readJournal (snap : Snapshot) : Backend Cut := do
  let entries ← listEntries
  let listed := groupListing entries
  let heads ← readHeads (itemsPastWatermark snap.doc listed)
  let cut ← relist snap limits.relistAttempts listed heads
  fetch cut

/-- One attempt at a consistent read: `none` if the read has to start again. -/
def attempt (snap : Snapshot) : Backend (Option Cut) := do
  let read ← (readJournal snap).outcome
  match read with
  | .ok cut =>
    let etag ← Snapshots.etag
    pure (if etag = some snap.etag then some cut else none)
  | .error .entryVanished => pure none
  | .error error => .raise error

/-- A consistent read of the whole state, or `none` if there is none yet. -/
def cutUpTo : Nat → Backend (Option Cut)
  | 0 => .raise .keptMoving
  | attempts + 1 => do
    match ← Snapshots.get with
    | none => pure none
    | some snap =>
      match ← attempt snap with
      | some cut => pure (some cut)
      | none => cutUpTo attempts

def cut : Backend (Option Cut) := cutUpTo limits.readAttempts

end Reads

namespace Views

/-- The cached view, read once and then maintained by this backend's writes. -/
def ensure : Backend View := do
  match ← memory .view with
  | some view => pure view
  | none =>
    let cut ← Reads.cut
    memory (.installView (View.of cut))

/-- The view, creating the snapshot on a first write. -/
def writable : Backend View := do
  let view ← ensure
  let view ← match view.epoch with
    | some _ => pure view
    | none => do
      let _ ← Snapshots.ensure
      memory (.dropViewIf view)
      ensure
  match view.epoch with
  | some _ => pure view
  | none => .raise .keptMoving

/-- What `writable` ends with: a view of an existing snapshot. -/
def existing (view : View) : Backend View :=
  match view.epoch with
  | some _ => pure view
  | none => .raise .keptMoving

end Views

end Atlantide
