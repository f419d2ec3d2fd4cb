import Mathlib.Algebra.GroupWithZero.Nat
import Atlantide.State.Model

/-! # The journal: entries, heads and the fold

State is a snapshot plus a journal of per-write entries, with a head per item (a node, or a stack
of outputs) that says which entry is committed. The effective value of an item is the entry its
head names when the head's sequence number is above the snapshot's watermark, and the snapshot's
value otherwise. This is the part of the journal that does no I/O: folding a cut of it into the next
snapshot, and the entries the fold makes garbage. -/

namespace Atlantide

inductive EntryKind
  | node
  | output
  deriving DecidableEq, Inhabited

/-- The kind's segment in an entry's key. -/
def EntryKind.segment : EntryKind → String
  | node => "log"
  | output => "out"

inductive EntryOp
  | put
  | delete
  deriving DecidableEq, Inhabited

structure Item where
  kind : EntryKind
  name : String
  deriving DecidableEq, Inhabited

instance : Ord Item :=
  ⟨compareLex (compareOn fun item => item.kind.segment) (compareOn Item.name)⟩

/-- One journal object's key. The nonce stands for the random part that makes it unique. -/
structure EntryKey where
  kind : EntryKind
  name : String
  seq : Nat
  fence : Nat
  nonce : Nat
  deriving DecidableEq, Inhabited

namespace EntryKey

def item (key : EntryKey) : Item := ⟨key.kind, key.name⟩

/-- A listing's order: by item, then by sequence number. -/
instance : Ord EntryKey :=
  ⟨compareLex (compareOn item)
    (compareLex (compareOn seq) (compareLex (compareOn fence) (compareOn nonce)))⟩

end EntryKey

theorem EntryKind.segment_injective : Function.Injective EntryKind.segment := by
  intro a b h
  cases a <;> cases b <;> first | rfl | (exact absurd h (by decide))

instance : Std.TransOrd Item :=
  inferInstanceAs (Std.TransCmp (compareLex _ _))

instance : Std.LawfulEqOrd Item where
  eq_of_compare {a b} h := by
    obtain ⟨hkind, hname⟩ := compareLex_eq_eq.mp h
    cases a; cases b
    simp only [compareOn, Std.LawfulEqOrd.compare_eq_iff_eq] at hkind hname
    simp only [Item.mk.injEq]
    exact ⟨EntryKind.segment_injective hkind, hname⟩

instance : Std.TransOrd EntryKey :=
  inferInstanceAs (Std.TransCmp (compareLex _ _))

instance : Std.LawfulEqOrd EntryKey where
  eq_of_compare {a b} h := by
    obtain ⟨hitem, h⟩ := compareLex_eq_eq.mp h
    obtain ⟨hseq, h⟩ := compareLex_eq_eq.mp h
    obtain ⟨hfence, hnonce⟩ := compareLex_eq_eq.mp h
    cases a; cases b
    simp only [compareOn, Std.LawfulEqOrd.compare_eq_iff_eq, EntryKey.item, Item.mk.injEq]
      at hitem hseq hfence hnonce
    simp only [EntryKey.mk.injEq]
    exact ⟨hitem.1, hitem.2, hseq, hfence, hnonce⟩

/-- One write, as the journal stores it. -/
structure JournalEntry where
  kind : EntryKind
  name : String
  seq : Nat
  fence : Nat
  op : EntryOp
  owner : String := ""
  record : Option StateNode := none
  outputs : Option (Dict String Value) := none
  deriving DecidableEq

def JournalEntry.item (entry : JournalEntry) : Item := ⟨entry.kind, entry.name⟩

/-- An item's head. A `none` field was never written. -/
structure Head where
  fence : Option Nat := none
  seq : Option Nat := none
  ref : Option EntryKey := none
  op : Option EntryOp := none
  deriving DecidableEq, Inhabited

/-- The snapshot: the whole committed state as of the last fold, with the sequence number each item
is folded up to. -/
structure StateDocument where
  serial : Nat := 0
  nodes : Dict String StateNode := ∅
  outputs : Dict String Value := ∅
  fences : Dict String Nat := ∅
  maxFence : Nat := 0
  wm : Dict String Nat := ∅
  owm : Dict String Nat := ∅
  gen : Nat := 0
  epoch : Nat := 0
  deriving DecidableEq

def watermark (doc : StateDocument) (item : Item) : Nat :=
  (match item.kind with
    | .node => doc.wm
    | .output => doc.owm).getD item.name 0

def stackOutputs (outputs : Dict String Value) (stack : String) : Dict String Value :=
  outputs.filter fun key _ => stackOf key = stack

/-- `outputs` with every key of `stack` replaced by `values`. -/
def replaceStack (outputs : Dict String Value) (stack : String) (values : Dict String Value) :
    Dict String Value :=
  (outputs.filter fun key _ => stackOf key ≠ stack) ∪ values

def groupListing (entries : List EntryKey) : Dict Item (List EntryKey) :=
  entries.foldl (fun grouped entry => grouped.insert entry.item (grouped.getD entry.item [] ++ [entry])) ∅

def maxSeq (entries : List EntryKey) : Nat :=
  entries.foldl (fun seq entry => max seq entry.seq) 0

/-- The items with a listed entry above their watermark: the only heads to read. -/
def itemsPastWatermark (doc : StateDocument) (listed : Dict Item (List EntryKey)) : List Item :=
  (listed.filter fun item entries => watermark doc item < maxSeq entries).keys

/-- A consistent read of the journal: the snapshot, and the heads and entries past it. -/
structure Cut where
  doc : StateDocument
  etag : Nat
  listed : Dict Item (List EntryKey) := ∅
  heads : Dict Item Head := ∅
  entries : Dict Item JournalEntry := ∅

namespace Cut

def past (doc : StateDocument) (item : Item) (head : Head) : Bool :=
  head.seq.any fun seq => watermark doc item < seq

/-- The heads whose committed entry is newer than the snapshot. -/
def effective (cut : Cut) : Dict Item Head :=
  cut.heads.filter (past cut.doc)

/-- The effective heads whose entry the listing did not show. -/
def unlistedRefs (cut : Cut) : List Item :=
  let keys := cut.listed.values.flatten
  (cut.effective.filter fun _ head => head.ref.all fun ref => ref ∉ keys).keys

def nodes (cut : Cut) : Dict String StateNode :=
  cut.entries.foldl (fun nodes item entry =>
    match item.kind with
    | .output => nodes
    | .node =>
      match entry.op, entry.record with
      | .put, some record => nodes.insert item.name record
      | _, _ => nodes.erase item.name) cut.doc.nodes

def outputs (cut : Cut) : Dict String Value :=
  cut.entries.foldl (fun outputs item entry =>
    match item.kind with
    | .node => outputs
    | .output => replaceStack outputs item.name (entry.outputs.getD ∅)) cut.doc.outputs

/-- The snapshot's serial plus one for each commit past it. -/
def serial (cut : Cut) : Nat :=
  cut.doc.serial +
    (cut.effective.toList.map fun (item, head) => head.seq.getD 0 - watermark cut.doc item).sum

/-- The newest sequence number known of each item: the watermark, or the head past it. -/
def seqs (cut : Cut) (kind : EntryKind) : Dict String Nat :=
  cut.heads.foldl (fun known item head =>
    match head.seq with
    | some seq => if item.kind = kind then known.insert item.name (max (known.getD item.name 0) seq)
        else known
    | none => known)
    (match kind with
      | .node => cut.doc.wm
      | .output => cut.doc.owm)

/-- The watermarks of `kind` after the fold. -/
def foldedMarks (cut : Cut) (kind : EntryKind) (marks : Dict String Nat) : Dict String Nat :=
  cut.effective.foldl (fun marks item head =>
    if item.kind = kind then marks.insert item.name (head.seq.getD 0) else marks) marks

def foldedFences (cut : Cut) : Dict String Nat :=
  cut.heads.foldl (fun fences item head =>
    match item.kind, head.fence with
    | .node, some fence => fences.insert item.name (max (fences.getD item.name 0) fence)
    | _, _ => fences) cut.doc.fences

/-- The next snapshot: every effective entry folded in. Fences only rise. -/
def fold (cut : Cut) (maxFence : Nat) : StateDocument :=
  { cut.doc with
    serial := cut.serial
    nodes := cut.nodes
    outputs := cut.outputs
    fences := cut.foldedFences
    maxFence := (cut.foldedFences.values).foldl max (max cut.doc.maxFence maxFence)
    wm := cut.foldedMarks .node cut.doc.wm
    owm := cut.foldedMarks .output cut.doc.owm
    gen := cut.doc.gen + 1 }

/-- The listed entries that `folded` makes unreachable. An entry above the watermark, a writer's
between its store and its commit, is never among them. -/
def garbage (cut : Cut) (folded : StateDocument) : List EntryKey :=
  cut.listed.toList.flatMap fun (item, entries) =>
    entries.filter fun entry => entry.seq ≤ watermark folded item

end Cut

/-- What an item holds: a node's row, or a stack's whole output map. -/
inductive ItemValue
  | node (record : Option StateNode)
  | outputs (values : Dict String Value)
  deriving DecidableEq

/-- The row a node's entry leaves. -/
def JournalEntry.row (entry : JournalEntry) : Option StateNode :=
  match entry.op with
  | .put => entry.record
  | .delete => none

def JournalEntry.value (entry : JournalEntry) : ItemValue :=
  match entry.kind with
  | .node => .node entry.row
  | .output => .outputs (entry.outputs.getD ∅)

def StateDocument.value (doc : StateDocument) (item : Item) : ItemValue :=
  match item.kind with
  | .node => .node doc.nodes[item.name]?
  | .output => .outputs (stackOutputs doc.outputs item.name)

end Atlantide
