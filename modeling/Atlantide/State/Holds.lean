import Atlantide.State.S3.View

/-! # Backends that keep their holds in a table

The memory, sqlite and postgres backends record who holds each node as one row, and judge a leased
write against the rows that are left when it comes. `granted` is no part of any of them: it is every
lease they handed out, newest first, so that what they decide can be held against what was granted. -/

namespace Atlantide

inductive HoldStore
  | memory
  | sqlite
  /-- Past its expiry a hold stands for the margin yet. -/
  | postgres (skewMargin : Int)
  deriving DecidableEq

structure Tables where
  nodes : Dict String StateNode := ∅
  outputs : Dict String Value := ∅
  holds : Dict String Lease := ∅
  fence : Nat := 0
  granted : List Lease := []

inductive Refusal
  | outsideScope (node : String)
  | heldByAnother (node holder : String)
  | superseded (node : String) (fence newer : Nat)
  | leaseExpired (node : String)
  | locked (node holder : String)
  deriving DecidableEq

def Lease.blocks (lease : Lease) (owner : String) (now : Int) : Bool :=
  lease.owner ≠ owner ∧ now < lease.expiresAt

/-- What bars the lease from writing one node. -/
def violationAt (lease : Lease) (held : Dict String Lease) (now : Int) (node : String) :
    Option Refusal :=
  match held[node]? with
  | none => if node ∈ lease.scope then none else some (.outsideScope node)
  | some current =>
    if current.owner ≠ lease.owner then some (.heldByAnother node current.owner)
    else if lease.fence < current.fence then some (.superseded node lease.fence current.fence)
    else if current.expiresAt ≤ now then some (.leaseExpired node)
    else none

def fenceViolation (lease : Option Lease) (held : Dict String Lease) (now : Int)
    (touched : List String) : Option Refusal :=
  match lease with
  | none => none
  | some lease => (sortedSet touched).findSome? (violationAt lease held now)

/-- Whether `owner` may not take a node over from this hold. -/
def HoldStore.bars (kind : HoldStore) (hold : Lease) (owner : String) (now : Int) : Bool :=
  match kind with
  | .memory | .sqlite => hold.blocks owner now
  | .postgres skewMargin => ¬(hold.owner = owner ∨ hold.expiresAt < now - skewMargin)

def HoldStore.scopeConflict (kind : HoldStore) (held : Dict String Lease) (owner : String)
    (now : Int) (scope : List String) : Option Refusal :=
  (sortedSet scope).findSome? fun node =>
    match held[node]? with
    | some current => if kind.bars current owner now then some (.locked node current.owner) else none
    | none => none

/-- Whether an acquisition of the scope writes nothing at all. -/
def HoldStore.skips (kind : HoldStore) (scope : List String) : Bool :=
  match kind with
  | .memory | .sqlite => false
  | .postgres _ => scope.isEmpty

/-- A mutation of the node rows. -/
inductive NodeWrite
  | put (node : StateNode)
  | delete (node : String)
  | putMany (nodes : List StateNode)
  | replaceMany (deleteIds : List String) (nodes : List StateNode)

namespace NodeWrite

def deleted : NodeWrite → List String
  | put _ | putMany _ => []
  | delete node => [node]
  | replaceMany deleteIds _ => deleteIds

def stored : NodeWrite → List StateNode
  | put node => [node]
  | delete _ => []
  | putMany nodes | replaceMany _ nodes => nodes

def touched (write : NodeWrite) : List String := write.deleted ++ write.stored.map StateNode.id

def applied (write : NodeWrite) (nodes : Dict String StateNode) : Dict String StateNode :=
  write.stored.foldl (fun nodes node => nodes.insert node.id node)
    (nodes.filter fun node _ => node ∉ write.deleted)

end NodeWrite

/-- The nodes of the lease whose stack is among those written. -/
def fencedNodes (lease : Lease) (outputs : Dict String Value) (remove : List String) : List String :=
  lease.scope.filter fun node => stackOf node ∈ (outputs.keys ++ remove).map stackOf

namespace Tables

def acquire (kind : HoldStore) (now : Int) (owner : String) (ttl : Int) (scope : List String)
    (tables : Tables) : Except Refusal Tables :=
  if kind.skips scope then
    .ok { tables with granted := ⟨owner, now + ttl, [], 0⟩ :: tables.granted }
  else
    match kind.scopeConflict tables.holds owner now scope with
    | some refusal => .error refusal
    | none =>
      let lease : Lease := ⟨owner, now + ttl, scope, tables.fence + 1⟩
      .ok { tables with
        fence := lease.fence
        holds := scope.foldl (fun holds node => holds.insert node lease) tables.holds
        granted := lease :: tables.granted }

def release (owner : String) (tables : Tables) : Tables :=
  { tables with holds := tables.holds.filter fun _ hold => hold.owner ≠ owner }

def forceUnlock (nodes : List String) (tables : Tables) : Tables :=
  { tables with holds := tables.holds.filter fun node _ => node ∉ nodes }

def write (now : Int) (lease : Option Lease) (write : NodeWrite) (tables : Tables) :
    Except Refusal Tables :=
  match fenceViolation lease tables.holds now write.touched with
  | some refusal => .error refusal
  | none => .ok { tables with nodes := write.applied tables.nodes }

def setOutputs (kind : HoldStore) (now : Int) (lease : Option Lease) (outputs : Dict String Value)
    (remove : List String) (tables : Tables) : Except Refusal Tables :=
  let merged := { tables with outputs := mergeOutputs tables.outputs outputs remove }
  match kind, lease with
  -- Neither looks at the bound lease here.
  | .memory, _ | .sqlite, _ | .postgres _, none => .ok merged
  | .postgres _, some lease =>
    match fenceViolation (some lease) tables.holds now (fencedNodes lease outputs remove) with
    | some refusal => .error refusal
    | none => .ok merged

end Tables

/-- A call of a backend; the lease of a write is the one bound when it is made. A renewal is an
acquisition by the same owner. -/
inductive StateCall
  | acquire (owner : String) (ttl : Int) (scope : List String)
  | release (owner : String)
  | forceUnlock (nodes : List String)
  | write (lease : Option Lease) (write : NodeWrite)
  | setOutputs (lease : Option Lease) (outputs : Dict String Value) (remove : List String)

namespace Tables

def perform (kind : HoldStore) (now : Int) (call : StateCall) (tables : Tables) :
    Except Refusal Tables :=
  match call with
  | .acquire owner ttl scope => tables.acquire kind now owner ttl scope
  | .release owner => .ok (tables.release owner)
  | .forceUnlock nodes => .ok (tables.forceUnlock nodes)
  | .write lease write => tables.write now lease write
  | .setOutputs lease outputs remove => tables.setOutputs kind now lease outputs remove

/-- The tables after a call: a refused one is rolled back. -/
def after (kind : HoldStore) (now : Int) (call : StateCall) (tables : Tables) : Tables :=
  match tables.perform kind now call with
  | .ok tables => tables
  | .error _ => tables

/-- What holds of each call of a history, in the tables it is made in. -/
def Throughout (kind : HoldStore) (holds : Tables → Int → StateCall → Prop) :
    List (Int × StateCall) → Tables → Prop
  | [], _ => True
  | (now, call) :: calls, tables =>
    holds tables now call ∧ Throughout kind holds calls (tables.after kind now call)

end Tables

/-! ## What was granted -/

/-- The newest lease granted over a node. -/
def newestGrant (granted : List Lease) (node : String) : Option Lease :=
  granted.find? fun lease => node ∈ lease.scope

/-- Fences rise with the grants, and a hold is the newest grant over its node. -/
structure Granted (tables : Tables) : Prop where
  below : ∀ lease ∈ tables.granted, lease.fence ≤ tables.fence
  rising : tables.granted.Pairwise fun newer older => newer.scope = [] ∨ older.fence < newer.fence
  held : ∀ node hold, tables.holds[node]? = some hold → newestGrant tables.granted node = some hold

theorem newestGrant_cons_of_mem {granted : List Lease} {lease : Lease} {node : String}
    (hmem : node ∈ lease.scope) : newestGrant (lease :: granted) node = some lease :=
  List.find?_cons_of_pos (by simpa using hmem)

theorem newestGrant_cons_of_not_mem {granted : List Lease} {lease : Lease} {node : String}
    (hmem : node ∉ lease.scope) :
    newestGrant (lease :: granted) node = newestGrant granted node :=
  List.find?_cons_of_neg (by simpa using hmem)

/-- A lease over a node is the newest grant over it, or has a lower fence. -/
theorem Granted.fence_lt {tables : Tables} (hgranted : Granted tables) {lease newest : Lease}
    {node : String} (hmem : lease ∈ tables.granted) (hscope : node ∈ lease.scope)
    (hnewest : newestGrant tables.granted node = some newest) :
    lease = newest ∨ lease.fence < newest.fence := by
  have hrising := hgranted.rising
  generalize tables.granted = granted at hmem hnewest hrising
  induction granted with
  | nil => cases hmem
  | cons head granted ih =>
    obtain ⟨hhead, hrest⟩ := List.pairwise_cons.mp hrising
    by_cases hcovers : node ∈ head.scope
    · obtain rfl := Option.some.inj ((newestGrant_cons_of_mem hcovers).symm.trans hnewest)
      rcases List.mem_cons.mp hmem with rfl | hmem
      · exact .inl rfl
      · exact .inr ((hhead lease hmem).resolve_left (List.ne_nil_of_mem hcovers))
    · rw [newestGrant_cons_of_not_mem hcovers] at hnewest
      rcases List.mem_cons.mp hmem with rfl | hmem
      · exact absurd hscope hcovers
      · exact ih hmem hnewest hrest

theorem exists_newestGrant {granted : List Lease} {lease : Lease} {node : String}
    (hmem : lease ∈ granted) (hscope : node ∈ lease.scope) :
    ∃ newest, newestGrant granted node = some newest :=
  Option.isSome_iff_exists.mp (List.find?_isSome.mpr ⟨lease, hmem, by simpa using hscope⟩)

theorem granted_initial : Granted {} where
  below _ hmem := nomatch hmem
  rising := .nil
  held node hold hhold := by simp at hhold

theorem getElem?_foldl_hold (lease : Lease) (scope : List String) (holds : Dict String Lease)
    (node : String) :
    (scope.foldl (fun holds node => holds.insert node lease) holds)[node]? =
      if node ∈ scope then some lease else holds[node]? := by
  induction scope generalizing holds with
  | nil => simp
  | cons first scope ih =>
    rw [List.foldl_cons, ih, Std.ExtTreeMap.getElem?_insert]
    grind

theorem Granted.acquire {kind : HoldStore} {now ttl : Int} {owner : String} {scope : List String}
    {tables tables' : Tables} (hgranted : Granted tables)
    (hacquire : tables.acquire kind now owner ttl scope = .ok tables') : Granted tables' := by
  unfold Tables.acquire at hacquire
  split at hacquire
  · obtain rfl := Except.ok.inj hacquire
    refine ⟨fun lease hmem => ?_, List.pairwise_cons.mpr ⟨fun _ _ => .inl rfl, hgranted.rising⟩,
      fun node hold hhold => ?_⟩
    · rcases List.mem_cons.mp hmem with rfl | hmem
      · exact Nat.zero_le _
      · exact hgranted.below lease hmem
    · exact (newestGrant_cons_of_not_mem List.not_mem_nil).trans (hgranted.held node hold hhold)
  · split at hacquire
    · cases hacquire
    obtain rfl := Except.ok.inj hacquire
    refine ⟨fun lease hmem => ?_, List.pairwise_cons.mpr ⟨fun lease hmem => .inr ?_,
      hgranted.rising⟩, fun node hold hhold => ?_⟩
    · rcases List.mem_cons.mp hmem with rfl | hmem
      · exact Nat.le_refl _
      · exact Nat.le_succ_of_le (hgranted.below lease hmem)
    · exact Nat.lt_succ_of_le (hgranted.below lease hmem)
    · dsimp only at hhold ⊢
      rw [getElem?_foldl_hold] at hhold
      split at hhold
      next hmem => exact (newestGrant_cons_of_mem hmem).trans hhold
      next hmem => exact (newestGrant_cons_of_not_mem hmem).trans (hgranted.held node hold hhold)

theorem Granted.filter {tables : Tables} (hgranted : Granted tables) (keep : String → Lease → Bool) :
    Granted { tables with holds := tables.holds.filter keep } where
  below := hgranted.below
  rising := hgranted.rising
  held node hold hhold := by
    dsimp only at hhold
    rw [Std.ExtTreeMap.getElem?_filter'] at hhold
    exact hgranted.held node hold (Option.eq_some_of_filter_eq_some hhold)

/-- One call keeps what was granted. -/
theorem Granted.after {tables : Tables} (hgranted : Granted tables) (kind : HoldStore) (now : Int)
    (call : StateCall) : Granted (tables.after kind now call) := by
  unfold Tables.after
  split
  next tables' hperform =>
    cases call with
    | acquire owner ttl scope => exact hgranted.acquire hperform
    | release owner =>
      obtain rfl := Except.ok.inj hperform
      exact hgranted.filter _
    | forceUnlock nodes =>
      obtain rfl := Except.ok.inj hperform
      exact hgranted.filter _
    | write lease write =>
      simp only [Tables.perform, Tables.write] at hperform
      split at hperform
      · cases hperform
      · obtain rfl := Except.ok.inj hperform
        exact ⟨hgranted.below, hgranted.rising, hgranted.held⟩
    | setOutputs lease outputs remove =>
      have hmerged : ∀ outputs, Granted { tables with outputs } := fun _ =>
        ⟨hgranted.below, hgranted.rising, hgranted.held⟩
      simp only [Tables.perform, Tables.setOutputs] at hperform
      split at hperform
      all_goals try (obtain rfl := Except.ok.inj hperform; exact hmerged _)
      split at hperform
      · cases hperform
      · obtain rfl := Except.ok.inj hperform
        exact hmerged _
  next => exact hgranted

/-- Two things that say the same of each call of tables whose grants are in order say the same of
every history. -/
theorem Tables.throughout_congr {kind : HoldStore} {holds holds' : Tables → Int → StateCall → Prop}
    (hstep : ∀ tables now call, Granted tables → (holds tables now call ↔ holds' tables now call))
    (calls : List (Int × StateCall)) {tables : Tables} (hgranted : Granted tables) :
    Tables.Throughout kind holds calls tables ↔ Tables.Throughout kind holds' calls tables := by
  induction calls generalizing tables with
  | nil => exact Iff.rfl
  | cons event calls ih =>
    exact and_congr (hstep tables event.1 event.2 hgranted)
      (ih (hgranted.after kind event.1 event.2))

/-! ## What bars a write -/

theorem fenceViolation_eq_none {lease : Lease} {held : Dict String Lease} {now : Int}
    {touched : List String} :
    fenceViolation (some lease) held now touched = none ↔
      ∀ node ∈ touched, violationAt lease held now node = none := by
  simp only [fenceViolation, List.findSome?_eq_none_iff, mem_sortedSet]

/-- Some hold on the node bars the lease: another's or a newer one, or its own that lapsed. Outside
the scope it takes no hold at all. -/
def Tables.Bars (tables : Tables) (now : Int) (lease : Lease) (node : String) : Prop :=
  match tables.holds[node]? with
  | none => node ∉ lease.scope
  | some hold => hold.expiresAt ≤ now ∨
      if node ∈ lease.scope then hold.fence ≠ lease.fence
      else hold.owner ≠ lease.owner ∨ lease.fence < hold.fence

theorem Granted.violationAt_iff {tables : Tables} (hgranted : Granted tables) {lease : Lease}
    (hmem : lease ∈ tables.granted) (now : Int) (node : String) :
    violationAt lease tables.holds now node ≠ none ↔ tables.Bars now lease node := by
  unfold violationAt Tables.Bars
  cases hhold : tables.holds[node]? with
  | none => grind
  | some hold =>
    have hheld := hgranted.held node hold hhold
    by_cases hscope : node ∈ lease.scope
    · have hnewest := hgranted.fence_lt hmem hscope hheld
      grind
    · grind

theorem Granted.fenceViolation_iff {tables : Tables} (hgranted : Granted tables) {lease : Lease}
    (hmem : lease ∈ tables.granted) (now : Int) (touched : List String) :
    fenceViolation (some lease) tables.holds now touched ≠ none ↔
      ∃ node ∈ touched, tables.Bars now lease node := by
  rw [Ne, fenceViolation_eq_none, not_forall]
  refine exists_congr fun node => ?_
  rw [Classical.not_imp, ← hgranted.violationAt_iff hmem now node]

end Atlantide
