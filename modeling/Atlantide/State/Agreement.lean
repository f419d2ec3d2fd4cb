import Atlantide.State.Backends

/-! # What the three backends agree on

Over one history of calls sqlite and memory answer alike and store the same rows, outputs and holds.
Postgres does too, but that it lets a hold stand for a margin past its expiry, judges the outputs
that are written under a lease, and has nothing to do for an empty scope. The serial counts the rows
in memory, and the batches in a table. -/

namespace Atlantide

open Transactions

namespace TableBackend

variable {kind kind' : HoldStore} {now : Int} {call : TableCall} {backend backend' : TableBackend}

/-- Everything but the serial is the same. -/
structure Alike (backend backend' : TableBackend) : Prop where
  tables : backend.toTables = backend'.toTables
  bound : backend.bound = backend'.bound

/-- What is seen of a history: the answer to each call, and the tables then. -/
def answers (kind : HoldStore) (history : List (Int × TableCall)) (backend : TableBackend) :
    List (Except (Failed Refusal) Unit × Tables) :=
  (trace kind history backend).map fun ended => (ended.1, ended.2.toTables)

def serials (kind : HoldStore) (history : List (Int × TableCall)) (backend : TableBackend) : List Nat :=
  (trace kind history backend).map fun ended => ended.2.serial

/-- The kinds treat the call alike. -/
structure SameCall (kind kind' : HoldStore) (now : Int) (call : TableCall) (backend : TableBackend) :
    Prop where
  acquire : ∀ owner ttl scope, call = .acquire owner ttl scope →
    backend.toTables.acquire kind now owner ttl scope =
      backend.toTables.acquire kind' now owner ttl scope
  setOutputs : ∀ outputs remove, call = .setOutputs outputs remove →
    backend.toTables.setOutputs kind now backend.bound outputs remove =
      backend.toTables.setOutputs kind' now backend.bound outputs remove

/-- One call: what the kinds treat alike has one answer, and leaves stores that are alike. -/
theorem respond_alike (hsame : SameCall kind kind' now call backend)
    (halike : backend.Alike backend') :
    (backend.respond kind now call).1 = (backend'.respond kind' now call).1 ∧
      (backend.respond kind now call).2.Alike (backend'.respond kind' now call).2 := by
  obtain ⟨tables, serial, bound⟩ := backend
  obtain ⟨tables', serial', bound'⟩ := backend'
  obtain ⟨rfl, rfl⟩ := halike
  cases call with
  | acquire owner ttl scope =>
    rw [respond, respond, acquireIn_calm, acquireIn_calm]
    have htaken := hsame.acquire owner ttl scope rfl
    dsimp only at htaken ⊢
    rw [htaken]
    cases tables.acquire kind' now owner ttl scope with
    | ok tables => exact ⟨rfl, rfl, rfl⟩
    | error refusal => exact ⟨rfl, rfl, rfl⟩
  | bind grant => exact ⟨rfl, rfl, rfl⟩
  | release owner => exact ⟨rfl, rfl, rfl⟩
  | forceUnlock nodes => exact ⟨rfl, rfl, rfl⟩
  | write write =>
    rw [respond, respond, writeIn_calm, writeIn_calm]
    dsimp only
    cases fenceViolation bound tables.holds now write.touched with
    | some refusal => exact ⟨rfl, rfl, rfl⟩
    | none => exact ⟨rfl, rfl, rfl⟩
  | setOutputs outputs remove =>
    rw [respond, respond]
    have hmerged := hsame.setOutputs outputs remove rfl
    dsimp only at hmerged ⊢
    rw [hmerged]
    cases tables.setOutputs kind' now bound outputs remove with
    | ok tables => exact ⟨rfl, rfl, rfl⟩
    | error refusal => exact ⟨rfl, rfl, rfl⟩

/-- How far a call moves the serial. -/
theorem respond_serial (kind : HoldStore) (now : Int) (call : TableCall) (backend : TableBackend) :
    (backend.respond kind now call).2.serial = backend.serial +
      match call with
      | .write write =>
        if fenceViolation backend.bound backend.holds now write.touched = none then
          bumps kind write backend.nodes
        else 0
      | _ => 0 := by
  cases call with
  | acquire owner ttl scope =>
    rw [respond, acquireIn_calm]
    cases backend.toTables.acquire kind now owner ttl scope <;> rfl
  | bind grant => rfl
  | release owner => rfl
  | forceUnlock nodes => rfl
  | write write =>
    rw [respond, writeIn_calm]
    dsimp only
    cases fenceViolation backend.bound backend.holds now write.touched with
    | some refusal => rw [if_neg nofun, Nat.add_zero]
    | none => rw [if_pos rfl, written]
  | setOutputs outputs remove =>
    rw [respond]
    cases backend.toTables.setOutputs kind now backend.bound outputs remove <;> rfl

/-- Whole histories: what is treated alike call for call is answered alike. -/
theorem answers_alike {holds : TableBackend → Int → TableCall → Prop}
    (hholds : ∀ backend now call, holds backend now call → SameCall kind kind' now call backend)
    (history : List (Int × TableCall)) (halike : backend.Alike backend')
    (hall : Throughout kind holds history backend) :
    answers kind history backend = answers kind' history backend' := by
  induction history generalizing backend backend' with
  | nil => rfl
  | cons event history ih =>
    obtain ⟨now, call⟩ := event
    obtain ⟨hone, hrest⟩ := hall
    obtain ⟨hanswer, hleft⟩ := respond_alike (hholds backend now call hone) halike
    unfold answers trace
    rw [List.map_cons, List.map_cons, hanswer, hleft.tables]
    exact congrArg _ (ih hleft hrest)

theorem serials_alike {holds : TableBackend → Int → TableCall → Prop}
    (hholds : ∀ backend now call, holds backend now call → SameCall kind kind' now call backend ∧
      ∀ write, call = .write write → bumps kind write backend.nodes = bumps kind' write backend.nodes)
    (history : List (Int × TableCall)) (halike : backend.Alike backend')
    (hserial : backend.serial = backend'.serial) (hall : Throughout kind holds history backend) :
    serials kind history backend = serials kind' history backend' := by
  induction history generalizing backend backend' with
  | nil => rfl
  | cons event history ih =>
    obtain ⟨now, call⟩ := event
    obtain ⟨hone, hrest⟩ := hall
    obtain ⟨hsame, hbumps⟩ := hholds backend now call hone
    have hleft := (respond_alike hsame halike).2
    have hmoved : (backend.respond kind now call).2.serial =
        (backend'.respond kind' now call).2.serial := by
      rw [respond_serial, respond_serial, hserial]
      cases call with
      | write write =>
        obtain ⟨tables, serial, bound⟩ := backend
        obtain ⟨tables', serial', bound'⟩ := backend'
        obtain ⟨rfl, rfl⟩ := halike
        dsimp only
        rw [hbumps write rfl]
      | _ => rfl
    unfold serials trace
    rw [List.map_cons, List.map_cons, hmoved]
    exact congrArg _ (ih hleft hmoved hrest)

/-! ## Where postgres does what the others do -/

theorem findSome?_congr {α β : Type} {values : List α} {first second : α → Option β}
    (hsame : ∀ value ∈ values, first value = second value) :
    values.findSome? first = values.findSome? second := by
  induction values with
  | nil => rfl
  | cons value values ih =>
    rw [List.findSome?_cons, List.findSome?_cons, hsame value (List.mem_cons_self ..),
      ih fun other hmem => hsame other (List.mem_cons_of_mem _ hmem)]

/-- No hold of another owner is met within the margin of its expiry, every acquisition names a node,
and outputs are written under no lease, or under one that its nodes in their stacks are still held
by. -/
def Clear (skewMargin : Int) (backend : TableBackend) (now : Int) : TableCall → Prop
  | .acquire owner _ scope => scope ≠ [] ∧
      ∀ node ∈ scope, ∀ hold, backend.holds[node]? = some hold → hold.owner ≠ owner →
        now < hold.expiresAt ∨ hold.expiresAt < now - skewMargin
  | .setOutputs outputs remove => ∀ lease, backend.bound = some lease →
      fenceViolation (some lease) backend.holds now (fencedNodes lease outputs remove) = none
  | _ => True

theorem bars_of_clear {skewMargin : Int} {hold : Lease} {owner : String} (hmargin : 0 ≤ skewMargin)
    (hclear : hold.owner ≠ owner → now < hold.expiresAt ∨ hold.expiresAt < now - skewMargin) :
    HoldStore.sqlite.bars hold owner now = (HoldStore.postgres skewMargin).bars hold owner now := by
  unfold HoldStore.bars Lease.blocks
  by_cases howner : hold.owner = owner
  · simp [howner]
  · rcases hclear howner with hlive | hlapsed
    · have hlate : ¬ hold.expiresAt < now - skewMargin := by omega
      simp [howner, hlive, hlate]
    · have hover : ¬ now < hold.expiresAt := by omega
      simp [howner, hover, hlapsed]

theorem Clear.same {skewMargin : Int} (hmargin : 0 ≤ skewMargin)
    (hclear : Clear skewMargin backend now call) :
    SameCall .sqlite (.postgres skewMargin) now call backend := by
  constructor
  · rintro owner ttl scope rfl
    obtain ⟨hscope, hholds⟩ := hclear
    have hskips : (HoldStore.postgres skewMargin).skips scope = false := by
      cases scope with
      | nil => exact (hscope rfl).elim
      | cons node scope => rfl
    have hconflict : HoldStore.sqlite.scopeConflict backend.holds owner now scope =
        (HoldStore.postgres skewMargin).scopeConflict backend.holds owner now scope := by
      unfold HoldStore.scopeConflict
      refine findSome?_congr fun node hmem => ?_
      cases hhold : backend.holds[node]? with
      | none => rfl
      | some hold =>
        dsimp only
        rw [bars_of_clear hmargin (hholds node (mem_sortedSet.mp hmem) hold hhold)]
    unfold Tables.acquire
    rw [hskips, hconflict]
    rfl
  · rintro outputs remove rfl
    unfold Tables.setOutputs
    cases hbound : backend.bound with
    | none => rfl
    | some lease =>
      dsimp only
      rw [hclear lease hbound]

theorem same_memory (now : Int) (call : TableCall) (backend : TableBackend) :
    SameCall .memory .sqlite now call backend :=
  ⟨fun _ _ _ _ => rfl, fun _ _ _ => by unfold Tables.setOutputs; rfl⟩

/-- A batch that moves one row, or asks for nothing. -/
def OneRow (backend : TableBackend) (_ : Int) (call : TableCall) : Prop :=
  ∀ write, call = .write write →
    drops write.deleted backend.nodes + write.stored.length = if write.isEmpty then 0 else 1

theorem OneRow.bumps (hone : OneRow backend now call) (write : NodeWrite)
    (hwrite : call = .write write) :
    TableBackend.bumps .memory write backend.nodes = TableBackend.bumps .sqlite write backend.nodes := by
  have hrows := hone write hwrite
  cases write with
  | delete node => rfl
  | _ => exact hrows

/-! ## Loads -/

/-- The call's write, if it ended well. -/
def acceptedOf : TableCall → Except (Failed Refusal) Unit → List NodeWrite
  | .write write, .ok () => [write]
  | _, _ => []

/-- The writes of a history that ended well. -/
def accepted (kind : HoldStore) : List (Int × TableCall) → TableBackend → List NodeWrite
  | [], _ => []
  | (now, call) :: calls, backend =>
    let ended := backend.respond kind now call
    acceptedOf call ended.1 ++ accepted kind calls ended.2

/-- The store a history leaves. -/
def left (kind : HoldStore) (history : List (Int × TableCall)) (backend : TableBackend) : TableBackend :=
  history.foldl (fun backend event => (backend.respond kind event.1 event.2).2) backend

theorem respond_nodes (kind : HoldStore) (now : Int) (call : TableCall) (backend : TableBackend) :
    (backend.respond kind now call).2.nodes =
      (acceptedOf call (backend.respond kind now call).1).foldl
        (fun nodes write => write.applied nodes) backend.nodes := by
  cases call with
  | acquire owner ttl scope =>
    change (backend.acquireIn kind {} now owner ttl scope).2.nodes = backend.nodes
    rw [acquireIn_calm]
    cases htaken : backend.toTables.acquire kind now owner ttl scope with
    | error refusal => rfl
    | ok tables =>
      unfold Tables.acquire at htaken
      split at htaken
      · cases htaken
        rfl
      · split at htaken
        · cases htaken
        · cases htaken
          rfl
  | bind grant => rfl
  | release owner => rfl
  | forceUnlock nodes => rfl
  | write write =>
    rw [respond, writeIn_calm]
    cases fenceViolation backend.bound backend.holds now write.touched with
    | some refusal => rfl
    | none => rfl
  | setOutputs outputs remove =>
    change (backend.respond kind now (.setOutputs outputs remove)).2.nodes = backend.nodes
    rw [respond]
    cases hmerged : backend.toTables.setOutputs kind now backend.bound outputs remove with
    | error refusal => rfl
    | ok tables =>
      unfold Tables.setOutputs at hmerged
      dsimp only at hmerged
      split at hmerged
      all_goals try (cases hmerged; rfl)
      split at hmerged
      · cases hmerged
      · cases hmerged
        rfl

/-- Every load is of the writes that ended well, each as a whole, and of nothing else. -/
def LoadsWhole (kind : HoldStore) : Prop :=
  ∀ (history : List (Int × TableCall)) (backend : TableBackend),
    (left kind history backend).nodes =
      (accepted kind history backend).foldl (fun nodes write => write.applied nodes) backend.nodes

theorem loadsWhole (kind : HoldStore) : LoadsWhole kind := by
  intro history
  induction history with
  | nil => exact fun _ => rfl
  | cons event history ih =>
    intro backend
    obtain ⟨now, call⟩ := event
    have hrest := ih (backend.respond kind now call).2
    rw [respond_nodes] at hrest
    rw [accepted, List.foldl_append]
    exact hrest

end TableBackend

/-! ## Histories -/

namespace Small

def stateRow (name : String) : StateNode :=
  { id := "s:t:" ++ name, type := "t", provider := "p", providerVersion := "1", inputHash := "h" }

/-- A run of one owner. -/
def ownRun : List (Int × TableCall) :=
  [(0, .acquire "a" 100 ["s:t:n"]), (0, .bind (some 0)), (1, .write (.put (stateRow "n"))),
    (2, .release "a")]

theorem clear_ownRun : TableBackend.Throughout .sqlite (TableBackend.Clear 30) ownRun {} := by
  refine ⟨⟨nofun, fun node _ hold hhold => ?_⟩, trivial, trivial, trivial, trivial⟩
  rw [Std.ExtTreeMap.getElem?_empty] at hhold
  cases hhold

/-- Two rows at once. -/
def batch : List (Int × TableCall) :=
  [(0, .write (.putMany [stateRow "n", stateRow "m"]))]

/-- Another owner comes within the margin of a hold's expiry. -/
def early : List (Int × TableCall) :=
  [(0, .acquire "a" 10 ["s:t:n"]), (11, .acquire "b" 10 ["s:t:n"])]

/-- The outputs of a stack whose node is another owner's by then. -/
def lateOutputs : List (Int × TableCall) :=
  [(0, .acquire "a" 10 ["s:t:n"]), (0, .bind (some 0)), (50, .acquire "b" 10 ["s:t:n"]),
    (51, .setOutputs ((∅ : Dict String Value).insert "s:x" (.str "1")) [])]

/-- A write under the lease of an empty scope. -/
def emptyScope : List (Int × TableCall) :=
  [(0, .acquire "a" 100 ["s:t:n"]), (0, .acquire "a" 100 []), (0, .bind (some 1)),
    (1, .write (.put (stateRow "n")))]

def refusals (kind : HoldStore) (history : List (Int × TableCall)) :
    List (Except (Failed Refusal) Unit) :=
  (TableBackend.answers kind history {}).map Prod.fst

end Small

namespace TableBackend

end TableBackend

end Atlantide
