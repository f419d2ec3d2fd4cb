import Atlantide.Lib.Transactions
import Atlantide.State.Holds

/-! # The three backends that keep their rows

The memory backend judges a whole batch before it writes any of it. The sqlite and postgres backends
write row by row within a transaction, and postgres tries once more when its connection went away.
Node rows, lock rows and the serial are followed through every history of calls. -/

namespace Atlantide

open Transactions

/-- What one backend stores, and the lease its writes are fenced against. -/
structure TableBackend extends Tables where
  serial : Nat := 0
  bound : Option Lease := none

/-- Nothing is asked for, so no transaction begins. -/
def NodeWrite.isEmpty : NodeWrite → Bool
  | .put _ | .delete _ => false
  | .putMany nodes => nodes.isEmpty
  | .replaceMany deleteIds nodes => deleteIds.isEmpty && nodes.isEmpty

namespace TableBackend

/-! ## The node rows -/

def store (backend : TableBackend) (node : StateNode) : TableBackend :=
  { backend with nodes := backend.nodes.insert node.id node, serial := backend.serial + 1 }

def drop (backend : TableBackend) (node : String) : TableBackend :=
  if node ∈ backend.nodes then
    { backend with nodes := backend.nodes.erase node, serial := backend.serial + 1 }
  else backend

/-- The memory backend's loops. -/
def rewritten (write : NodeWrite) (backend : TableBackend) : TableBackend :=
  match write with
  | .put node => backend.store node
  | .delete node => backend.drop node
  | .putMany nodes => nodes.foldl store backend
  | .replaceMany deleteIds nodes => nodes.foldl store (deleteIds.foldl drop backend)

def check (now : Int) (touched : List String) : Statement TableBackend Refusal := fun backend =>
  match fenceViolation backend.bound backend.holds now touched with
  | some refusal => .error refusal
  | none => .ok backend

def insertNode (node : StateNode) : Statement TableBackend Refusal := fun backend =>
  .ok { backend with nodes := backend.nodes.insert node.id node }

def deleteNode (node : String) : Statement TableBackend Refusal := fun backend =>
  .ok { backend with nodes := backend.nodes.erase node }

/-- The serial moves with the row count. -/
def deleteCounted (node : String) : Statement TableBackend Refusal := fun backend =>
  .ok (backend.drop node)

def bumpSerial : Statement TableBackend Refusal := fun backend =>
  .ok { backend with serial := backend.serial + 1 }

/-- The write's transaction in sqlite and postgres. -/
def statements (now : Int) (write : NodeWrite) : List (Statement TableBackend Refusal) :=
  check now write.touched :: match write with
    | .put node => [insertNode node, bumpSerial]
    | .delete node => [deleteCounted node]
    | .putMany nodes => nodes.map insertNode ++ [bumpSerial]
    | .replaceMany deleteIds nodes =>
      deleteIds.map deleteNode ++ (nodes.map insertNode ++ [bumpSerial])

/-! ## The lock rows -/

def bumpFence : Statement TableBackend Refusal := fun backend =>
  .ok { backend with fence := backend.fence + 1 }

/-- The lease at the fence just minted. -/
def minted (backend : TableBackend) (owner : String) (expiresAt : Int) (scope : List String) : Lease :=
  ⟨owner, expiresAt, scope, backend.fence⟩

def hold (owner : String) (expiresAt : Int) (scope : List String) (node : String) :
    Statement TableBackend Refusal := fun backend =>
  .ok { backend with
    holds := backend.holds.insert node (backend.minted owner expiresAt scope) }

/-- The lease is handed out. -/
def grant (owner : String) (expiresAt : Int) (scope : List String) : Statement TableBackend Refusal :=
  fun backend =>
    .ok { backend with granted := backend.minted owner expiresAt scope :: backend.granted }

/-- sqlite looks at every hold first. -/
def takeScope (now : Int) (owner : String) (ttl : Int) (scope : List String) :
    List (Statement TableBackend Refusal) :=
  (fun backend =>
    match HoldStore.sqlite.scopeConflict backend.holds owner now scope with
    | some refusal => .error refusal
    | none => .ok backend) :: bumpFence ::
      ((sortedSet scope).map (hold owner (now + ttl) scope) ++ [grant owner (now + ttl) scope])

/-- postgres takes node by node, and finds out on the way. -/
def lock (skewMargin now : Int) (owner : String) (ttl : Int) (scope : List String) (node : String) :
    Statement TableBackend Refusal := fun backend =>
  match backend.holds[node]? with
  | some current =>
    if (HoldStore.postgres skewMargin).bars current owner now then
      .error (.locked node current.owner)
    else hold owner (now + ttl) scope node backend
  | none => hold owner (now + ttl) scope node backend

def takeEveryNode (skewMargin now : Int) (owner : String) (ttl : Int) (scope : List String) :
    List (Statement TableBackend Refusal) :=
  bumpFence :: ((sortedSet scope).map (lock skewMargin now owner ttl scope) ++
    [grant owner (now + ttl) scope])

/-! ## Calls -/

/-- What the driver does during a call: where sqlite's raises, and how postgres's attempts go, the
second of them at `later`. -/
structure Weather where
  fault : Option Nat := none
  first : Course := .answered
  second : Course := .answered
  worth : Bool := false
  later : Int := 0

/-- No COMMIT of a backend that has any lost its answer. -/
def Weather.Answered (weather : Weather) : HoldStore → Prop
  | .memory | .sqlite => True
  | .postgres _ => weather.first ≠ .unanswered ∧ weather.second ≠ .unanswered

def writeIn (kind : HoldStore) (weather : Weather) (now : Int) (write : NodeWrite)
    (backend : TableBackend) : Ended TableBackend Refusal :=
  match kind with
  | .memory =>
    match fenceViolation backend.bound backend.holds now write.touched with
    | some refusal => (.error (.refused refusal), backend)
    | none => (.ok (), backend.rewritten write)
  | .sqlite =>
    if write.isEmpty then (.ok (), backend)
    else transaction (statements now write) weather.fault backend
  | .postgres _ =>
    if write.isEmpty then (.ok (), backend)
    else retried (statements now write) (statements weather.later write) weather.first weather.second
      weather.worth backend

def acquireIn (kind : HoldStore) (weather : Weather) (now : Int) (owner : String) (ttl : Int)
    (scope : List String) (backend : TableBackend) : Ended TableBackend Refusal :=
  match kind with
  | .memory =>
    match backend.toTables.acquire .memory now owner ttl scope with
    | .ok tables => (.ok (), { backend with toTables := tables })
    | .error refusal => (.error (.refused refusal), backend)
  | .sqlite => transaction (takeScope now owner ttl scope) weather.fault backend
  | .postgres skewMargin =>
    if scope.isEmpty then
      (.ok (), { backend with granted := ⟨owner, now + ttl, [], 0⟩ :: backend.granted })
    else retried (takeEveryNode skewMargin now owner ttl scope)
      (takeEveryNode skewMargin weather.later owner ttl scope) weather.first weather.second
      weather.worth backend

end TableBackend

/-- A call of a backend. A renewal is an acquisition by the same owner; what is bound is one of the
leases handed out so far, the earliest first, or none. -/
inductive TableCall
  | acquire (owner : String) (ttl : Int) (scope : List String)
  | bind (grant : Option Nat)
  | release (owner : String)
  | forceUnlock (nodes : List String)
  | write (write : NodeWrite)
  | setOutputs (outputs : Dict String Value) (remove : List String)

namespace TableBackend

/-- A call that no driver fails. -/
def respond (kind : HoldStore) (now : Int) (call : TableCall) (backend : TableBackend) :
    Ended TableBackend Refusal :=
  match call with
  | .acquire owner ttl scope => backend.acquireIn kind {} now owner ttl scope
  | .bind grant =>
    (.ok (), { backend with bound := grant.bind fun index => backend.granted.reverse[index]? })
  | .release owner => (.ok (), { backend with toTables := backend.toTables.release owner })
  | .forceUnlock nodes => (.ok (), { backend with toTables := backend.toTables.forceUnlock nodes })
  | .write write => backend.writeIn kind {} now write
  | .setOutputs outputs remove =>
    match backend.toTables.setOutputs kind now backend.bound outputs remove with
    | .ok tables => (.ok (), { backend with toTables := tables })
    | .error refusal => (.error (.refused refusal), backend)

/-- The answer to each call of a history, and what the backend stores then. -/
def trace (kind : HoldStore) : List (Int × TableCall) → TableBackend → List (Ended TableBackend Refusal)
  | [], _ => []
  | (now, call) :: calls, backend =>
    let ended := backend.respond kind now call
    ended :: trace kind calls ended.2

/-- What holds of each call of a history, in the store it is made in. -/
def Throughout (kind : HoldStore) (holds : TableBackend → Int → TableCall → Prop) :
    List (Int × TableCall) → TableBackend → Prop
  | [], _ => True
  | (now, call) :: calls, backend =>
    holds backend now call ∧ Throughout kind holds calls (backend.respond kind now call).2

/-! ## One call -/

/-- The rows of a batch that the deletes find. -/
def drops : List String → Dict String StateNode → Nat
  | [], _ => 0
  | node :: rest, nodes =>
    if node ∈ nodes then drops rest (nodes.erase node) + 1 else drops rest nodes

/-- How far a write that is let through moves the serial: by the rows in memory, by the batch in a
table. -/
def bumps (kind : HoldStore) (write : NodeWrite) (nodes : Dict String StateNode) : Nat :=
  match kind, write with
  | .memory, write => drops write.deleted nodes + write.stored.length
  | _, .delete node => drops [node] nodes
  | _, write => if write.isEmpty then 0 else 1

/-- The store with the write in it. -/
def written (kind : HoldStore) (write : NodeWrite) (backend : TableBackend) : TableBackend :=
  { backend with
    nodes := write.applied backend.nodes
    serial := backend.serial + bumps kind write backend.nodes }

section

variable {backend : TableBackend} {kind : HoldStore} {now : Int} {write : NodeWrite}

theorem foldl_store (nodes : List StateNode) (backend : TableBackend) :
    nodes.foldl store backend = { backend with
      nodes := nodes.foldl (fun rows node => rows.insert node.id node) backend.nodes
      serial := backend.serial + nodes.length } := by
  induction nodes generalizing backend with
  | nil => rfl
  | cons node nodes ih =>
    rw [List.foldl_cons, ih, List.foldl_cons, List.length_cons]
    simp only [store, Nat.add_assoc, Nat.add_comm 1]

theorem erase_of_not_mem {nodes : Dict String StateNode} {node : String} (hnone : node ∉ nodes) :
    nodes.erase node = nodes := by
  refine Std.ExtTreeMap.ext_getElem? fun other => ?_
  rw [Std.ExtTreeMap.getElem?_erase]
  split
  next hsame =>
    rw [Std.compare_eq_iff_eq] at hsame
    subst hsame
    exact (Std.ExtTreeMap.getElem?_eq_none hnone).symm
  next => rfl

theorem foldl_drop (deleteIds : List String) (backend : TableBackend) :
    deleteIds.foldl drop backend = { backend with
      nodes := deleteIds.foldl (fun rows node => rows.erase node) backend.nodes
      serial := backend.serial + drops deleteIds backend.nodes } := by
  induction deleteIds generalizing backend with
  | nil => rfl
  | cons node deleteIds ih =>
    rw [List.foldl_cons, ih, List.foldl_cons, drops, drop]
    split
    next => simp only [Nat.add_assoc, Nat.add_comm 1]
    next hnone => rw [erase_of_not_mem hnone]

/-- Erased one by one, or at once. -/
theorem foldl_erase (deleteIds : List String) (nodes : Dict String StateNode) :
    deleteIds.foldl (fun rows node => rows.erase node) nodes =
      nodes.filter fun node _ => node ∉ deleteIds := by
  refine Std.ExtTreeMap.ext_getElem? fun other => ?_
  rw [Std.ExtTreeMap.getElem?_filter']
  induction deleteIds generalizing nodes with
  | nil => cases hrow : nodes[other]? <;> simp [hrow, Option.filter]
  | cons node deleteIds ih =>
    rw [List.foldl_cons, ih, Std.ExtTreeMap.getElem?_erase]
    by_cases hsame : node = other
    · subst hsame
      simp
    · rw [if_neg (by rwa [Std.compare_eq_iff_eq])]
      simp [Ne.symm hsame]

theorem applied_of_stored {write : NodeWrite} (hnone : write.deleted = [])
    (nodes : Dict String StateNode) : write.applied nodes =
      write.stored.foldl (fun rows node => rows.insert node.id node) nodes := by
  rw [NodeWrite.applied, hnone, ← foldl_erase]
  rfl

theorem rewritten_eq (write : NodeWrite) (backend : TableBackend) :
    backend.rewritten write = backend.written .memory write := by
  cases write with
  | put node =>
    rw [written, applied_of_stored rfl]
    rfl
  | delete node =>
    have hdrop := foldl_drop [node] backend
    rw [foldl_erase] at hdrop
    exact hdrop
  | putMany nodes =>
    rw [rewritten, foldl_store, written, applied_of_stored rfl]
    simp only [bumps, NodeWrite.stored, NodeWrite.deleted, drops, Nat.zero_add]
  | replaceMany deleteIds nodes =>
    rw [rewritten, foldl_drop, foldl_store, foldl_erase]
    simp only [written, bumps, NodeWrite.applied, NodeWrite.stored, NodeWrite.deleted,
      Nat.add_assoc]
    rfl

theorem perform_inserts (nodes : List StateNode) (backend : TableBackend) :
    perform (nodes.map insertNode ++ [bumpSerial]) backend = .ok { backend with
      nodes := nodes.foldl (fun rows node => rows.insert node.id node) backend.nodes
      serial := backend.serial + 1 } := by
  have hfold (nodes : List StateNode) (backend : TableBackend) :
      nodes.foldl (fun backend node =>
          { backend with nodes := backend.nodes.insert node.id node }) backend =
        { backend with
          nodes := nodes.foldl (fun rows node => rows.insert node.id node) backend.nodes } := by
    induction nodes generalizing backend with
    | nil => rfl
    | cons node nodes ih => rw [List.foldl_cons, ih, List.foldl_cons]
  rw [perform_append, @perform_map TableBackend Refusal StateNode insertNode _ (fun _ _ => rfl), hfold]
  rfl

theorem perform_deletes (deleteIds : List String) (backend : TableBackend) :
    perform (deleteIds.map deleteNode) backend = .ok { backend with
      nodes := backend.nodes.filter fun node _ => node ∉ deleteIds } := by
  have hfold (deleteIds : List String) (backend : TableBackend) :
      deleteIds.foldl (fun backend node =>
          { backend with nodes := backend.nodes.erase node }) backend =
        { backend with
          nodes := deleteIds.foldl (fun rows node => rows.erase node) backend.nodes } := by
    induction deleteIds generalizing backend with
    | nil => rfl
    | cons node deleteIds ih => rw [List.foldl_cons, ih, List.foldl_cons]
  rw [@perform_map TableBackend Refusal String deleteNode _ (fun _ _ => rfl), hfold, foldl_erase]

/-- Row by row in a transaction, or at once. -/
theorem perform_statements (hkind : kind ≠ .memory) (hasks : write.isEmpty = false) :
    perform (statements now write) backend =
      match fenceViolation backend.bound backend.holds now write.touched with
      | some refusal => .error refusal
      | none => .ok (backend.written kind write) := by
  unfold statements
  rw [perform, check]
  cases fenceViolation backend.bound backend.holds now write.touched with
  | some refusal => rfl
  | none =>
    dsimp only
    have hbumps (hother : ∀ node, write ≠ .delete node) : bumps kind write backend.nodes = 1 := by
      cases kind with
      | memory => exact (hkind rfl).elim
      | _ => cases write with
        | delete node => exact (hother node rfl).elim
        | _ => simp [bumps, hasks]
    cases write with
    | put node =>
      rw [written, hbumps (by rintro _ ⟨⟩), applied_of_stored rfl]
      rfl
    | delete node =>
      have hdrop := foldl_drop [node] backend
      rw [foldl_erase] at hdrop
      cases kind with
      | memory => exact (hkind rfl).elim
      | _ => exact congrArg Except.ok hdrop
    | putMany nodes =>
      rw [written, hbumps (by rintro _ ⟨⟩), perform_inserts, applied_of_stored rfl]
      rfl
    | replaceMany deleteIds nodes =>
      rw [written, hbumps (by rintro _ ⟨⟩), perform_append, perform_deletes]
      exact perform_inserts nodes _

theorem written_empty (hnone : write.isEmpty = true) : backend.written kind write = backend := by
  cases write with
  | put node => cases hnone
  | delete node => cases hnone
  | putMany nodes =>
    obtain rfl := List.isEmpty_iff.mp hnone
    rw [written, applied_of_stored rfl]
    cases kind <;> rfl
  | replaceMany deleteIds nodes =>
    obtain ⟨hids, hnodes⟩ := Bool.and_eq_true_iff.mp hnone
    obtain rfl := List.isEmpty_iff.mp hids
    obtain rfl := List.isEmpty_iff.mp hnodes
    rw [written, applied_of_stored rfl]
    cases kind <;> rfl

theorem writeIn_calm (kind : HoldStore) (now : Int) (write : NodeWrite) (backend : TableBackend) :
    backend.writeIn kind {} now write =
      match fenceViolation backend.bound backend.holds now write.touched with
      | some refusal => (.error (.refused refusal), backend)
      | none => (.ok (), backend.written kind write) := by
  have hempty (hnone : write.isEmpty = true) :
      fenceViolation backend.bound backend.holds now write.touched = none := by
    have htouched : write.touched = [] := by
      cases write with
      | put node => cases hnone
      | delete node => cases hnone
      | putMany nodes =>
        obtain rfl := List.isEmpty_iff.mp hnone
        rfl
      | replaceMany deleteIds nodes =>
        obtain ⟨hids, hnodes⟩ := Bool.and_eq_true_iff.mp hnone
        obtain rfl := List.isEmpty_iff.mp hids
        obtain rfl := List.isEmpty_iff.mp hnodes
        rfl
    rw [htouched]
    cases backend.bound with
    | none => rfl
    | some lease => exact fenceViolation_eq_none.mpr (List.forall_mem_nil _)
  have htable (hkind : kind ≠ .memory) :
      (if write.isEmpty then (.ok (), backend)
        else transaction (statements now write) none backend : Ended TableBackend Refusal) =
      match fenceViolation backend.bound backend.holds now write.touched with
      | some refusal => (.error (.refused refusal), backend)
      | none => (.ok (), backend.written kind write) := by
    split
    next hnone => rw [hempty hnone, written_empty hnone]
    next hasks =>
      rw [transaction_none, perform_statements hkind (Bool.not_eq_true _ ▸ hasks)]
      cases fenceViolation backend.bound backend.holds now write.touched <;> rfl
  cases kind with
  | memory =>
    rw [writeIn, rewritten_eq]
  | sqlite => exact htable nofun
  | postgres skewMargin =>
    rw [← htable nofun, writeIn]
    split
    · rfl
    · rw [retried, attempt]
      rcases transaction_cases (statements now write) none backend with
        ⟨working, -, hended⟩ | ⟨failed, hended⟩
      · rw [hended]
      · rw [hended]
        cases failed <;> rfl

end

/-! ## One acquisition -/

section

variable {kind : HoldStore} {now expiresAt : Int} {owner : String} {ttl : Int} {scope : List String}
  {backend : TableBackend}

/-- What bars the owner from one node. -/
def conflictAt (kind : HoldStore) (owner : String) (now : Int) (held : Dict String Lease)
    (node : String) : Option Refusal :=
  match held[node]? with
  | some current => if kind.bars current owner now then some (.locked node current.owner) else none
  | none => none

theorem scopeConflict_eq (held : Dict String Lease) : kind.scopeConflict held owner now scope =
    (sortedSet scope).findSome? (conflictAt kind owner now held) := rfl

/-- The store with the nodes held at the fence just minted. -/
def taken (owner : String) (expiresAt : Int) (scope nodes : List String) (backend : TableBackend) :
    TableBackend :=
  { backend with
    holds := nodes.foldl (fun holds node =>
      holds.insert node (backend.minted owner expiresAt scope)) backend.holds
    granted := backend.minted owner expiresAt scope :: backend.granted }

theorem perform_holds (nodes : List String) (backend : TableBackend) :
    perform (nodes.map (hold owner expiresAt scope) ++ [grant owner expiresAt scope]) backend =
      .ok (backend.taken owner expiresAt scope nodes) := by
  induction nodes generalizing backend with
  | nil => rfl
  | cons node nodes ih =>
    rw [List.map_cons, List.cons_append, perform, hold]
    exact ih _

/-- A node just taken bars its own owner from nothing. -/
theorem conflictAt_insert {skewMargin : Int} {held : Dict String Lease} {lease : Lease}
    {node other : String} (howner : lease.owner = owner)
    (hfree : conflictAt (.postgres skewMargin) owner now held node = none) :
    conflictAt (.postgres skewMargin) owner now (held.insert node lease) other =
      conflictAt (.postgres skewMargin) owner now held other := by
  by_cases hsame : node = other
  · subst hsame
    rw [hfree, conflictAt, Std.ExtTreeMap.getElem?_insert_self]
    simp [HoldStore.bars, howner]
  · rw [conflictAt, Std.ExtTreeMap.getElem?_insert, if_neg (by rwa [Std.compare_eq_iff_eq])]
    rfl

theorem perform_locks (skewMargin : Int) (nodes : List String) (backend : TableBackend) :
    perform (nodes.map (lock skewMargin now owner ttl scope) ++ [grant owner (now + ttl) scope])
        backend =
      match nodes.findSome? (conflictAt (.postgres skewMargin) owner now backend.holds) with
      | some refusal => .error refusal
      | none => .ok (backend.taken owner (now + ttl) scope nodes) := by
  induction nodes generalizing backend with
  | nil => rfl
  | cons node nodes ih =>
    have hlock : lock skewMargin now owner ttl scope node backend =
        match conflictAt (.postgres skewMargin) owner now backend.holds node with
        | some refusal => .error refusal
        | none => hold owner (now + ttl) scope node backend := by
      rw [lock, conflictAt]
      cases backend.holds[node]? with
      | none => rfl
      | some current =>
        dsimp only
        split <;> rfl
    rw [List.map_cons, List.cons_append, perform, hlock, List.findSome?_cons]
    cases hfree : conflictAt (.postgres skewMargin) owner now backend.holds node with
    | some refusal => rfl
    | none =>
      dsimp only
      rw [hold]
      dsimp only
      rw [ih]
      dsimp only
      have hrest : nodes.findSome? (conflictAt (.postgres skewMargin) owner now
          (backend.holds.insert node (backend.minted owner (now + ttl) scope))) =
            nodes.findSome? (conflictAt (.postgres skewMargin) owner now backend.holds) :=
        congrArg (fun conflict => nodes.findSome? conflict)
          (funext fun other => conflictAt_insert rfl hfree)
      rw [hrest]
      rfl

/-- The scope may be taken in any order. -/
theorem taken_sorted (backend : TableBackend) :
    backend.taken owner expiresAt scope (sortedSet scope) =
      backend.taken owner expiresAt scope scope := by
  have hholds : (sortedSet scope).foldl (fun holds node =>
      holds.insert node (backend.minted owner expiresAt scope)) backend.holds =
        scope.foldl (fun holds node =>
          holds.insert node (backend.minted owner expiresAt scope)) backend.holds := by
    refine Std.ExtTreeMap.ext_getElem? fun node => ?_
    rw [getElem?_foldl_hold, getElem?_foldl_hold, if_congr mem_sortedSet rfl rfl]
  rw [taken, taken, hholds]

/-- Each backend's own way of taking a scope comes to the same. -/
theorem acquireIn_calm (kind : HoldStore) (now : Int) (owner : String) (ttl : Int)
    (scope : List String) (backend : TableBackend) :
    backend.acquireIn kind {} now owner ttl scope =
      match backend.toTables.acquire kind now owner ttl scope with
      | .ok tables => (.ok (), { backend with toTables := tables })
      | .error refusal => (.error (.refused refusal), backend) := by
  cases kind with
  | memory => rfl
  | sqlite =>
    have hskips : ¬ HoldStore.sqlite.skips scope = true := Bool.false_ne_true
    rw [acquireIn, transaction_none, takeScope, perform, Tables.acquire, if_neg hskips]
    cases HoldStore.sqlite.scopeConflict backend.holds owner now scope with
    | some refusal => rfl
    | none =>
      dsimp only
      rw [perform, bumpFence]
      dsimp only
      rw [perform_holds, taken_sorted]
      rfl
  | postgres skewMargin =>
    have hskips : (HoldStore.postgres skewMargin).skips scope = scope.isEmpty := rfl
    rw [acquireIn, Tables.acquire, hskips]
    by_cases hnone : scope.isEmpty = true
    · rw [if_pos hnone, if_pos hnone]
    · rw [if_neg hnone, if_neg hnone, retried, attempt, transaction_none, takeEveryNode, perform,
        bumpFence]
      dsimp only
      rw [perform_locks, ← scopeConflict_eq]
      dsimp only
      cases (HoldStore.postgres skewMargin).scopeConflict backend.holds owner now scope with
      | some refusal => rfl
      | none =>
        dsimp only
        rw [taken_sorted]
        rfl

end

section

variable {backend : TableBackend} {kind : HoldStore} {now : Int} {write : NodeWrite}

/-! ## All or nothing -/

theorem applied_applied (write : NodeWrite) (nodes : Dict String StateNode) :
    write.applied (write.applied nodes) = write.applied nodes := by
  refine Std.ExtTreeMap.ext_getElem? fun node => ?_
  have hfold (stored : List StateNode) (rows rows' : Dict String StateNode)
      (hrows : rows[node]? = rows'[node]? ∨ ∃ last ∈ stored, last.id = node) :
      (stored.foldl (fun rows node => rows.insert node.id node) rows)[node]? =
        (stored.foldl (fun rows node => rows.insert node.id node) rows')[node]? := by
    induction stored generalizing rows rows' with
    | nil => exact hrows.resolve_right (by simp)
    | cons first stored ih =>
      rw [List.foldl_cons, List.foldl_cons]
      refine ih _ _ ?_
      by_cases hsame : first.id = node
      · left
        subst hsame
        rw [Std.ExtTreeMap.getElem?_insert_self, Std.ExtTreeMap.getElem?_insert_self]
      · rcases hrows with hrows | ⟨last, hmem, hlast⟩
        · left
          rw [Std.ExtTreeMap.getElem?_insert, Std.ExtTreeMap.getElem?_insert,
            if_neg (by rwa [Std.compare_eq_iff_eq]), if_neg (by rwa [Std.compare_eq_iff_eq])]
          exact hrows
        · rcases List.mem_cons.mp hmem with rfl | hmem
          · exact (hsame hlast).elim
          · exact .inr ⟨last, hmem, hlast⟩
  have hkept (stored : List StateNode) (rows : Dict String StateNode)
      (hother : ¬ ∃ last ∈ stored, last.id = node) :
      (stored.foldl (fun rows node => rows.insert node.id node) rows)[node]? = rows[node]? := by
    induction stored generalizing rows with
    | nil => rfl
    | cons first stored ih =>
      rw [List.foldl_cons, ih _ fun ⟨last, hmem, hlast⟩ => hother
        ⟨last, List.mem_cons_of_mem _ hmem, hlast⟩]
      rw [Std.ExtTreeMap.getElem?_insert, if_neg]
      rw [Std.compare_eq_iff_eq]
      exact fun hsame => hother ⟨first, List.mem_cons_self .., hsame⟩
  refine hfold _ _ _ ?_
  by_cases hstored : ∃ last ∈ write.stored, last.id = node
  · exact .inr hstored
  · left
    rw [Std.ExtTreeMap.getElem?_filter', Std.ExtTreeMap.getElem?_filter', NodeWrite.applied,
      hkept _ _ hstored, Std.ExtTreeMap.getElem?_filter']
    cases nodes[node]? with
    | none => rfl
    | some row =>
      by_cases hdeleted : node ∈ write.deleted <;> simp [Option.filter, hdeleted]

/-- A write that is refused, or fails with its COMMIT answered, leaves the store as it was, one that
ends well has the whole of it in the store, and otherwise it is one or the other. -/
def AllOrNothing (kind : HoldStore) : Prop :=
  ∀ (weather : Weather) (now : Int) (write : NodeWrite) (backend : TableBackend),
    let ended := backend.writeIn kind weather now write
    ((∃ failed, ended.1 = .error failed) → weather.Answered kind → ended.2 = backend) ∧
      (ended.1 = .ok () → ended.2.nodes = write.applied backend.nodes) ∧
      (ended.2 = backend ∨ ended.2.nodes = write.applied backend.nodes ∧
        ended.2.outputs = backend.outputs ∧ ended.2.holds = backend.holds)

theorem perform_written (hkind : kind ≠ .memory) (hasks : write.isEmpty = false) {left : TableBackend}
    (hperform : perform (statements now write) backend = .ok left) :
    left = backend.written kind write := by
  rw [perform_statements hkind hasks] at hperform
  split at hperform
  · cases hperform
  · exact (Except.ok.inj hperform).symm

theorem allOrNothing (kind : HoldStore) : AllOrNothing kind := by
  intro weather now write backend
  have hsame (hnone : write.isEmpty = true) : backend.nodes = write.applied backend.nodes :=
    (congrArg (fun backend : TableBackend => backend.nodes)
      (@written_empty backend .sqlite write hnone)).symm
  cases kind with
  | memory =>
    rw [writeIn, rewritten_eq]
    split
    · exact ⟨fun _ _ => rfl, nofun, .inl rfl⟩
    · exact ⟨fun ⟨_, hfailed⟩ => (nomatch hfailed), fun _ => rfl, .inr ⟨rfl, rfl, rfl⟩⟩
  | sqlite =>
    rw [writeIn]
    split
    next hnone => exact ⟨fun _ _ => rfl, fun _ => hsame hnone, .inl rfl⟩
    next hasks =>
      rcases transaction_cases (statements now write) weather.fault backend with
        ⟨working, hperform, hended⟩ | ⟨failed, hended⟩
      · rw [hended]
        obtain rfl := @perform_written backend .sqlite now write nofun
          (Bool.not_eq_true _ ▸ hasks) working hperform
        exact ⟨fun ⟨_, hfailed⟩ => (nomatch hfailed), fun _ => rfl, .inr ⟨rfl, rfl, rfl⟩⟩
      · rw [hended]
        exact ⟨fun _ _ => rfl, nofun, .inl rfl⟩
  | postgres skewMargin =>
    rw [writeIn]
    split
    next hnone => exact ⟨fun _ _ => rfl, fun _ => hsame hnone, .inl rfl⟩
    next hasks =>
      have hwritten {now : Int} {backend left : TableBackend}
          (hperform : perform (statements now write) backend = .ok left) :
          left = backend.written (.postgres skewMargin) write :=
        @perform_written _ (.postgres skewMargin) _ _ nofun (Bool.not_eq_true _ ▸ hasks) _ hperform
      rcases retried_cases (statements now write) (statements weather.later write) weather.first
          weather.second weather.worth backend with
        ⟨failed, hended⟩ | ⟨answer, left, hended, hlanded, hanswer⟩
      · rw [hended]
        exact ⟨fun _ _ => rfl, nofun, .inl rfl⟩
      · rw [hended]
        have hleft : left.nodes = write.applied backend.nodes ∧ left.outputs = backend.outputs ∧
            left.holds = backend.holds := by
          rcases hlanded with hperform | hperform | ⟨working, hperform, hagain⟩
          · rw [hwritten hperform]
            exact ⟨rfl, rfl, rfl⟩
          · rw [hwritten hperform]
            exact ⟨rfl, rfl, rfl⟩
          · rw [hwritten hagain, hwritten hperform]
            exact ⟨applied_applied write backend.nodes, rfl, rfl⟩
        refine ⟨fun ⟨failed, hfailed⟩ hanswered => ?_, fun _ => hleft.1, .inr hleft⟩
        rcases hanswer with hok | hlost | hlost
        · dsimp only at hfailed
          rw [hok] at hfailed
          cases hfailed
        · exact (hanswered.1 hlost).elim
        · exact (hanswered.2 hlost).elim

/-- An acquisition that is refused, or fails with its COMMIT answered, leaves every lock row as it
was. -/
def AcquiresWhole (kind : HoldStore) : Prop :=
  ∀ (weather : Weather) (now : Int) (owner : String) (ttl : Int) (scope : List String)
    (backend : TableBackend),
    (∃ failed, (backend.acquireIn kind weather now owner ttl scope).1 = .error failed) →
      weather.Answered kind → (backend.acquireIn kind weather now owner ttl scope).2 = backend

theorem acquiresWhole (kind : HoldStore) : AcquiresWhole kind := by
  intro weather now owner ttl scope backend
  cases kind with
  | memory =>
    rw [acquireIn]
    split
    · exact fun ⟨_, hfailed⟩ => nomatch hfailed
    · exact fun _ _ => rfl
  | sqlite =>
    rw [acquireIn]
    rcases transaction_cases (takeScope now owner ttl scope) weather.fault backend with
      ⟨working, -, hended⟩ | ⟨failed, hended⟩
    · rw [hended]
      exact fun ⟨_, hfailed⟩ => nomatch hfailed
    · rw [hended]
      exact fun _ _ => rfl
  | postgres skewMargin =>
    rw [acquireIn]
    split
    · exact fun ⟨_, hfailed⟩ => nomatch hfailed
    · rcases retried_cases (takeEveryNode skewMargin now owner ttl scope)
          (takeEveryNode skewMargin weather.later owner ttl scope) weather.first weather.second
          weather.worth backend with
        ⟨failed, hended⟩ | ⟨answer, left, hended, -, hanswer⟩
      · rw [hended]
        exact fun _ _ => rfl
      · rw [hended]
        rintro ⟨failed, hfailed⟩ hanswered
        rcases hanswer with hok | hlost | hlost
        · dsimp only at hfailed
          rw [hok] at hfailed
          cases hfailed
        · exact (hanswered.1 hlost).elim
        · exact (hanswered.2 hlost).elim

end

end TableBackend

end Atlantide
