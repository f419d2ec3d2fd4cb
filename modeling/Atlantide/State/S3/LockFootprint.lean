import Atlantide.State.S3.Footprint

/-! # What a lock call asks for -/

namespace Atlantide

open Interleaving

variable {ctx : S3Context} {takeover : Takeover}

/-- The claims of the nodes, each once and in their order. -/
def Claims (nodes : List String) (items : List TransactItem) : Prop :=
  items.filterMap TransactItem.updated = [] ∧ items.filterMap TransactItem.claimed = nodes ∧
    items.filterMap TransactItem.raised = nodes

theorem Claims.locking {nodes : List String} {items : List TransactItem} (h : Claims nodes items)
    (hnodup : nodes.Nodup) : Request.Locking (.aws (.transact items)) :=
  ⟨h.1, h.2.1.symm ▸ hnodup, h.2.2.symm ▸ hnodup⟩

namespace Acquirer

theorem claims_claimBatch (takeover : Takeover) (nodes : List String) :
    (claimBatch takeover nodes).Returns (Claims nodes) := by
  induction nodes with
  | nil => exact ⟨rfl, rfl, rfl⟩
  | cons node nodes ih =>
    intro now
    change (Prog.bind (claimBatch takeover nodes) _).Returns _
    refine Prog.Returns.bind ih fun rest hrest => ?_
    obtain ⟨hupdated, hclaimed, hraised⟩ := hrest
    exact ⟨hupdated, congrArg (node :: ·) hclaimed, congrArg (node :: ·) hraised⟩

theorem locking_claimBatch (takeover : Takeover) (nodes : List String) :
    (claimBatch takeover nodes).Only Request.Locking := by
  induction nodes with
  | nil => trivial
  | cons node nodes ih =>
    exact Prog.Only.bind (only_memory trivial) fun _ => Prog.Only.bind ih fun _ => trivial

theorem locking_judgeEach (id : Nat) (owner : String) (stale : Int)
    (leases : List (Nat × Option LeaseItem)) :
    (judgeEach id owner stale leases).Only Request.Locking := by
  induction leases with
  | nil => trivial
  | cons pair rest ih =>
    obtain ⟨leaseId, item⟩ := pair
    refine Prog.Only.bind (only_memory trivial) fun now => Prog.Only.ite ih ?_
    refine Prog.Only.bind ?_ fun judged => ?_
    · cases item with
      | none => trivial
      | some lease =>
        refine Prog.Only.ite trivial (Prog.Only.ite trivial ?_)
        refine Prog.Only.bind (only_send trivial) fun answer => ?_
        cases answer <;> trivial
    · cases judged with
      | some lease => exact Prog.Only.bind ih fun _ => trivial
      | none => exact Prog.Only.bind (only_memory trivial) fun _ => ih

theorem locking_allowEach (id : Nat) (live : List (Nat × LeaseItem))
    (rows : List (String × LockRow)) : (allowEach id live rows).Only Request.Locking := by
  induction rows with
  | nil => trivial
  | cons pair rows ih =>
    unfold allowEach
    dsimp only
    split
    · exact ih
    · exact Prog.Only.bind (only_memory trivial) fun _ => ih

theorem locking_judgeHolders (nodes : List String) :
    (judgeHolders ctx takeover nodes).Only Request.Locking := by
  refine Prog.Only.bind (Prog.Only.bind (only_parallel trivial fun _ _ => only_send trivial)
    fun _ => trivial) fun rows => ?_
  refine Prog.Only.bind (only_memory trivial) fun now => ?_
  refine Prog.Only.bind (Prog.Only.bind (only_parallel trivial fun _ _ => only_send trivial)
    fun _ => trivial) fun leases => ?_
  exact Prog.Only.bind (locking_judgeEach _ _ _ _) fun live =>
    Prog.Only.bind (locking_allowEach _ _ _) fun _ => trivial

theorem locking_takeChunk {batch : List String} (hnodup : batch.Nodup) :
    (takeChunk ctx takeover batch).Only Request.Locking := by
  suffices hupTo : ∀ attempts budget,
      (takeChunkUpTo ctx takeover batch attempts budget).Only Request.Locking from hupTo _ _
  intro attempts
  induction attempts with
  | zero => exact fun _ => trivial
  | succ attempts ih =>
    intro budget
    have hspent : Prog.Only Request.Locking (pure (some .lockContended) : Backend (Option Error)) :=
      trivial
    refine Prog.Only.ite hspent ?_
    refine Prog.Only.bind_of (locking_claimBatch takeover batch) (claims_claimBatch takeover batch)
      fun items hitems => ?_
    refine Prog.Only.bind (Prog.Only.outcome (only_transact (hitems.locking hnodup) _)) fun answer => ?_
    dsimp only
    split
    · trivial
    · trivial
    · trivial
    · split
      · exact Prog.Only.bind (Prog.Only.bind (Prog.Only.bind (only_send trivial) fun _ => trivial)
          fun _ => trivial) fun _ => trivial
      · refine Prog.Only.bind (locking_judgeHolders _) fun blocked => ?_
        cases blocked with
        | some blocked => trivial
        | none => exact ih _

theorem locking_take {batch : List String} (hnodup : batch.Nodup) :
    (take ctx takeover batch).Only Request.Locking := by
  refine Prog.Only.bind (only_memory trivial) fun now => Prog.Only.ite trivial ?_
  refine Prog.Only.bind (Prog.Only.outcome (locking_takeChunk hnodup)) fun outcome => ?_
  match outcome with
  | .error error => exact Prog.Only.bind (only_memory trivial) fun _ => trivial
  | .ok (some refusal) => exact Prog.Only.bind (only_memory trivial) fun _ => trivial
  | .ok none => trivial

theorem locking_runChunks {batches : List (List String)} (hnodup : ∀ batch ∈ batches, batch.Nodup) :
    (runChunks ctx takeover batches).Only Request.Locking := by
  refine ⟨trivial, fun schedule => Prog.Only.weave_bind (fun program hmem => ?_) fun left hleft => ?_⟩
  · obtain ⟨batch, hbatch, rfl⟩ := List.mem_map.mp hmem
    exact locking_take (hnodup batch hbatch)
  · refine Prog.Only.sequence fun program hmem => ?_
    obtain ⟨rest, hrest, rfl⟩ := List.mem_map.mp hmem
    exact Prog.Only.outcome (hleft rest hrest)

theorem locking_dropGrant (owner : String) (grant : Grant) (nodes : List String) :
    (LeaseItems.dropGrant owner grant nodes).Only Request.Locking :=
  Prog.Only.bind (only_send trivial) fun _ =>
    Prog.Only.bind (only_parallel trivial fun _ _ => only_send trivial) fun _ => trivial

theorem locking_claim (scope : List String) :
    (claim ctx takeover scope).Only Request.Locking := by
  refine Prog.Only.bind (locking_runChunks fun batch hbatch => ?_) fun outcomes => ?_
  · exact (sublist_of_mem_batched hbatch).nodup (nodup_sortedSet scope)
  dsimp only
  split
  · trivial
  · refine Prog.Only.bind (Prog.Only.outcome (locking_dropGrant _ _ _)) fun _ => ?_
    split <;> trivial

end Acquirer

namespace LockTable

theorem locking_nextFence (above : Nat) : (Fences.nextFence above).Only Request.Locking :=
  Prog.Only.bind (only_send Nat.one_pos) fun _ =>
    Prog.Only.ite (only_send (Nat.succ_pos _)) trivial

/-- A new lease, once the snapshot is there. -/
theorem locking_claimScope (owner : String) (ttl : Int) (scope : List String) (renewing : Bool)
    (now : Int) (snap : Snapshot) : Prog.Only Request.Locking (do
      let fence ← Fences.nextFence snap.doc.maxFence
      let leaseId : Nat ← send (.putLease owner fence (now + ttl))
      let grant : Grant := ⟨leaseId, fence⟩
      let takeover : Takeover := { owner, grant, now }
      memory (.openTakeover takeover)
      match ← Acquirer.claim ctx takeover scope with
      | some refusal => pure (.error refusal)
      | none =>
        memory (.grantScope owner grant scope)
        if renewing then pure () else memory .resetViews
        pure (.ok { owner, expiresAt := now + ttl, scope, fence }) : Backend (Except Error Lease)) := by
  refine Prog.Only.bind (locking_nextFence _) fun fence => ?_
  refine Prog.Only.bind (only_send trivial) fun leaseId => ?_
  refine Prog.Only.bind (only_memory trivial) fun _ => ?_
  refine Prog.Only.bind (Acquirer.locking_claim scope) fun refusal => ?_
  cases refusal with
  | some refusal => trivial
  | none =>
    refine Prog.Only.bind (only_memory trivial) fun _ => ?_
    cases renewing with
    | true => trivial
    | false => exact Prog.Only.bind (only_memory trivial) fun _ => trivial

/-- A new lease only needs the snapshot to be there. -/
theorem locking_takeScope (owner : String) (ttl : Int) (scope : List String) (renewing : Bool) :
    (takeScope ctx owner ttl scope renewing).Only fun request =>
      request.Journal ∨ request.Locking := by
  refine Prog.Only.bind (only_memory (.inr trivial)) fun now => ?_
  refine Prog.Only.ite trivial ?_
  refine Prog.Only.bind ((journal_of_reading Snapshots.reading_ensure).mono fun _ => Or.inl) fun snap => ?_
  exact (locking_claimScope owner ttl scope renewing now snap).mono fun _ => Or.inr

theorem locking_renewable (owner : String) (scope : List String) :
    (renewable owner scope).Only Request.Locking :=
  Prog.Only.bind (only_memory trivial) fun _ => Prog.Only.bind (only_memory trivial) fun _ => trivial

theorem locking_extend (owner : String) (grant : Grant) (expires : Int) (scope : List String) :
    (extend owner grant expires scope).Only Request.Locking := by
  refine Prog.Only.bind (only_send trivial) fun answer => ?_
  match answer with
  | .applied => trivial
  | .refused (some old) => trivial
  | .refused none => trivial

theorem locking_renew (owner : String) (ttl : Int) (scope : List String) :
    (renew ctx owner ttl scope).Only fun request => request.Journal ∨ request.Locking := by
  refine Prog.Only.bind ((locking_renewable owner scope).mono fun _ => Or.inr) fun found => ?_
  cases found with
  | none => exact locking_takeScope owner ttl scope true
  | some grant =>
    exact Prog.Only.bind (only_memory (.inr trivial)) fun _ =>
      (locking_extend owner grant _ scope).mono fun _ => Or.inr

theorem locking_release (owner : String) : (release owner).Only Request.Locking := by
  refine Prog.Only.bind (only_memory trivial) fun popped => ?_
  refine Prog.Only.bind ?_ fun kept => ?_
  · generalize popped.1 = grants
    induction grants with
    | nil => trivial
    | cons grant grants ih =>
      exact Prog.Only.bind (Prog.Only.outcome (only_send trivial)) fun _ =>
        Prog.Only.bind ih fun _ => trivial
  · refine Prog.Only.bind (only_parallel trivial fun _ _ => Prog.Only.outcome (only_send trivial))
      fun failed => ?_
    exact Prog.Only.ite trivial (Prog.Only.bind (only_memory trivial) fun _ => trivial)

theorem locking_forceUnlock (nodes : List String) : (forceUnlock nodes).Only Request.Locking :=
  Prog.Only.bind (only_parallel trivial fun _ _ => only_send trivial) fun _ => trivial

end LockTable

/-- Every call asks only for what its half of the protocol does. -/
theorem only_program (ctx : S3Context) (call : Call) :
    (call.program ctx).Only fun request => request.Journal ∨ request.Locking := by
  have hjournal : ∀ {α : Type} {program : Backend α} (result : α → Result),
      program.Only Request.Journal →
      (program.bind fun value => .ret (result value)).Only fun request =>
        request.Journal ∨ request.Locking := fun result h =>
    Prog.Only.bind (h.mono fun _ => Or.inl) fun _ => trivial
  have hlocking : ∀ {α : Type} {program : Backend α} (result : α → Result),
      program.Only Request.Locking →
      (program.bind fun value => .ret (result value)).Only fun request =>
        request.Journal ∨ request.Locking := fun result h =>
    Prog.Only.bind (h.mono fun _ => Or.inr) fun _ => trivial
  cases call with
  | read => exact hjournal _ (journal_of_reading Reads.reading_cut)
  | load => exact hjournal _ (journal_of_reading Views.reading_ensure)
  | put node => exact hjournal _ (Writes.journal_writeNode _ _)
  | delete node => exact hjournal _ (Writes.journal_writeNode _ _)
  | replaceMany deleteIds nodes => exact hjournal _ (Writes.journal_replaceMany _ _)
  | setOutputs outputs remove => exact hjournal _ (OutputWrites.journal_setOutputs _ _)
  | compact => exact hjournal _ Maintenance.journal_compact
  | acquire owner ttl scope =>
    exact Prog.Only.bind (LockTable.locking_takeScope owner ttl scope false) fun _ => trivial
  | renew owner ttl scope =>
    exact Prog.Only.bind (LockTable.locking_renew owner ttl scope) fun _ => trivial
  | release owner => exact hlocking _ (LockTable.locking_release owner)
  | forceUnlock nodes => exact hlocking _ (LockTable.locking_forceUnlock nodes)

end Atlantide
