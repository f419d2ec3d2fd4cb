import Atlantide.State.S3.Safety

/-! # A failed acquire undoes itself

An acquire whose chunks failed deletes its lease item, then the rows it may have written. A lease id
is drawn once and its item never changes owner, so the delete takes effect, and whatever the other
tasks do the item stays gone: a row that points at it holds nothing. Nothing else is needed of the
others, so the rely is what every request keeps to.

The source logs how the cleanup went and answers without it. Here a program also reports it; with
the reports forgotten the runs are the backends' own. -/

namespace Atlantide

open Interleaving

/-! ## Reports -/

theorem bind_bind_congr {α β γ δ : Type} {program : Backend α} {next : α → Backend β}
    {next' : α → Backend γ} {last : β → Backend δ} {last' : γ → Backend δ}
    (hnext : ∀ value, (next value).bind last = (next' value).bind last') :
    (program.bind next).bind last = (program.bind next').bind last' := by
  rw [Prog.bind_assoc, Prog.bind_assoc]
  exact congrArg program.bind (funext hnext)

namespace Acquirer

/-- How an acquire's chunks went: the answer, and how the cleanup went if there was one. -/
structure Report where
  answer : Except Error (Option Error)
  cleanup : Option (Except Error Unit) := none

def Report.forget (report : Report) : Backend (Option Error) :=
  match report.answer with
  | .ok refusal => .ret refusal
  | .error error => .raise error

/-- `takeChunks`, with its report. -/
def takeChunksReported (ctx : S3Context) (takeover : Takeover) (batches : List (List String)) :
    Backend Report := do
  let outcomes ← runChunks ctx takeover batches
  let errors := outcomes.filterMap errorOf
  let refusals := outcomes.filterMap refusalOf
  match errors, refusals with
  | [], [] => pure { answer := .ok none }
  | errors, refusals =>
    let written := ((batches.zip outcomes).filter fun (_, outcome) => mayHaveWritten outcome).flatMap
      Prod.fst
    let cleanup ← (LeaseItems.dropGrant takeover.owner takeover.grant written).outcome (δ := Error)
    pure { cleanup := some cleanup
           answer := match errors with
             | error :: _ => .error error
             | [] => .ok refusals.head? }

theorem takeChunks_eq (ctx : S3Context) (takeover : Takeover) (batches : List (List String)) :
    takeChunks ctx takeover batches =
      (takeChunksReported ctx takeover batches).bind Report.forget := by
  unfold takeChunks takeChunksReported
  simp only [Prog.bind_eq, Prog.bind_assoc]
  congr 1
  funext outcomes
  cases outcomes.filterMap errorOf with
  | nil =>
    cases outcomes.filterMap refusalOf with
    | nil => rfl
    | cons refusal refusals =>
      simp only [Prog.bind_assoc]
      rfl
  | cons error errors =>
    simp only [Prog.bind_assoc]
    rfl

def claimReported (ctx : S3Context) (takeover : Takeover) (scope : List String) : Backend Report :=
  takeChunksReported ctx takeover (batched (max 1 (limits.transactMax / 2)) (sortedSet scope))

theorem claim_eq (ctx : S3Context) (takeover : Takeover) (scope : List String) :
    claim ctx takeover scope = (claimReported ctx takeover scope).bind Report.forget :=
  takeChunks_eq ctx takeover _

end Acquirer

/-- How a call went: the answer, and for an acquire that undid itself the lease it had written and
how its cleanup went. -/
structure CallReport where
  answer : Except Error Result
  undone : Option (Grant × Except Error Unit) := none

/-- The call reports a failure. -/
def CallReport.Failed (report : CallReport) : Prop :=
  match report.answer with
  | .error _ | .ok (.lease (.error _)) => True
  | _ => False

def CallReport.forget (report : CallReport) : Backend Result :=
  match report.answer with
  | .ok result => .ret result
  | .error error => .raise error

namespace LockTable

/-- `takeScope`, with its report. -/
def takeScopeReported (ctx : S3Context) (owner : String) (ttl : Int) (scope : List String)
    (renewing : Bool) : Backend CallReport := do
  let now : Int ← memory .clock
  let expires := now + ttl
  if scope = [] then pure { answer := .ok (.lease (.ok { owner, expiresAt := expires })) }
  else
    let snap ← Snapshots.ensure
    let fence ← Fences.nextFence snap.doc.maxFence
    let leaseId : Nat ← send (.putLease owner fence expires)
    let grant : Grant := ⟨leaseId, fence⟩
    let takeover : Takeover := { owner, grant, now }
    memory (.openTakeover takeover)
    let report ← Acquirer.claimReported ctx takeover scope
    let undone := report.cleanup.map fun cleanup => (grant, cleanup)
    match report.answer with
    | .error error => pure { answer := .error error, undone }
    | .ok (some refusal) => pure { answer := .ok (.lease (.error refusal)), undone }
    | .ok none =>
      memory (.grantScope owner grant scope)
      if renewing then pure () else memory .resetViews
      pure { answer := .ok (.lease (.ok { owner, expiresAt := expires, scope, fence })), undone }

theorem takeScope_eq (ctx : S3Context) (owner : String) (ttl : Int) (scope : List String)
    (renewing : Bool) :
    (takeScope ctx owner ttl scope renewing).bind (fun lease => .ret (.lease lease)) =
      (takeScopeReported ctx owner ttl scope renewing).bind CallReport.forget := by
  refine bind_bind_congr fun now => ?_
  by_cases hscope : scope = []
  · simp only [if_pos hscope]
    rfl
  simp only [if_neg hscope]
  refine bind_bind_congr fun snap => bind_bind_congr fun fence => bind_bind_congr fun leaseId =>
    bind_bind_congr fun _ => ?_
  dsimp only [Prog.bind_eq]
  rw [Acquirer.claim_eq, Prog.bind_assoc]
  refine bind_bind_congr fun report => ?_
  obtain ⟨answer, cleanup⟩ := report
  match answer with
  | .error error => rfl
  | .ok (some refusal) => rfl
  | .ok none =>
    cases renewing with
    | true => rfl
    | false => rfl

end LockTable

/-- The call's program, with its report. -/
def Call.reported (ctx : S3Context) : Call → Backend CallReport
  | acquire owner ttl scope => LockTable.takeScopeReported ctx owner ttl scope false
  | renew owner ttl scope => do
    match ← LockTable.renewable owner scope with
    | none => LockTable.takeScopeReported ctx owner ttl scope true
    | some grant =>
      let now : Int ← memory .clock
      let lease ← LockTable.extend owner grant (now + ttl) scope
      pure { answer := .ok (.lease lease) }
  | call => do
    let result ← call.program ctx
    pure { answer := .ok result }

theorem Call.program_eq (ctx : S3Context) (call : Call) :
    call.program ctx = (call.reported ctx).bind CallReport.forget := by
  have hplain : ∀ program : Backend Result,
      program = (program.bind fun result => .ret { answer := .ok result }).bind CallReport.forget := by
    intro program
    induction program with
    | ret result => rfl
    | raise error => rfl
    | ask request next ih => exact congrArg (Prog.ask request) (funext ih)
  cases call with
  | acquire owner ttl scope => exact LockTable.takeScope_eq ctx owner ttl scope false
  | renew owner ttl scope =>
    refine bind_bind_congr fun found => ?_
    cases found with
    | none => exact LockTable.takeScope_eq ctx owner ttl scope true
    | some grant =>
      refine bind_bind_congr fun now => ?_
      exact (Prog.bind_assoc _ (fun lease => .ret { answer := .ok (.lease lease) })
        CallReport.forget).symm
  | _ => exact hplain _

/-- The backends, whose calls report how their cleanups went. -/
def reporting (ctx : S3Context) :
    System Tid Choice World Request Request.Reply Surroundings Call Error CallReport where
  serve := World.serve
  env := World.env
  program tid call :=
    if tid.thread = 0 ∨ call.shared then call.reported ctx else .raise .keptMoving

abbrev Reporting := System.Config Tid World Request Request.Reply Call Error CallReport

/-- The backends' state, once the reports are forgotten. -/
def Reporting.forget (config : Reporting) : Backends where
  world := config.world
  tasks tid := (config.tasks tid).map fun task => ⟨task.call, task.program.bind CallReport.forget⟩

theorem reporting_program (ctx : S3Context) (tid : Tid) (call : Call) :
    (backends ctx).program tid call = ((reporting ctx).program tid call).bind CallReport.forget := by
  simp only [backends, reporting]
  split
  · exact Call.program_eq ctx call
  · rfl

/-! ## Lease items -/

/-- No new lease item takes an id that was drawn, and none that stands changes owner or is freed of
a revocation. -/
def LeasesKept (store store' : Store) : Prop :=
  ∀ leaseId, leaseId < store.minted → leaseId < store'.minted ∧
    ∀ lease', store'.leases[leaseId]? = some lease' →
      ∃ lease, store.leases[leaseId]? = some lease ∧ lease'.owner = lease.owner ∧
        (lease.revoked = true → lease'.revoked = true)

namespace LeasesKept

theorem refl (store : Store) : LeasesKept store store :=
  fun _ hdrawn => ⟨hdrawn, fun lease hlease => ⟨lease, hlease, rfl, id⟩⟩

theorem trans {first second third : Store} (hfirst : LeasesKept first second)
    (hsecond : LeasesKept second third) : LeasesKept first third := by
  intro leaseId hdrawn
  obtain ⟨hdrawn', hbefore⟩ := hfirst leaseId hdrawn
  obtain ⟨hdrawn'', hlater⟩ := hsecond leaseId hdrawn'
  refine ⟨hdrawn'', fun lease'' hlease'' => ?_⟩
  obtain ⟨lease', hlease', howner', hrevoked'⟩ := hlater lease'' hlease''
  obtain ⟨lease, hlease, howner, hrevoked⟩ := hbefore lease' hlease'
  exact ⟨lease, hlease, howner'.trans howner, hrevoked' ∘ hrevoked⟩

theorem of_same {store store' : Store} (hleases : store'.leases = store.leases)
    (hminted : store.minted ≤ store'.minted) : LeasesKept store store' := by
  intro leaseId hdrawn
  refine ⟨by omega, fun lease hlease => ⟨lease, ?_, rfl, id⟩⟩
  exact hleases ▸ hlease

/-- A lease item that stands may be written again, by the same owner. -/
theorem insert {store : Store} {leaseId : Nat} {lease lease' : LeaseItem}
    (hlease : store.leases[leaseId]? = some lease) (howner : lease'.owner = lease.owner)
    (hrevoked : lease.revoked = true → lease'.revoked = true) :
    LeasesKept store { store with leases := store.leases.insert leaseId lease' } := by
  intro other hdrawn
  refine ⟨hdrawn, fun found hfound => ?_⟩
  by_cases hsame : leaseId = other
  · subst hsame
    rw [Std.ExtTreeMap.getElem?_insert_self, Option.some.injEq] at hfound
    exact ⟨lease, hlease, hfound ▸ howner, hfound ▸ hrevoked⟩
  · rw [Std.ExtTreeMap.getElem?_insert, if_neg fun h => hsame (Nat.compare_eq_eq.mp h)] at hfound
    exact ⟨found, hfound, rfl, id⟩

theorem erase (store : Store) (leaseId : Nat) :
    LeasesKept store { store with leases := store.leases.erase leaseId } := by
  intro other hdrawn
  refine ⟨hdrawn, fun found hfound => ?_⟩
  rw [Std.ExtTreeMap.getElem?_erase] at hfound
  split at hfound
  · cases hfound
  · exact ⟨found, hfound, rfl, id⟩

theorem put (store : Store) (lease : LeaseItem) :
    LeasesKept store
      { store with
        leases := store.leases.insert store.minted lease
        minted := store.minted + 1 } := by
  intro other hdrawn
  refine ⟨Nat.lt_succ_of_lt hdrawn, fun found hfound => ?_⟩
  have hne : store.minted ≠ other := by omega
  rw [Std.ExtTreeMap.getElem?_insert, if_neg fun h => hne (Nat.compare_eq_eq.mp h)] at hfound
  exact ⟨found, hfound, rfl, id⟩

end LeasesKept

theorem Store.leases_applyItems (items : List TransactItem) (store : Store) :
    (Store.applyItems items store).1.leases = store.leases ∧
      (Store.applyItems items store).1.minted = store.minted := by
  induction items generalizing store with
  | nil => exact ⟨rfl, rfl⟩
  | cons item items ih =>
    obtain ⟨hleases, hminted⟩ := ih (store.applyItem item)
    refine ⟨hleases.trans ?_, hminted.trans ?_⟩
    · cases item <;> rfl
    · cases item <;> rfl

theorem Store.serve_leasesKept (store : Store) (request : AwsRequest) :
    LeasesKept store (store.serve request).2.1 := by
  cases request with
  | putLease owner fence expires => exact .put store _
  | extendLease leaseId owner fence expires =>
    simp only [Store.serve]
    split
    next lease hlease =>
      split
      · exact .insert hlease rfl id
      · exact .refl store
    next => exact .refl store
  | revokeLease leaseId owner stale =>
    simp only [Store.serve]
    split
    next lease hlease =>
      split
      · exact .insert hlease rfl fun _ => rfl
      · exact .refl store
    next => exact .refl store
  | deleteLease leaseId owner =>
    simp only [Store.serve]
    split
    next lease hlease =>
      split
      · exact .erase store leaseId
      · exact .refl store
    next => exact .refl store
  | transact items =>
    simp only [Store.serve]
    split
    · obtain ⟨hleases, hminted⟩ := Store.leases_applyItems items store
      exact .of_same hleases (Nat.le_of_eq hminted.symm)
    · exact .refl store
  | putSnapshot doc ifMatch writes =>
    simp only [Store.serve]
    split
    · exact .of_same rfl (Nat.le_succ _)
    · exact .refl store
  | putEntry entry => exact .of_same rfl (Nat.le_succ _)
  | updateHead | deleteRow =>
    simp only [Store.serve]
    repeat' split
    all_goals exact .of_same rfl (Nat.le_refl _)
  | _ => exact .of_same rfl (Nat.le_refl _)

theorem World.serve_leasesKept (world : World) (tid : Tid) (choice : Choice) (request : Request) :
    LeasesKept world.store (world.serve tid choice request).2.store := by
  cases request with
  | aws request =>
    change LeasesKept world.store (world.serveAws tid choice request).2.store
    unfold World.serveAws
    cases choice.fate with
    | answered | lost => exact Store.serve_leasesKept world.store request
    | failed | transient => exact .refl _
  | uuid => exact .of_same rfl (Nat.le_succ _)
  | _ => exact .refl _

theorem World.env_leasesKept (world : World) (event : Surroundings) :
    LeasesKept world.store (world.env event).store := by
  cases event with
  | tick process amount => exact .refl _
  | bind process lease => exact .refl _

/-- The lease item, if it stands, is the owner's, and no other will take its id. -/
structure Store.Owned (store : Store) (leaseId : Nat) (owner : String) : Prop where
  drawn : leaseId < store.minted
  owner : ∀ lease, store.leases[leaseId]? = some lease → lease.owner = owner

/-- There is no such lease item, and none will take its id. -/
structure Store.Gone (store : Store) (leaseId : Nat) : Prop where
  drawn : leaseId < store.minted
  absent : store.leases[leaseId]? = none

theorem LeasesKept.owned {store store' : Store} {leaseId : Nat} {owner : String}
    (hkept : LeasesKept store store') (howned : store.Owned leaseId owner) :
    store'.Owned leaseId owner := by
  obtain ⟨hdrawn, hbefore⟩ := hkept leaseId howned.drawn
  refine ⟨hdrawn, fun lease' hlease' => ?_⟩
  obtain ⟨lease, hlease, hsame, -⟩ := hbefore lease' hlease'
  exact hsame.trans (howned.owner lease hlease)

theorem LeasesKept.gone {store store' : Store} {leaseId : Nat} (hkept : LeasesKept store store')
    (hgone : store.Gone leaseId) : store'.Gone leaseId := by
  obtain ⟨hdrawn, hbefore⟩ := hkept leaseId hgone.drawn
  refine ⟨hdrawn, Option.eq_none_iff_forall_ne_some.mpr fun lease' hlease' => ?_⟩
  obtain ⟨lease, hlease, -⟩ := hbefore lease' hlease'
  rw [hgone.absent] at hlease
  cases hlease

/-! ## Tasks -/

/-- A task of which nothing is asked, and which relies on no more than every request keeps to. -/
def unbound : Contract World Request where
  inv _ := True
  rely world world' := LeasesKept world.store world'.store
  legit _ _ := True

abbrev UnboundTask {α : Type} (tid : Tid) (program : Backend α) (world : World)
    (post : World → Except Error α → Prop) : Prop :=
  Safe (World.serve tid) unbound program world post

section

variable {α β : Type} {tid : Tid} {world : World}

theorem UnboundTask.any (program : Backend α) :
    UnboundTask tid program world fun _ _ => True :=
  Safe.of_only (.any program) fun _ _ _ _ => trivial

theorem UnboundTask.kept {program : Backend α} {post : World → Except Error α → Prop}
    (hsafe : UnboundTask tid program world post) :
    UnboundTask tid program world fun world' outcome =>
      LeasesKept world.store world'.store ∧ post world' outcome := by
  have hwithin := Safe.within hsafe (fun world world' => LeasesKept world.store world'.store)
    (fun world => .refl world.store) (fun _ _ _ => LeasesKept.trans) (fun _ _ hrely => hrely)
    (fun choice world request _ _ _ => world.serve_leasesKept tid choice request) trivial
  exact hwithin.mono fun world' outcome h => ⟨h.1, h.2.2⟩

/-- A task goes on from where its first part ended. -/
theorem UnboundTask.andThen {program : Backend α} {next : α → Backend β}
    {middle : World → Except Error α → Prop} {post : World → Except Error β → Prop}
    (hsafe : UnboundTask tid program world middle)
    (hnext : ∀ world' value, LeasesKept world.store world'.store → middle world' (.ok value) →
      UnboundTask tid (next value) world' post)
    (herror : ∀ world' error, post world' (.error error)) :
    UnboundTask tid (program.bind next) world post := by
  refine Safe.bind (Safe.mono hsafe.kept ?_)
  rintro world' (error | value) ⟨hkept, hmiddle⟩
  · exact herror world' error
  · exact hnext world' value hkept hmiddle

/-- A request made until it is answered, from a world of which `stable` stays true. -/
theorem unbound_send {request : AwsRequest} {stable : World → Prop}
    {goal : World → request.Payload → Prop} (hstart : stable world)
    (hstable : ∀ world world', LeasesKept world.store world'.store → stable world → stable world')
    (hgoal : ∀ world choice payload, stable world →
      (world.serve tid choice (.aws request)).1 = some payload →
      goal (world.serve tid choice (.aws request)).2 payload) :
    UnboundTask tid (send request) world (onOk goal) := by
  unfold send
  generalize limits.maxAttempts = attempts
  induction attempts generalizing world with
  | zero => trivial
  | succ attempts ih =>
    intro world' hrely _
    refine ⟨trivial, fun choice _ => ?_⟩
    have hnow := hstable _ _ hrely hstart
    cases hreply : (world'.serve tid choice (.aws request)).1 with
    | some payload => exact hgoal world' choice payload hnow hreply
    | none => exact ih (hstable _ _ (world'.serve_leasesKept tid choice _) hnow)

end

namespace LeaseItems

/-- A lease item that was written is its owner's from then on. -/
theorem unbound_putLease {tid : Tid} {world : World} (owner : String) (fence : Nat)
    (expires : Int) :
    UnboundTask tid (send (.putLease owner fence expires)) world
      (onOk fun world' (leaseId : Nat) => world'.store.Owned leaseId owner) := by
  refine @unbound_send tid world _ (fun _ => True) _ trivial (fun _ _ _ _ => trivial) ?_
  intro before choice payload _ hreply
  have hput : (before.after tid (.putLease owner fence expires)).store.Owned before.store.minted
      owner := by
    refine ⟨Nat.lt_succ_self _, fun lease hlease => ?_⟩
    change (before.store.leases.insert before.store.minted _)[before.store.minted]? = _ at hlease
    rw [Std.ExtTreeMap.getElem?_insert_self, Option.some.injEq] at hlease
    exact hlease ▸ rfl
  change (before.serveAws tid choice _).1 = some payload at hreply
  change (before.serveAws tid choice _).2.store.Owned payload owner
  unfold World.serveAws at hreply ⊢
  cases hfate : choice.fate with
  | answered | lost =>
    rw [hfate] at hreply
    cases hreply
    exact hput
  | failed | transient =>
    rw [hfate] at hreply
    cases hreply

/-- Once its delete was answered an owner's lease item is gone. -/
theorem unbound_deleteLease {tid : Tid} {world : World} {grant : Grant} {owner : String}
    (howned : world.store.Owned grant.leaseId owner) :
    UnboundTask tid (deleteLease grant owner) world
      (onOk fun world' _ => world'.store.Gone grant.leaseId) := by
  refine @unbound_send tid world _ (fun world => world.store.Owned grant.leaseId owner) _ howned
    (fun _ _ hkept => hkept.owned) ?_
  intro before choice payload hbefore hreply
  have hdeleted : (before.store.serve (.deleteLease grant.leaseId owner)).2.1.Gone
      grant.leaseId := by
    simp only [Store.serve]
    split
    next lease hlease =>
      rw [if_pos (hbefore.owner lease hlease)]
      exact ⟨hbefore.drawn, Std.ExtTreeMap.getElem?_erase_self⟩
    next hnone => exact ⟨hbefore.drawn, hnone⟩
  change (before.serveAws tid choice _).1 = some payload at hreply
  change (before.serveAws tid choice _).2.store.Gone grant.leaseId
  unfold World.serveAws at hreply ⊢
  cases hfate : choice.fate with
  | answered => exact hdeleted
  | lost | failed | transient =>
    rw [hfate] at hreply
    cases hreply

/-- A cleanup that completed has deleted the lease item. -/
theorem unbound_dropGrant {tid : Tid} {world : World} {grant : Grant} {owner : String}
    (nodes : List String) (howned : world.store.Owned grant.leaseId owner) :
    UnboundTask tid (dropGrant owner grant nodes) world
      (onOk fun world' _ => world'.store.Gone grant.leaseId) := by
  refine (unbound_deleteLease howned).andThen ?_ fun _ _ => trivial
  intro deleted _ _ hgone
  refine (UnboundTask.any _).andThen ?_ fun _ _ => trivial
  exact fun released _ hkept _ => hkept.gone hgone

end LeaseItems

/-- A cleanup that completed left no lease item. -/
def Cleaned (world : World) (undone : Option (Grant × Except Error Unit)) : Prop :=
  ∀ grant, undone = some (grant, .ok ()) → world.store.Gone grant.leaseId

namespace Acquirer

variable {ctx : S3Context} {tid : Tid} {world : World}

theorem unbound_takeChunks {takeover : Takeover} (batches : List (List String))
    (howned : world.store.Owned takeover.grant.leaseId takeover.owner) :
    UnboundTask tid (takeChunksReported ctx takeover batches) world
      (onOk fun world' report =>
        Cleaned world' (report.cleanup.map fun cleanup => (takeover.grant, cleanup)) ∧
        (report.answer = .ok none ∨ report.cleanup.isSome = true)) := by
  refine (UnboundTask.any _).andThen ?_ fun _ _ => trivial
  intro ran outcomes hkept _
  have hundo : ∀ answer written, UnboundTask tid
      ((LeaseItems.dropGrant takeover.owner takeover.grant written).outcome.bind fun cleanup =>
        .ret (α := Report) { cleanup := some cleanup, answer }) ran
      (onOk fun world' report =>
        Cleaned world' (report.cleanup.map fun cleanup => (takeover.grant, cleanup)) ∧
        (report.answer = .ok none ∨ report.cleanup.isSome = true)) := by
    intro answer written
    refine Safe.bind (Safe.outcome ((LeaseItems.unbound_dropGrant written (hkept.owned howned)).mono ?_))
    rintro cleaned (error | _) hgone
    · exact ⟨fun grant hundone => (nomatch hundone), .inr rfl⟩
    · refine ⟨fun grant hundone => ?_, .inr rfl⟩
      cases hundone
      exact hgone
  dsimp only
  split
  · exact ⟨fun _ hnone => (nomatch hnone), .inl rfl⟩
  · exact hundo _ _

end Acquirer

namespace LockTable

variable {ctx : S3Context} {tid : Tid} {world : World}

theorem unbound_takeScope (owner : String) (ttl : Int) (scope : List String) (renewing : Bool) :
    UnboundTask tid (takeScopeReported ctx owner ttl scope renewing) world
      (onOk fun world' report =>
        Cleaned world' report.undone ∧ (report.Failed → report.undone.isSome = true)) := by
  refine (UnboundTask.any _).andThen ?_ fun _ _ => trivial
  intro atClock now _ _
  by_cases hscope : scope = []
  · simp only [if_pos hscope]
    exact ⟨fun _ hnone => (nomatch hnone), False.elim⟩
  simp only [if_neg hscope]
  refine (UnboundTask.any _).andThen ?_ fun _ _ => trivial
  intro opened snap _ _
  refine (UnboundTask.any _).andThen ?_ fun _ _ => trivial
  intro minted fence _ _
  refine (LeaseItems.unbound_putLease owner fence (now + ttl)).andThen ?_ fun _ _ => trivial
  intro leased leaseId _ howned
  refine (UnboundTask.any _).andThen ?_ fun _ _ => trivial
  intro noted _ hnoted _
  have hopen : noted.store.Owned leaseId owner := hnoted.owned howned
  refine UnboundTask.andThen (@Acquirer.unbound_takeChunks ctx tid noted
    { owner, grant := ⟨leaseId, fence⟩, now } _ hopen) ?_ fun _ _ => trivial
  rintro claimed ⟨answer, cleanup⟩ _ ⟨hcleaned, hsome⟩
  have hreported : answer ≠ .ok none →
      (cleanup.map fun cleanup => ((⟨leaseId, fence⟩ : Grant), cleanup)).isSome = true := by
    intro hfailed
    rw [Option.isSome_map]
    exact hsome.resolve_left hfailed
  match answer with
  | .error error => exact ⟨hcleaned, fun _ => hreported fun h => nomatch h⟩
  | .ok (some refusal) => exact ⟨hcleaned, fun _ => hreported fun h => nomatch h⟩
  | .ok none =>
    refine (UnboundTask.any _).andThen ?_ fun _ _ => trivial
    intro granted _ hgranted _
    cases renewing with
    | true => exact ⟨fun grant hundone => hgranted.gone (hcleaned grant hundone), False.elim⟩
    | false =>
      refine (UnboundTask.any _).andThen ?_ fun _ _ => trivial
      intro reset _ hreset _
      exact ⟨fun grant hundone => hreset.gone (hgranted.gone (hcleaned grant hundone)), False.elim⟩

end LockTable

/-! ## Runs -/

/-- What holds when a call ends: a cleanup that completed left no lease item, and an acquire that
failed once its item was written has been cleaned up after. -/
def CallReport.Holds (call : Call) (world : World) (report : CallReport) : Prop :=
  Cleaned world report.undone ∧
    ∀ owner ttl scope, call = .acquire owner ttl scope → report.Failed →
      report.undone.isSome = true

theorem unbound_reported (ctx : S3Context) (tid : Tid) (call : Call) (world : World) :
    UnboundTask tid ((reporting ctx).program tid call) world
      (onOk (CallReport.Holds call)) := by
  have hplain : ∀ {α : Type} (program : Backend α) (answer : α → Except Error Result),
      (∀ owner ttl scope, call ≠ .acquire owner ttl scope) →
      UnboundTask tid (program.bind fun value => .ret { answer := answer value }) world
        (onOk (CallReport.Holds call)) := by
    intro α program answer hother
    refine (UnboundTask.any program).andThen ?_ fun _ _ => trivial
    exact fun _ _ _ _ =>
      ⟨fun _ hnone => (nomatch hnone), fun owner ttl scope h => absurd h (hother owner ttl scope)⟩
  simp only [reporting]
  split
  · cases call with
    | acquire owner ttl scope =>
      refine (LockTable.unbound_takeScope owner ttl scope false).mono ?_
      rintro world' (error | report) hreport
      · trivial
      · exact ⟨hreport.1, fun _ _ _ _ => hreport.2⟩
    | renew owner ttl scope =>
      refine (UnboundTask.any _).andThen ?_ fun _ _ => trivial
      intro looked found _ _
      cases found with
      | none =>
        refine (LockTable.unbound_takeScope owner ttl scope true).mono ?_
        rintro world' (error | report) hreport
        · trivial
        · exact ⟨hreport.1, fun _ _ _ h => nomatch h⟩
      | some grant =>
        refine (UnboundTask.any _).andThen ?_ fun _ _ => trivial
        intro timed now _ _
        refine (UnboundTask.any _).andThen ?_ fun _ _ => trivial
        exact fun _ _ _ _ => ⟨fun _ hnone => (nomatch hnone), fun _ _ _ h => nomatch h⟩
    | _ => exact hplain _ _ fun _ _ _ h => nomatch h
  · trivial

theorem reporting_disciplined (ctx : S3Context) :
    System.Disciplined (reporting ctx) (fun _ => True)
      (fun _ world world' => LeasesKept world.store world'.store) (fun _ _ _ => True)
      (fun _ call => onOk (CallReport.Holds call)) where
  rely_refl _ world := .refl world.store
  rely_trans _ _ _ _ := LeasesKept.trans
  inv_env _ _ _ := trivial
  rely_env _ event world _ := world.env_leasesKept event
  inv_serve _ _ _ _ _ _ := trivial
  rely_serve _ tid choice world request _ _ _ := world.serve_leasesKept tid choice request
  start tid call world _ := unbound_reported ctx tid call world

theorem reporting_step_leasesKept {ctx : S3Context} {act : System.Act Tid Choice Surroundings Call}
    {config config' : Reporting} (hstep : (reporting ctx).step act config = some config') :
    LeasesKept config.world.store config'.world.store := by
  cases act with
  | start tid call =>
    simp only [System.step] at hstep
    split at hstep
    · cases hstep
    · cases hstep
      exact .refl _
  | serve tid choice =>
    simp only [System.step] at hstep
    split at hstep
    next call request next htask =>
      cases hstep
      exact config.world.serve_leasesKept tid choice request
    next => cases hstep
  | env event =>
    cases hstep
    exact config.world.env_leasesKept event

theorem reporting_run_leasesKept {ctx : S3Context}
    {acts : List (System.Act Tid Choice Surroundings Call)} {config config' : Reporting}
    (hrun : (reporting ctx).run acts config = some config') :
    LeasesKept config.world.store config'.world.store := by
  induction acts generalizing config with
  | nil =>
    cases hrun
    exact .refl _
  | cons act acts ih =>
    obtain ⟨middle, hstep, hrest⟩ := Option.bind_eq_some_iff.mp hrun
    exact (reporting_step_leasesKept hstep).trans (ih hrest)

theorem reporting_step_forget (ctx : S3Context) (act : System.Act Tid Choice Surroundings Call)
    (config : Reporting) :
    (backends ctx).step act config.forget =
      ((reporting ctx).step act config).map Reporting.forget := by
  cases act with
  | start tid call =>
    have hstarted : (⟨config.world, Function.update config.forget.tasks tid
          (some ⟨call, (backends ctx).program tid call⟩)⟩ : Backends) =
        Reporting.forget ⟨config.world, Function.update config.tasks tid
          (some ⟨call, (reporting ctx).program tid call⟩)⟩ := by
      refine congrArg (System.Config.mk config.world) (funext fun other => ?_)
      by_cases hsame : other = tid
      · subst hsame
        simp only [Function.update_self, Option.map_some, reporting_program]
      · simp only [Function.update_of_ne hsame, Reporting.forget]
    simp only [System.step]
    cases htask : config.tasks tid with
    | none =>
      simp only [Reporting.forget, htask, Option.map_none, Option.map_some]
      exact congrArg some hstarted
    | some task =>
      obtain ⟨call', program⟩ := task
      simp only [Reporting.forget, htask, Option.map_some]
      cases program with
      | ret report =>
        obtain ⟨answer, undone⟩ := report
        cases answer <;> exact congrArg some hstarted
      | raise error => exact congrArg some hstarted
      | ask request next => rfl
  | serve tid choice =>
    simp only [System.step]
    cases htask : config.tasks tid with
    | none => simp only [Reporting.forget, htask, Option.map_none]
    | some task =>
      obtain ⟨call, program⟩ := task
      simp only [Reporting.forget, htask, Option.map_some]
      cases program with
      | ret report =>
        obtain ⟨answer, undone⟩ := report
        cases answer <;> rfl
      | raise error => rfl
      | ask request next =>
        refine congrArg some (congrArg (System.Config.mk _) (funext fun other => ?_))
        by_cases hsame : other = tid
        · subst hsame
          simp only [Function.update_self, Option.map_some]
          rfl
        · simp only [Function.update_of_ne hsame]
  | env event => rfl

/-- **The reports change nothing of a run.** -/
theorem reporting_run_forget (ctx : S3Context)
    (acts : List (System.Act Tid Choice Surroundings Call)) (config : Reporting) :
    (backends ctx).run acts config.forget =
      ((reporting ctx).run acts config).map Reporting.forget := by
  induction acts generalizing config with
  | nil => rfl
  | cons act acts ih =>
    simp only [System.run, reporting_step_forget]
    cases (reporting ctx).step act config with
    | none => rfl
    | some middle => exact ih middle

/-! ## What a failed acquire leaves -/

/-- `LeaseItems.holds` on one row: its expiry is its lease item's, `0` once that is gone or revoked. -/
def Store.holdOf (store : Store) (row : LockRow) : Lease where
  owner := row.owner
  expiresAt := match store.leases[row.leaseId]? with
    | some lease => if lease.revoked then 0 else lease.expires
    | none => 0
  fence := row.fence

/-- There is no lease item, so a row that still points at it is reported as holding nothing, and any
run that judges it may take it. -/
structure Store.Undone (store : Store) (grant : Grant) : Prop where
  absent : store.leases[grant.leaseId]? = none
  unheld : ∀ (node : String) (row : LockRow), store.rows[node]? = some row → row.leaseId = grant.leaseId →
    (store.holdOf row).expiresAt = 0
  takeable : ∀ taker stale, Acquirer.judgeLease grant.leaseId store.leases[grant.leaseId]? taker
    stale = pure none

/-- Whenever and however it is served, rows that name another lease stay as they are. -/
def Request.KeepsOtherRows (leaseId : Nat) (request : Request) : Prop :=
  ∀ (world : World) (tid : Tid) (choice : Choice) (node : String) (row : LockRow),
    world.store.rows[node]? = some row → row.leaseId ≠ leaseId →
      (world.serve tid choice request).2.store.rows[node]? = some row

theorem Store.Gone.undone {store : Store} {grant : Grant} (hgone : store.Gone grant.leaseId) :
    store.Undone grant where
  absent := hgone.absent
  unheld node row _ hpoints := by
    simp only [Store.holdOf, hpoints, hgone.absent]
  takeable taker stale := by
    rw [hgone.absent]
    rfl

theorem Store.rows_deleteRow {store : Store} {node other owner : String} {leaseId : Nat}
    {row : LockRow} (hrow : store.rows[other]? = some row) (hother : row.leaseId ≠ leaseId) :
    (store.serve (.deleteRow node owner (some leaseId))).2.1.rows[other]? = some row := by
  simp only [Store.serve]
  split
  next found hfound =>
    split
    next hmatches =>
      have hne : node ≠ other := by
        intro hsame
        subst hsame
        rw [hfound, Option.some.injEq] at hrow
        subst hrow
        exact hother (by simpa using hmatches.2.symm : leaseId = found.leaseId).symm
      simpa [Std.ExtTreeMap.getElem?_erase, hne] using hrow
    next => exact hrow
  next => exact hrow

theorem Store.rows_deleteLease (store : Store) (leaseId : Nat) (owner : String) :
    (store.serve (.deleteLease leaseId owner)).2.1.rows = store.rows := by
  simp only [Store.serve]
  repeat' split
  all_goals rfl

theorem keepsOtherRows_of_store {leaseId : Nat} {request : AwsRequest}
    (hkeeps : ∀ (store : Store) (node : String) (row : LockRow), store.rows[node]? = some row →
      row.leaseId ≠ leaseId → (store.serve request).2.1.rows[node]? = some row) :
    Request.KeepsOtherRows leaseId (.aws request) := by
  intro world tid choice node row hrow hother
  change (world.serveAws tid choice request).2.store.rows[node]? = some row
  unfold World.serveAws
  cases choice.fate with
  | answered | lost => exact hkeeps world.store node row hrow hother
  | failed | transient => exact hrow

/-- The cleanup touches no row that names another lease. -/
theorem dropGrant_keepsOtherRows (owner : String) (grant : Grant) (nodes : List String) :
    (LeaseItems.dropGrant owner grant nodes).Only (Request.KeepsOtherRows grant.leaseId) := by
  have hschedule : Request.KeepsOtherRows grant.leaseId .schedule :=
    fun _ _ _ _ _ hrow _ => hrow
  refine Prog.Only.bind (only_send (keepsOtherRows_of_store ?_)) fun _ => ?_
  · intro store node row hrow _
    rw [Store.rows_deleteLease]
    exact hrow
  · refine Prog.Only.bind (only_parallel hschedule fun node _ => ?_) fun _ => trivial
    exact only_send (keepsOtherRows_of_store fun _ _ _ => Store.rows_deleteRow)

/-- **A failed acquire undoes itself.** Whatever the interleaving, an acquire that failed once its
lease item was written has been cleaned up after; if its cleanup's calls completed the item is gone
from then on, no row counts as held by it, and the cleanup changed no row that names another. -/
theorem failed_acquire_undone (ctx : S3Context)
    {acts : List (System.Act Tid Choice Surroundings Call)} {world : World} {config : Reporting}
    (hrun : (reporting ctx).run acts (System.initial world) = some config) {tid : Tid} {call : Call}
    {report : CallReport} (htask : config.tasks tid = some ⟨call, .ret report⟩) :
    (∀ owner ttl scope, call = .acquire owner ttl scope → report.Failed →
      report.undone.isSome = true) ∧
    ∀ grant, report.undone = some (grant, .ok ()) →
      (∀ later config', (reporting ctx).run later config = some config' →
        config'.world.store.Undone grant) ∧
      ∀ owner nodes,
        (LeaseItems.dropGrant owner grant nodes).Only (Request.KeepsOtherRows grant.leaseId) := by
  have hheld := (reporting_disciplined ctx).reachable trivial hrun
  obtain ⟨ended, hrely, hholds⟩ := hheld.2 tid _ htask
  obtain ⟨hcleaned, hreported⟩ : report.Holds call ended := hholds
  refine ⟨hreported, fun grant hundone => ⟨fun later config' hlater => ?_, fun owner nodes =>
    dropGrant_keepsOtherRows owner grant nodes⟩⟩
  have hgone : config.world.store.Gone grant.leaseId := hrely.gone (hcleaned grant hundone)
  exact ((reporting_run_leasesKept hlater).gone hgone).undone

/-- A second owner is refused the node that the first one holds. -/
def refusedAcquire : List (System.Act Tid Choice Surroundings Call) :=
  .start ⟨0, 0⟩ (.acquire "first" 60 ["net:vpc"]) :: served ⟨0, 0⟩ 13 ++
  .start ⟨1, 0⟩ (.acquire "second" 60 ["net:vpc"]) :: served ⟨1, 0⟩ 15

/-- The lease that the task's call wrote, failed to claim with, and cleaned up. -/
def undoneBy (tid : Tid) (config : Reporting) : Option Grant :=
  match config.tasks tid with
  | some ⟨_, .ret ⟨_, some (grant, .ok ())⟩⟩ => some grant
  | _ => none

theorem undoneBy_eq_some {tid : Tid} {config : Reporting} {grant : Grant}
    (hundone : undoneBy tid config = some grant) : ∃ call report,
      config.tasks tid = some ⟨call, .ret report⟩ ∧ report.undone = some (grant, .ok ()) := by
  unfold undoneBy at hundone
  split at hundone
  next htask =>
    cases hundone
    exact ⟨_, _, htask, rfl⟩
  next => cases hundone

theorem failed_acquire_undone_refused : ∃ config grant,
    (reporting {}).run refusedAcquire (System.initial {}) = some config ∧
      undoneBy ⟨1, 0⟩ config = some grant ∧ config.world.store.Undone grant := by
  have hruns : (((reporting {}).run refusedAcquire (System.initial {})).bind
      (undoneBy ⟨1, 0⟩)).isSome = true := by
    decide +kernel
  obtain ⟨grant, hgrant⟩ := Option.isSome_iff_exists.mp hruns
  obtain ⟨config, hrun, hundone⟩ := Option.bind_eq_some_iff.mp hgrant
  obtain ⟨call, report, htask, hreport⟩ := undoneBy_eq_some hundone
  have hleft := ((failed_acquire_undone {} hrun htask).2 grant hreport).1 [] config rfl
  exact ⟨config, grant, hrun, hundone, hleft⟩

end Atlantide
