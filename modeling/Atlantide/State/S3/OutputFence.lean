import Atlantide.State.S3.Fencing
import Atlantide.State.S3.ReadSafety

/-! # Output commits under an overtaken lease

Once a node's head was raised past a lease's fence it stays past it. From then on a call that commits
outputs of the node's stack under that lease finds so at the head: in its transaction, or before it
when the commit does not fit one. -/

namespace Atlantide

open Interleaving History

/-- The node's head is past the fence. -/
def Overtaken (store : Store) (node : String) (fence : Nat) : Prop :=
  ∃ recorded, (store.head ⟨.node, node⟩).fence = some recorded ∧ fence < recorded

/-- How requests are answered while the node's head is past the fence. -/
def AnsweredPast (node : String) (fence : Nat) : (request : Request) → request.Reply → Prop
  | .aws (.getHead item), reply =>
    item = ⟨.node, node⟩ → ∀ head, reply = some (some head) → head.fence ≠ some fence
  | .aws (.transact items), reply =>
    .checkFence node fence ∈ items → reply ≠ some .applied ∧
      ∀ failed, reply = some (.refused failed) →
        ∀ index, items[index]? = some (.checkFence node fence) → index ∈ failed
  | _, _ => True

/-- The request commits no outputs of the node's stack but beside a check of the node's head. -/
def Request.Spares (node : String) (fence : Nat) : Request → Prop
  | .aws (.updateHead update) => update.item ≠ ⟨.output, stackOf node⟩
  | .aws (.transact items) => .checkFence node fence ∈ items ∨
      ∀ update, .update update ∈ items → update.item ≠ ⟨.output, stackOf node⟩
  | _ => True

/-- What a program does while the node's head is past the fence. -/
abbrev MeetsPast {α : Type} (node : String) (fence : Nat) (program : Backend α) (goal : α → Prop) :
    Prop :=
  program.Meets (AnsweredPast node fence) (Request.Spares node fence) goal

variable {α : Type} {node : String} {fence : Nat}

theorem Request.Reading.spares {request : Request} (h : request.Reading) :
    request.Spares node fence := by
  match request, h with
  | .aws request, h => cases request <;> first | exact h.elim | trivial
  | .memory _, _ | .uuid, _ | .schedule, _ | .paging, _ => trivial

theorem MeetsPast.of_reading {program : Backend α} (h : program.Only Request.Reading) :
    MeetsPast node fence program fun _ => True :=
  .of_only (h.mono fun _ => Request.Reading.spares)

theorem meets_send {request : AwsRequest} {goal : request.Payload → Prop}
    (hasks : Request.Spares node fence (.aws request))
    (hgoal : ∀ payload, AnsweredPast node fence (.aws request) (some payload) → goal payload) :
    MeetsPast node fence (send request) goal := by
  unfold send
  generalize limits.maxAttempts = attempts
  induction attempts with
  | zero => trivial
  | succ attempts ih =>
    refine ⟨hasks, fun reply hreply => ?_⟩
    cases reply with
    | none => exact ih
    | some payload => exact hgoal payload hreply

theorem meets_parallel {T R : Type} {work : T → Backend R} {items : List T} (goal : T → R → Prop)
    (hwork : ∀ item ∈ items, MeetsPast node fence (work item) (goal item)) :
    MeetsPast node fence (parallel work items) fun values => values.length = items.length ∧
      ∀ (i : Nat) (item : T) (value : R), items[i]? = some item → values[i]? = some value →
        goal item value := by
  have hthreads : ∀ (i : Nat) (program : Backend R), (items.map work)[i]? = some program →
      MeetsPast node fence program fun value => ∀ item, items[i]? = some item → goal item value := by
    intro i program hprogram
    obtain ⟨item, hitem, rfl⟩ : ∃ item, items[i]? = some item ∧ work item = program := by
      simpa using hprogram
    refine (hwork item (List.mem_of_getElem? hitem)).mono fun value hvalue other hother => ?_
    obtain rfl := Option.some.inj (hitem.symm.trans hother)
    exact hvalue
  have hvalues : ∀ values : List R, (values.length = (items.map work).length ∧
      ∀ (i : Nat) (value : R), values[i]? = some value → ∀ item, items[i]? = some item →
        goal item value) → values.length = items.length ∧
      ∀ (i : Nat) (item : T) (value : R), items[i]? = some item → values[i]? = some value →
        goal item value := fun values h =>
    ⟨h.1.trans (List.length_map _), fun i item value hitem hvalue => h.2 i value hvalue item hitem⟩
  unfold parallel
  split
  · exact (Prog.Meets.sequence hthreads).mono hvalues
  · exact ⟨trivial, fun schedule _ => (Prog.Meets.join hthreads).mono hvalues⟩

namespace OutputWrites

theorem meets_transact {items : List TransactItem} (hcheck : .checkFence node fence ∈ items)
    (budget : Nat) :
    MeetsPast node fence (transact items budget) fun answer =>
      ∃ failed, answer.1 = some failed ∧
        ∀ index, items[index]? = some (.checkFence node fence) → index ∈ failed := by
  induction budget with
  | zero => trivial
  | succ budget ih =>
    refine ⟨.inl hcheck, fun reply hreply => ?_⟩
    obtain ⟨happlied, hrefused⟩ := hreply hcheck
    match reply with
    | none => trivial
    | some .applied => exact absurd rfl happlied
    | some (.refused failed) => exact ⟨failed, rfl, hrefused failed rfl⟩
    | some .transient => exact ih

/-- A refusal that names a check ends the call. -/
theorem meets_refusalFor {failed : List Nat} {changes : List StackChange} (fenced : List String)
    (lease : Lease) {index : Nat} (hindex : index ∈ failed) (hle : changes.length ≤ index) :
    MeetsPast node fence (refusalFor failed changes fenced (some lease)) fun _ => False := by
  obtain ⟨first, hfirst⟩ : ∃ first, failed.find? (changes.length ≤ ·) = some first :=
    Option.isSome_iff_exists.mp (List.find?_isSome.mpr ⟨index, hindex, by simpa using hle⟩)
  simp only [refusalFor, hfirst]
  have hread : MeetsPast node fence (Reads.getHead ⟨.node, fenced.getD (first - changes.length) ""⟩)
      fun _ => True := .of_only (Prog.Only.bind (only_send trivial) fun _ => trivial)
  exact hread.bind fun head _ => trivial

theorem meets_transactOutputs {updates : List TransactItem} {changes : List StackChange}
    {fenced : List String} {lease : Lease} (hlength : updates.length = changes.length)
    (hnode : node ∈ fenced) :
    MeetsPast node lease.fence (transactOutputs
        (updates ++ fenced.map fun node => .checkFence node lease.fence) changes fenced (some lease))
      fun _ => False := by
  obtain ⟨i, hi⟩ := List.mem_iff_getElem?.mp hnode
  have hcheck : (updates ++ fenced.map fun node => TransactItem.checkFence node lease.fence)[
      changes.length + i]? = some (.checkFence node lease.fence) := by
    rw [← hlength, List.getElem?_append_right (Nat.le_add_right _ _)]
    simp [hi]
  refine Prog.Meets.bind (meets_transact (List.mem_of_getElem? hcheck) _) fun answer hanswer => ?_
  obtain ⟨failed, hfailed, hindex⟩ := hanswer
  match answer, hfailed with
  | (some _, _), rfl =>
    exact meets_refusalFor fenced lease (hindex _ hcheck) (Nat.le_add_right _ _)

/-- The heads read show the node's past the fence. -/
theorem meets_readHeads (items : List Item) :
    MeetsPast node fence (Reads.readHeads items) fun heads =>
      (heads.getD ⟨.node, node⟩ {}).fence ≠ some fence := by
  refine Prog.Meets.bind (meets_parallel (fun item head =>
    item = ⟨.node, node⟩ → (head.getD {}).fence ≠ some fence) fun item _ =>
      meets_send trivial fun head hhead hitem => ?_) fun found hfound => ?_
  · cases head with
    | none => exact nofun
    | some head => exact hhead hitem head rfl
  · obtain ⟨hlength, hfound⟩ := hfound
    show ((Reads.foundHeads _ found ∅).getD _ {}).fence ≠ _
    rw [Std.ExtTreeMap.getD_eq_getD_getElem?]
    by_cases hmem : (⟨.node, node⟩ : Item) ∈ Reads.distinctItems items
    · obtain ⟨i, hi⟩ := List.mem_iff_getElem?.mp hmem
      obtain ⟨head, hhead⟩ : ∃ head, found[i]? = some head := by
        have hlt := (List.getElem?_eq_some_iff.mp hi).1
        exact ⟨_, List.getElem?_eq_getElem (by omega)⟩
      rw [Reads.foundHeads_of_mem (Reads.nodup_distinctItems items) hi hhead
        Std.ExtTreeMap.getElem?_empty]
      exact hfound i _ head hi hhead rfl
    · rw [Reads.foundHeads_of_not_mem hmem, Std.ExtTreeMap.getElem?_empty]
      exact nofun

theorem meets_precheckFences {fenced : List String} {lease : Lease} (hnode : node ∈ fenced) :
    MeetsPast node lease.fence (precheckFences fenced lease) fun _ => False := by
  refine Prog.Meets.bind (meets_readHeads _) fun heads hheads => ?_
  split
  next => trivial
  next hnone =>
    refine absurd (List.find?_eq_none.mp hnone node hnode) ?_
    simpa using hheads

/-- **A commit that has to check the node never ends well**, in one transaction or several. -/
theorem meets_commit (changes : List StackChange) {fenced : List String} (lease : Lease)
    (hnode : node ∈ fenced) :
    MeetsPast node lease.fence (commit changes fenced (some lease)) fun _ => False := by
  refine Prog.Meets.bind (meets_parallel (fun _ _ => True) fun change _ =>
    .of_only ((Writes.only_putEntry _).mono fun _ h => h ▸ trivial)) fun refs hrefs => ?_
  simp only
  split
  · refine Prog.Meets.bind (meets_transactOutputs ?_ hnode) fun _ h => h.elim
    simp [hrefs.1]
  · exact Prog.Meets.bind (meets_precheckFences hnode) fun _ h => h.elim

/-- The request stores an entry of the node's stack's outputs. -/
def Stores (node : String) : Request → Prop
  | .aws (.putEntry entry) => entry.item = ⟨.output, stackOf node⟩
  | _ => False

theorem not_stores_of_reading {request : Request} (h : request.Reading) : ¬Stores node request := by
  match request, h with
  | .aws request, h => cases request <;> first | exact h.elim | exact id
  | .memory _, _ | .uuid, _ | .schedule, _ | .paging, _ => exact id

/-- A commit of other stacks leaves the node's alone. -/
theorem spares_commit {changes : List StackChange} (fence : Nat) (fenced : List String) (lease : Option Lease)
    (hothers : ∀ change ∈ changes, change.stack ≠ stackOf node) :
    (commit changes fenced lease).Only fun request =>
      request.Spares node fence ∧ ¬Stores node request := by
  refine (only_commit changes fenced lease).mono fun request h => ?_
  match request, h with
  | .aws (.transact items), h =>
    refine ⟨.inr fun update hmem heq => ?_, id⟩
    obtain ⟨change, hchange, hitem⟩ := (h _ hmem).2 update rfl
    exact hothers change hchange (Item.mk.inj (hitem.symm.trans heq)).2
  | .aws (.putEntry _), ⟨change, hchange, hitem⟩ =>
    exact ⟨trivial, fun h => hothers change hchange (Item.mk.inj (hitem.symm.trans h)).2⟩
  | .aws (.getHead _), _ | .memory (.record ..), _ | .schedule, _ => exact ⟨trivial, id⟩

/-- Under a lease that is over the node, a call spares the node's stack, and does not end well if it
stored an entry for it. -/
theorem spares_setOutputsUpTo (outputs : Dict String Value) (dropped : List String) {lease : Lease}
    (hnode : node ∈ lease.scope) (attempts : Nat) :
    MeetsPast node lease.fence (setOutputsUpTo outputs dropped (some lease) attempts) (fun _ => True) ∧
      (setOutputsUpTo outputs dropped (some lease) attempts).FailsAfter
        (AnsweredPast node lease.fence) (Stores node) := by
  have hreading : ∀ {α : Type} {program : Backend α}, program.Only Request.Reading →
      MeetsPast node lease.fence program (fun _ => True) ∧
        program.FailsAfter (AnsweredPast node lease.fence) (Stores node) := fun h =>
    ⟨.of_reading h, .of_only (h.mono fun _ => not_stores_of_reading)⟩
  have hbind : ∀ {α β : Type} {program : Backend α} {next : α → Backend β},
      (MeetsPast node lease.fence program (fun _ => True) ∧
        program.FailsAfter (AnsweredPast node lease.fence) (Stores node)) →
      (∀ value, MeetsPast node lease.fence (next value) (fun _ => True) ∧
        (next value).FailsAfter (AnsweredPast node lease.fence) (Stores node)) →
      MeetsPast node lease.fence (program.bind next) (fun _ => True) ∧
        (program.bind next).FailsAfter (AnsweredPast node lease.fence) (Stores node) :=
    fun h hnext => ⟨h.1.bind fun value _ => (hnext value).1, h.2.bind fun value => (hnext value).2⟩
  induction attempts with
  | zero => exact ⟨trivial, trivial⟩
  | succ attempts ih =>
    refine hbind (hreading Views.reading_writable) fun view => ?_
    dsimp only
    split
    · exact ⟨trivial, trivial⟩
    next changes _ =>
      refine hbind ?_ fun moved => ?_
      · by_cases hstack : ∃ change ∈ stackChanges view outputs dropped, change.stack = stackOf node
        · obtain ⟨change, hchange, hstack⟩ := hstack
          have hfenced : node ∈ sortedSet (lease.scope.filter fun node =>
              (stackChanges view outputs dropped).any fun change => change.stack = stackOf node) := by
            refine mem_sortedSet.mpr (List.mem_filter.mpr ⟨hnode, ?_⟩)
            exact List.any_eq_true.mpr ⟨change, hchange, decide_eq_true hstack⟩
          have hnever := meets_commit (stackChanges view outputs dropped) lease hfenced
          exact ⟨hnever.mono fun _ h => h.elim, .of_fails (hnever.mono_asks fun _ _ => trivial)⟩
        · have hothers := spares_commit lease.fence (sortedSet (lease.scope.filter
            fun node => (stackChanges view outputs dropped).any fun change =>
              change.stack = stackOf node)) (some lease) fun change hchange heq =>
              hstack ⟨change, hchange, heq⟩
          exact ⟨.of_only (hothers.mono fun _ h => h.1), .of_only (hothers.mono fun _ h => h.2)⟩
      · cases moved with
        | nil => exact ⟨trivial, trivial⟩
        | cons stack moved =>
          refine hbind (hreading (Prog.Only.bind (Reads.reading_readHeads _) fun _ =>
            reading_refreshEach _ _)) fun _ => ih

end OutputWrites

/-! ## In a run -/

/-- While the node's head is past the fence, requests are answered accordingly. -/
theorem World.answeredPast {world : World} (hpast : Overtaken world.store node fence) (tid : Tid)
    (choice : Choice) (request : Request) :
    AnsweredPast node fence request (world.serve tid choice request).1 := by
  obtain ⟨recorded, hrecorded, hlt⟩ := hpast
  cases request with
  | aws request => ?_
  | _ => trivial
  cases request with
  | getHead item =>
    rintro rfl head hreply
    have hhead : world.store.heads[(⟨.node, node⟩ : Item)]? = some head := by
      simp only [World.serve, World.serveAws] at hreply
      cases hfate : choice.fate <;> simp [hfate, World.afterLost, World.afterTransient] at hreply
      exact Option.some.inj hreply
    rw [Store.head, Std.ExtTreeMap.getD_eq_getD_getElem?, hhead] at hrecorded
    simp only [Option.getD_some] at hrecorded
    rw [hrecorded, Ne, Option.some.injEq]
    omega
  | transact items =>
    intro hcheck
    have hbarred : world.store.itemAllowed (.checkFence node fence) = false := by
      simp only [Store.itemAllowed, hrecorded, Option.some.injEq, decide_eq_false_iff_not]
      omega
    have hserved : (world.store.serve (.transact items)).1 =
        .refused (world.store.failedItems items) := by
      simp only [Store.serve]
      rw [if_neg fun hnone => ?_]
      rw [JournalInv.allowed_of_failedItems hnone hcheck] at hbarred
      cases hbarred
    simp only [World.serve, World.serveAws, hserved]
    cases choice.fate with
    | answered =>
      refine ⟨by rintro ⟨⟩, ?_⟩
      rintro failed hfailed index hindex
      obtain rfl := TransactReply.refused.inj (Option.some.inj hfailed)
      refine List.mem_map.mpr ⟨(_, index), List.mem_filter.mpr
        ⟨List.mem_zipIdx_iff_getElem?.mpr hindex, ?_⟩, rfl⟩
      simp [hbarred]
    | lost => exact ⟨by rintro ⟨⟩, by rintro _ ⟨⟩⟩
    | failed => exact ⟨by rintro ⟨⟩, by rintro _ ⟨⟩⟩
    | transient => exact ⟨by rintro ⟨⟩, by rintro _ ⟨⟩⟩
  | _ => trivial

theorem not_stored_of_applyItems (items : List TransactItem) (store : Store) {key : EntryKey}
    {entry : JournalEntry} : .stored key entry ∉ (Store.applyItems items store).2 := by
  induction items generalizing store with
  | nil => exact nofun
  | cons item items ih =>
    intro hmem
    rcases List.mem_append.mp hmem with hmem | hmem
    · exact ih _ hmem
    · cases item <;> simp [Store.itemEvents] at hmem

/-- What a request may commit or store: what it names, a transaction only if every item allows it. -/
theorem Store.serve_writes (store : Store) (request : AwsRequest) :
    (∀ update, .committed update ∈ (store.serve request).2.2 → request = .updateHead update ∨
      ∃ items, request = .transact items ∧ .update update ∈ items ∧
        ∀ item ∈ items, store.itemAllowed item = true) ∧
    ∀ key entry, .stored key entry ∈ (store.serve request).2.2 → request = .putEntry entry := by
  cases request with
  | transact items =>
    simp only [Store.serve]
    split
    next hfailed =>
      refine ⟨fun update hmem => .inr ⟨items, rfl, FenceStep.update_of_committed hmem,
        fun item hitem => JournalInv.allowed_of_failedItems hfailed hitem⟩, fun key entry hmem => ?_⟩
      exact absurd hmem (not_stored_of_applyItems items store)
    next => exact ⟨fun _ h => (List.not_mem_nil h).elim, fun _ _ h => (List.not_mem_nil h).elim⟩
  | updateHead update =>
    simp only [Store.serve]
    split <;> simp
  | putSnapshot doc ifMatch writes =>
    simp only [Store.serve]
    split <;> simp
  | extendLease leaseId owner fence expires =>
    simp only [Store.serve]
    split
    · split <;> simp
    · simp
  | revokeLease leaseId owner stale =>
    simp only [Store.serve]
    split
    · split <;> simp
    · simp
  | deleteLease leaseId owner =>
    simp only [Store.serve]
    split
    · split <;> simp
    · simp
  | deleteRow node owner leaseId =>
    simp only [Store.serve]
    split
    · split <;> simp
    · simp
  | _ => simp [Store.serve]

/-- What a request leaves in the history of a world where the node's head is past the fence. -/
theorem World.serve_past {world : World} (hpast : Overtaken world.store node fence) (tid : Tid)
    (choice : Choice) {request : Request} (hspares : request.Spares node fence) : ∃ events,
      (world.serve tid choice request).2.history =
        moments tid (world.clock tid) events ++ world.history ∧
      (∀ update, .committed update ∈ events → update.item ≠ ⟨.output, stackOf node⟩) ∧
      ∀ key entry, .stored key entry ∈ events → entry.item = ⟨.output, stackOf node⟩ →
        OutputWrites.Stores node request := by
  have hnothing : (∀ update, .committed update ∈ ([] : List Event) →
      update.item ≠ ⟨.output, stackOf node⟩) ∧ ∀ key entry, .stored key entry ∈ ([] : List Event) →
        entry.item = ⟨.output, stackOf node⟩ → OutputWrites.Stores node request :=
    ⟨fun _ h => (List.not_mem_nil h).elim, fun _ _ h => (List.not_mem_nil h).elim⟩
  cases request with
  | aws request =>
    have hserved : (∀ update, .committed update ∈ (world.store.serve request).2.2 →
        update.item ≠ ⟨.output, stackOf node⟩) ∧
        ∀ key entry, .stored key entry ∈ (world.store.serve request).2.2 →
          entry.item = ⟨.output, stackOf node⟩ → OutputWrites.Stores node (.aws request) := by
      obtain ⟨hcommitted, hstored⟩ := world.store.serve_writes request
      refine ⟨fun update hmem => ?_, fun key entry hmem hitem => ?_⟩
      · rcases hcommitted update hmem with rfl | ⟨items, rfl, hupdate, hallowed⟩
        · exact hspares
        rcases hspares with hcheck | hothers
        · obtain ⟨recorded, hrecorded, hlt⟩ := hpast
          have := hallowed _ hcheck
          simp only [Store.itemAllowed, hrecorded, Option.some.injEq, decide_eq_true_eq] at this
          omega
        · exact hothers update hupdate
      · obtain rfl := hstored key entry hmem
        exact hitem
    simp only [World.serve, World.serveAws]
    cases choice.fate with
    | answered => exact ⟨_, rfl, hserved⟩
    | lost => exact ⟨_, rfl, hserved⟩
    | failed => exact ⟨[], rfl, hnothing⟩
    | transient => exact ⟨[], rfl, hnothing⟩
  | memory op =>
    refine ⟨_, rfl, fun update hmem => ?_, fun key entry hmem => ?_⟩
    all_goals
      obtain ⟨_, _, _, -, heq⟩ := (world.memory tid.process).serve_granted op hmem
      cases heq
  | uuid => exact ⟨[], rfl, hnothing⟩
  | schedule => exact ⟨[], rfl, hnothing⟩
  | paging => exact ⟨[], rfl, hnothing⟩

/-- What has happened since `before`: the task committed no outputs of the node's stack, and once it
has stored an entry of them its call does not end well. -/
structure Sparing (tid : Tid) (node : String) (fence : Nat) (before : History) (config : Backends) :
    Prop where
  past : Overtaken config.world.store node fence
  program : ∀ task, config.tasks tid = some task →
    MeetsPast node fence task.program (fun _ => True) ∧
      task.program.FailsAfter (AnsweredPast node fence) (OutputWrites.Stores node)
  since : ∃ more, config.world.history = more ++ before ∧
    (∀ moment ∈ more, moment.task = tid → ∀ update, moment.event = .committed update →
      update.item ≠ ⟨.output, stackOf node⟩) ∧
    ∀ moment ∈ more, moment.task = tid → ∀ key entry, moment.event = .stored key entry →
      entry.item = ⟨.output, stackOf node⟩ → ∀ task, config.tasks tid = some task →
        task.program.Meets (AnsweredPast node fence) (fun _ => True) fun _ => False

theorem Overtaken.kept {store store' : Store} (hpast : Overtaken store node fence)
    (hkept : ∀ item, FenceKept (store.head item).fence (store'.head item).fence) :
    Overtaken store' node fence := by
  obtain ⟨recorded, hrecorded, hlt⟩ := hpast
  obtain ⟨later, hlater, hle⟩ := hkept _ recorded hrecorded
  exact ⟨later, hlater, Nat.lt_of_lt_of_le hlt hle⟩

variable {tid : Tid} {before : History} {config config' : Backends}

/-- Whatever else happens keeps it, as long as the task itself does nothing. -/
theorem Sparing.aside (hsparing : Sparing tid node fence before config)
    (hpast : Overtaken config'.world.store node fence) (htask : config'.tasks tid = config.tasks tid)
    {added : History} (hhistory : config'.world.history = added ++ config.world.history)
    (hadded : ∀ moment ∈ added, moment.task ≠ tid) : Sparing tid node fence before config' := by
  obtain ⟨more, hmore, hcommitted, hstored⟩ := hsparing.since
  have hold : ∀ moment ∈ added ++ more, moment.task = tid → moment ∈ more := fun moment hmem hsame =>
    (List.mem_append.mp hmem).resolve_left fun h => hadded moment h hsame
  refine ⟨hpast, fun task h => hsparing.program task (htask ▸ h), added ++ more, ?_,
    fun moment hmem hsame => hcommitted moment (hold moment hmem hsame) hsame,
    fun moment hmem hsame key entry hevent hitem task h =>
      hstored moment (hold moment hmem hsame) hsame key entry hevent hitem task (htask ▸ h)⟩
  rw [hhistory, hmore, List.append_assoc]

/-- The task's own next request keeps it. -/
theorem Sparing.serve (hsparing : Sparing tid node fence before config) {call : Call}
    {request : Request} {next : request.Reply → Backend Result}
    (htask : config.tasks tid = some ⟨call, .ask request next⟩) (choice : Choice)
    (hpast : Overtaken (config.world.serve tid choice request).2.store node fence) :
    Sparing tid node fence before ⟨(config.world.serve tid choice request).2,
      Function.update config.tasks tid
        (some ⟨call, next (config.world.serve tid choice request).1⟩)⟩ := by
  obtain ⟨more, hmore, hcommitted, hstored⟩ := hsparing.since
  obtain ⟨⟨hspares, hnext⟩, hafter⟩ := hsparing.program _ htask
  have hanswer := config.world.answeredPast hsparing.past tid choice request
  obtain ⟨events, hhistory, hnone, hstores⟩ :=
    config.world.serve_past hsparing.past tid choice hspares
  have hself : Function.update config.tasks tid
      (some ⟨call, next (config.world.serve tid choice request).1⟩) tid =
        some ⟨call, next (config.world.serve tid choice request).1⟩ := Function.update_self ..
  refine ⟨hpast, fun task h => ?_, moments tid (config.world.clock tid) events ++ more, ?_,
    fun moment hmem hsame update hevent => ?_,
    fun moment hmem hsame key entry hevent hitem task h => ?_⟩
  · obtain rfl := Option.some.inj (hself.symm.trans h)
    exact ⟨hnext _ hanswer, (hafter _ hanswer).1⟩
  · rw [List.append_assoc, ← hmore]
    exact hhistory
  · rcases List.mem_append.mp hmem with hmem | hmem
    · exact hnone update (hevent ▸ (World.mem_moments hmem).2)
    · exact hcommitted moment hmem hsame update hevent
  · obtain rfl := Option.some.inj (hself.symm.trans h)
    rcases List.mem_append.mp hmem with hmem | hmem
    · refine (hafter _ hanswer).2 (hstores key entry ?_ hitem)
      exact hevent ▸ (World.mem_moments hmem).2
    · exact (hstored moment hmem hsame key entry hevent hitem _ htask).2 _ hanswer

theorem Sparing.step (ctx : S3Context) {acts : List (System.Act Tid Choice Surroundings Call)}
    {act : System.Act Tid Choice Surroundings Call}
    (hrun : (backends ctx).run acts (System.initial {}) = some config)
    (hstep : (backends ctx).step act config = some config') (hact : ∀ call, act ≠ .start tid call)
    (hsparing : Sparing tid node fence before config) : Sparing tid node fence before config' := by
  obtain ⟨_, _, _, -, hfences⟩ := fences_step ctx hrun hstep
  have hpast := hsparing.past.kept hfences.kept
  cases act with
  | start other call =>
    have hne : tid ≠ other := fun heq => hact call (heq ▸ rfl)
    simp only [System.step] at hstep
    split at hstep
    · cases hstep
    · cases hstep
      exact hsparing.aside hpast (Function.update_of_ne hne _ _) (List.nil_append _).symm
        fun _ h => (List.not_mem_nil h).elim
  | env event =>
    cases hstep
    have hhistory : (World.env event config.world).history = [] ++ config.world.history := by
      cases event <;> rfl
    exact hsparing.aside hpast rfl hhistory fun _ h => (List.not_mem_nil h).elim
  | serve other choice =>
    simp only [System.step] at hstep
    split at hstep
    next call request next htask =>
      cases hstep
      by_cases hsame : tid = other
      · subst hsame
        exact hsparing.serve htask choice hpast
      · have hheld := (fencing ctx).reachable FenceInv.initial hrun
        obtain ⟨events, hhistory, -⟩ :=
          config.world.serve_fences other choice (hheld.legitimate htask)
        refine hsparing.aside hpast (Function.update_of_ne hsame _ _) hhistory fun moment hmem heq => ?_
        exact hsame (heq.symm.trans (World.mem_moments hmem).1)
    next => cases hstep

theorem Sparing.run (ctx : S3Context) {acts more : List (System.Act Tid Choice Surroundings Call)}
    (hrun : (backends ctx).run acts (System.initial {}) = some config)
    (hmore : (backends ctx).run more config = some config') (hsame : ∀ call, .start tid call ∉ more)
    (hsparing : Sparing tid node fence before config) : Sparing tid node fence before config' := by
  induction more generalizing acts config with
  | nil =>
    cases hmore
    exact hsparing
  | cons act more ih =>
    obtain ⟨middle, hstep, hrest⟩ := Option.bind_eq_some_iff.mp hmore
    have hmiddle : (backends ctx).run (acts ++ [act]) (System.initial {}) = some middle := by
      rw [System.run_append, hrun]
      show (backends ctx).run [act] config = some middle
      rw [System.run, hstep]
      rfl
    refine ih hmiddle hrest (fun call h => hsame call (List.mem_cons_of_mem _ h)) ?_
    refine hsparing.step ctx hrun hstep fun call heq => hsame call ?_
    exact heq ▸ List.mem_cons_self ..

theorem program_setOutputs (ctx : S3Context) (tid : Tid) (outputs : Dict String Value)
    (remove : List String) : (backends ctx).program tid (.setOutputs outputs remove) =
      if tid.thread = 0 then
        .ask (.memory .boundLease) fun lease =>
          (OutputWrites.setOutputsUpTo outputs remove lease limits.casAttempts).bind fun _ => .ret .done
      else .raise .keptMoving := by
  simp only [backends, Call.shared, Bool.false_eq_true, or_false]
  rfl

/-- The call's first request is for the lease it is bound to. -/
theorem asked_setOutputs (ctx : S3Context) {started asked : Backends} {choice : Choice}
    {outputs : Dict String Value} {remove : List String} {lease : Lease}
    (hlease : (config.world.memory tid.process).lease = some lease)
    (hstart : (backends ctx).step (.start tid (.setOutputs outputs remove)) config = some started)
    (hasked : (backends ctx).step (.serve tid choice) started = some asked) :
    asked.world.store = config.world.store ∧ asked.world.history = config.world.history ∧
      asked.tasks tid = some ⟨.setOutputs outputs remove,
        (OutputWrites.setOutputsUpTo outputs remove (some lease) limits.casAttempts).bind fun _ =>
          .ret .done⟩ := by
  have hstarted : started.world = config.world ∧
      started.tasks tid = some ⟨.setOutputs outputs remove,
        (backends ctx).program tid (.setOutputs outputs remove)⟩ := by
    simp only [System.step] at hstart
    split at hstart
    · cases hstart
    · cases hstart
      exact ⟨rfl, Function.update_self ..⟩
  rw [program_setOutputs] at hstarted
  by_cases hthread : tid.thread = 0
  · rw [if_pos hthread] at hstarted
    simp only [System.step, hstarted.2] at hasked
    cases hasked
    rw [← hlease, ← hstarted.1]
    exact ⟨rfl, rfl, Function.update_self ..⟩
  · rw [if_neg hthread] at hstarted
    simp only [System.step, hstarted.2] at hasked
    cases hasked

/-- A task about to commit under the lease. -/
theorem Sparing.start {call : Call} {lease : Lease} {outputs : Dict String Value}
    {remove : List String} (hpast : Overtaken config.world.store node lease.fence)
    (hnode : node ∈ lease.scope)
    (htask : config.tasks tid = some ⟨call,
      (OutputWrites.setOutputsUpTo outputs remove (some lease) limits.casAttempts).bind fun _ =>
        .ret .done⟩) :
    Sparing tid node lease.fence config.world.history config := by
  obtain ⟨hmeets, hfails⟩ := OutputWrites.spares_setOutputsUpTo outputs remove hnode limits.casAttempts
  refine ⟨hpast, fun task h => ?_, [], rfl, fun _ h => (List.not_mem_nil h).elim,
    fun _ h => (List.not_mem_nil h).elim⟩
  obtain rfl := Option.some.inj (htask.symm.trans h)
  exact ⟨hmeets.bind fun _ _ => trivial, hfails.bind fun _ => trivial⟩

/-- **Output commits are fenced on the journal.** A call that commits outputs under a lease, one of
whose nodes a newer lease was granted before the call, commits none of that node's stack whatever else
goes on, and ends well only if it had found nothing to write there. -/
theorem outputs_spared (ctx : S3Context) {acts more : List (System.Act Tid Choice Surroundings Call)}
    {choice : Choice} {outputs : Dict String Value}
    {remove : List String} {lease : Lease} {newer : Nat}
    (hrun : (backends ctx).run acts (System.initial {}) = some config)
    (hlease : (config.world.memory tid.process).lease = some lease) (hnode : node ∈ lease.scope)
    (hraised : Raised config.world.history node newer) (hlt : lease.fence < newer)
    (hcall : (backends ctx).run (.start tid (.setOutputs outputs remove) :: .serve tid choice :: more)
      config = some config')
    (hsame : ∀ call, .start tid call ∉ more) :
    ∃ moments, config'.world.history = moments ++ config.world.history ∧
      (∀ moment ∈ moments, moment.task = tid → ∀ update, moment.event = .committed update →
        update.item ≠ ⟨.output, stackOf node⟩) ∧
      ∀ call result, config'.tasks tid = some ⟨call, .ret result⟩ →
        ∀ moment ∈ moments, moment.task = tid → ∀ key entry, moment.event = .stored key entry →
          entry.item ≠ ⟨.output, stackOf node⟩ := by
  obtain ⟨started, hstart, hserve⟩ := Option.bind_eq_some_iff.mp hcall
  obtain ⟨asked, hasked, hmore⟩ := Option.bind_eq_some_iff.mp hserve
  have hpast : Overtaken config.world.store node lease.fence := by
    obtain ⟨recorded, hrecorded, hle⟩ :=
      ((fencing ctx).reachable FenceInv.initial hrun).1.raised node newer hraised
    exact ⟨recorded, hrecorded, Nat.lt_of_lt_of_le hlt hle⟩
  have hasking : Sparing tid node lease.fence config.world.history asked := by
    obtain ⟨hstore, hhistory, htask⟩ := asked_setOutputs ctx hlease hstart hasked
    rw [← hstore] at hpast
    exact hhistory ▸ Sparing.start hpast hnode htask
  have hrun' : (backends ctx).run (acts ++ [.start tid (.setOutputs outputs remove), .serve tid choice])
      (System.initial {}) = some asked := by
    rw [System.run_append, hrun]
    show (backends ctx).run [.start tid (.setOutputs outputs remove), .serve tid choice] config = _
    rw [System.run, hstart, Option.bind_some, System.run, hasked]
    rfl
  obtain ⟨-, -, moments, hmoments, hcommitted, hstored⟩ := hasking.run ctx hrun' hmore hsame
  refine ⟨moments, hmoments, hcommitted, fun call result htask moment hmem htid key entry hevent hitem => ?_⟩
  exact hstored moment hmem htid key entry hevent hitem _ htask

end Atlantide
