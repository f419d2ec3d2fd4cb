import Atlantide.State.S3.LockFootprint

/-! # Fencing

A node's head records the fence of the newest lease that claimed it. The fence only rises, and a
leased commit applies only while the head is at exactly the lease's fence, so once a newer lease
raised it no commit of an older one applies. Nothing here depends on what the programs do with their
answers, only on what they ask for: a transaction claims each node once, and never beside a commit. -/

namespace Atlantide

open Interleaving History

def Raised (history : History) (node : String) (fence : Nat) : Prop :=
  ∃ moment ∈ history, moment.event = .raised node fence

/-- A fence that was recorded still is, or a higher one. -/
def FenceKept (before after : Option Nat) : Prop :=
  ∀ fence, before = some fence → ∃ later, after = some later ∧ fence ≤ later

theorem FenceKept.refl (fence : Option Nat) : FenceKept fence fence :=
  fun fence h => ⟨fence, h, Nat.le_refl _⟩

theorem FenceKept.trans {before middle after : Option Nat} (hfirst : FenceKept before middle)
    (hthen : FenceKept middle after) : FenceKept before after := by
  intro fence hfence
  obtain ⟨later, hlater, hle⟩ := hfirst fence hfence
  obtain ⟨last, hlast, hle'⟩ := hthen later hlater
  exact ⟨last, hlast, Nat.le_trans hle hle'⟩

/-- Every commit under a lease is at a fence its node had not been raised past. -/
def Fenced : History → Prop
  | [] => True
  | moment :: past =>
    (∀ update fence node raised, moment.event = .committed update → update.fence = some fence →
      update.item = ⟨.node, node⟩ → Raised past node raised → raised ≤ fence) ∧ Fenced past

theorem Fenced.append {history more : History} (hfenced : Fenced history)
    (hmore : ∀ moment ∈ more, ∀ update fence node raised, moment.event = .committed update →
      update.fence = some fence → update.item = ⟨.node, node⟩ →
      Raised (more ++ history) node raised → raised ≤ fence) : Fenced (more ++ history) := by
  induction more with
  | nil => exact hfenced
  | cons moment more ih =>
    refine ⟨?_, ih ?_⟩
    · rintro update fence node raised hevent hfence hitem ⟨older, hmem, hraised⟩
      exact hmore moment (List.mem_cons_self ..) update fence node raised hevent hfence hitem
        ⟨older, List.mem_cons_of_mem _ hmem, hraised⟩
    · rintro newer hmem update fence node raised hevent hfence hitem ⟨older, hmem', hraised⟩
      exact hmore newer (List.mem_cons_of_mem _ hmem) update fence node raised hevent hfence hitem
        ⟨older, List.mem_cons_of_mem _ hmem', hraised⟩

theorem Fenced.at {later past : History} {moment : Moment}
    (hfenced : Fenced (later ++ moment :: past)) : Fenced (moment :: past) := by
  induction later with
  | nil => exact hfenced
  | cons newer later ih => exact ih hfenced.2

/-! ## One request -/

/-- What a request may do to the heads' fences. -/
structure FenceStep (store store' : Store) (events : List Event) : Prop where
  kept : ∀ item, FenceKept (store.head item).fence (store'.head item).fence
  raised : ∀ node fence, .raised node fence ∈ events →
    ∃ recorded, (store'.head ⟨.node, node⟩).fence = some recorded ∧ fence ≤ recorded
  committed : ∀ update fence, .committed update ∈ events → update.fence = some fence →
    (store.head update.item).fence = some fence ∧ (store'.head update.item).fence = some fence
  apart : ∀ update node fence, .committed update ∈ events → .raised node fence ∉ events

/-- A transaction claims each node once, and never beside a commit. -/
def Request.Fencing : Request → Prop
  | .aws (.transact items) => (∀ item ∈ items, item.raised = none) ∨
      (∀ item ∈ items, item.updated = none) ∧ (items.filterMap TransactItem.raised).Nodup
  | _ => True

theorem Request.fencing_of {request : Request} (h : request.Journal ∨ request.Locking) :
    request.Fencing := by
  match request, h with
  | .aws (.transact items), .inl hjournal => exact .inl fun item hmem => (hjournal item hmem).2
  | .aws (.transact items), .inr hlocking =>
    exact .inr ⟨List.filterMap_eq_nil_iff.mp hlocking.1, hlocking.2.2⟩
  | .aws (.getSnapshot), _ | .aws (.headSnapshot), _ | .aws (.putSnapshot ..), _
  | .aws (.listPage ..), _ | .aws (.getEntry _), _ | .aws (.putEntry _), _
  | .aws (.deleteEntry _), _ | .aws (.getHead _), _ | .aws (.updateHead _), _
  | .aws (.getRow _), _ | .aws (.getLease _), _ | .aws (.putLease ..), _
  | .aws (.extendLease ..), _ | .aws (.revokeLease ..), _ | .aws (.deleteLease ..), _
  | .aws (.deleteRow ..), _ | .aws (.unlockRow _), _ | .aws (.bumpFence ..), _
  | .aws (.readFence), _ | .memory _, _ | .uuid, _ | .schedule, _ | .paging, _ => trivial

namespace FenceStep

variable {store store' : Store} {items : List TransactItem}

theorem of_heads {events : List Event} (hheads : store'.heads = store.heads)
    (hcommitted : ∀ update, .committed update ∉ events)
    (hraised : ∀ node fence, .raised node fence ∉ events) : FenceStep store store' events where
  kept item := by
    simp only [Store.head, hheads]
    exact .refl _
  raised node fence hmem := absurd hmem (hraised node fence)
  committed update fence hmem := absurd hmem (hcommitted update)
  apart update node fence hmem := absurd hmem (hcommitted update)

theorem applied_fence (update : HeadUpdate) {head : Head} {fence : Nat} (h : head.fence = some fence) :
    (update.applied head).fence = some fence := by
  simp [HeadUpdate.applied, h]

theorem fence_updateHead (store : Store) (update : HeadUpdate) {item : Item} {fence : Nat}
    (h : (store.head item).fence = some fence) :
    ((store.updateHead update).head item).fence = some fence := by
  by_cases hitem : update.item = item
  · subst hitem
    rw [Store.head_updateHead_self]
    exact applied_fence update h
  · rwa [Store.head_updateHead_of_ne _ hitem]

theorem allowed_fence {update : HeadUpdate} {head : Head} {fence : Nat}
    (hallowed : update.allowed head = true) (hfence : update.fence = some fence) :
    head.fence = some fence := by
  simp only [HeadUpdate.allowed, hfence, Bool.and_eq_true, decide_eq_true_eq] at hallowed
  exact hallowed.2

theorem update_of_committed {update : HeadUpdate}
    (h : .committed update ∈ (Store.applyItems items store).2) : .update update ∈ items := by
  induction items generalizing store with
  | nil => cases h
  | cons item items ih =>
    rcases List.mem_append.mp h with h | h
    · exact List.mem_cons_of_mem _ (ih h)
    · cases item <;> simp [Store.itemEvents] at h
      subst h
      exact List.mem_cons_self ..

theorem raise_of_raised {node : String} {fence : Nat}
    (h : .raised node fence ∈ (Store.applyItems items store).2) : .raiseFence node fence ∈ items := by
  induction items generalizing store with
  | nil => cases h
  | cons item items ih =>
    rcases List.mem_append.mp h with h | h
    · exact List.mem_cons_of_mem _ (ih h)
    · cases item <;> simp [Store.itemEvents] at h
      obtain ⟨rfl, rfl⟩ := h
      exact List.mem_cons_self ..

/-- Where nothing is raised, every recorded fence stays as it is. -/
theorem fence_updates (hnone : ∀ item ∈ items, item.raised = none) {item : Item} {fence : Nat}
    (h : (store.head item).fence = some fence) :
    ((Store.applyItems items store).1.head item).fence = some fence := by
  induction items generalizing store with
  | nil => exact h
  | cons first items ih =>
    refine ih (fun other hmem => hnone other (List.mem_cons_of_mem _ hmem)) ?_
    cases first with
    | update update => exact fence_updateHead store update h
    | checkFence node fence => exact h
    | putRow node row allowed => exact h
    | raiseFence node fence => cases hnone _ (List.mem_cons_self ..)

/-- Claims raise each node's fence once, so what allowed each raise still does when its turn comes. -/
theorem fence_raises (hnone : ∀ item ∈ items, item.updated = none)
    (hnodup : (items.filterMap TransactItem.raised).Nodup)
    (hallowed : ∀ node fence, .raiseFence node fence ∈ items →
      (store.head ⟨.node, node⟩).fence.all (· ≤ fence)) :
    (∀ item, FenceKept (store.head item).fence ((Store.applyItems items store).1.head item).fence) ∧
      ∀ node fence, .raiseFence node fence ∈ items →
        ∃ recorded, ((Store.applyItems items store).1.head ⟨.node, node⟩).fence = some recorded ∧
          fence ≤ recorded := by
  induction items generalizing store with
  | nil => exact ⟨fun _ => .refl _, fun _ _ h => nomatch h⟩
  | cons first items ih =>
    have hrest := fun other hmem => hnone other (List.mem_cons_of_mem first hmem)
    cases first with
    | update update => cases hnone _ (List.mem_cons_self ..)
    | checkFence node fence =>
      obtain ⟨hkept, hraised⟩ := ih hrest hnodup fun node fence hmem =>
        hallowed node fence (List.mem_cons_of_mem _ hmem)
      refine ⟨hkept, fun node fence hmem => hraised node fence ?_⟩
      simpa using hmem
    | putRow node row allowed =>
      have hallowed' : ∀ other fence, .raiseFence other fence ∈ items →
          ((store.applyItem (.putRow node row allowed)).head ⟨.node, other⟩).fence.all (· ≤ fence) :=
        fun other fence hmem => hallowed other fence (List.mem_cons_of_mem _ hmem)
      obtain ⟨hkept, hraised⟩ := ih hrest hnodup hallowed'
      refine ⟨hkept, fun node fence hmem => hraised node fence ?_⟩
      simpa using hmem
    | raiseFence node fence =>
      obtain ⟨hnotin, hnodup'⟩ := List.nodup_cons.mp hnodup
      have hstep : ∀ item, FenceKept (store.head item).fence
          ((store.raiseFence node fence).head item).fence := by
        intro item
        by_cases hitem : (⟨.node, node⟩ : Item) = item
        · subst hitem
          rw [Store.head_raiseFence_self]
          intro recorded hrecorded
          have hle := hallowed node fence (List.mem_cons_self ..)
          rw [hrecorded, Option.all_some, decide_eq_true_eq] at hle
          exact ⟨fence, rfl, hle⟩
        · rw [Store.head_raiseFence_of_ne _ _ hitem]
          exact .refl _
      have hlater : ∀ other fence', .raiseFence other fence' ∈ items →
          ((store.raiseFence node fence).head ⟨.node, other⟩).fence.all (· ≤ fence') := by
        intro other fence' hmem
        have hne : (⟨.node, node⟩ : Item) ≠ ⟨.node, other⟩ := by
          intro heq
          cases heq
          exact hnotin (List.mem_filterMap.mpr ⟨_, hmem, rfl⟩)
        rw [Store.head_raiseFence_of_ne _ _ hne]
        exact hallowed other fence' (List.mem_cons_of_mem _ hmem)
      obtain ⟨hkept, hraised⟩ := ih hrest hnodup' hlater
      refine ⟨fun item => (hstep item).trans (hkept item), fun other fence' hmem => ?_⟩
      rcases List.mem_cons.mp hmem with heq | hmem
      · cases heq
        exact hkept ⟨.node, node⟩ fence (by rw [Store.head_raiseFence_self])
      · exact hraised other fence' hmem

theorem transact (hfencing : Request.Fencing (.aws (.transact items)))
    (hallowed : ∀ item ∈ items, store.itemAllowed item = true) :
    FenceStep store (Store.applyItems items store).1 (Store.applyItems items store).2 := by
  rcases hfencing with hnone | ⟨hnone, hnodup⟩
  · constructor
    · exact fun item fence hfence => ⟨fence, fence_updates hnone hfence, Nat.le_refl _⟩
    · intro node fence hmem
      cases hnone _ (raise_of_raised hmem)
    · intro update fence hmem hfence
      have hhead := allowed_fence (hallowed _ (update_of_committed hmem)) hfence
      exact ⟨hhead, fence_updates hnone hhead⟩
    · intro update node fence _ hmem
      cases hnone _ (raise_of_raised hmem)
  · obtain ⟨hkept, hraised⟩ := fence_raises hnone hnodup fun node fence hmem => hallowed _ hmem
    constructor
    · exact hkept
    · exact fun node fence hmem => hraised node fence (raise_of_raised hmem)
    · intro update fence hmem
      cases hnone _ (update_of_committed hmem)
    · intro update node fence hmem
      cases hnone _ (update_of_committed hmem)

theorem updateHead {update : HeadUpdate} (hallowed : update.allowed (store.head update.item) = true) :
    FenceStep store (store.updateHead update) [.committed update] where
  kept item fence hfence := ⟨fence, fence_updateHead store update hfence, Nat.le_refl _⟩
  raised node fence hmem := by simp at hmem
  committed update' fence hmem hfence := by
    obtain rfl : update' = update := by simpa using hmem
    have hhead := allowed_fence hallowed hfence
    exact ⟨hhead, fence_updateHead store update' hhead⟩
  apart update' node fence _ hmem := by simp at hmem

theorem serve (store : Store) {request : AwsRequest} (hfencing : Request.Fencing (.aws request)) :
    FenceStep store (store.serve request).2.1 (store.serve request).2.2 := by
  have hnothing : FenceStep store store [] := of_heads rfl (fun _ h => nomatch h) fun _ _ h => nomatch h
  cases request with
  | transact items =>
    simp only [Store.serve]
    split
    next hfailed =>
      exact transact hfencing fun item hmem => JournalInv.allowed_of_failedItems hfailed hmem
    next => exact hnothing
  | updateHead update =>
    simp only [Store.serve]
    split
    next hallowed => exact updateHead hallowed
    next => exact hnothing
  | putSnapshot doc ifMatch writes =>
    simp only [Store.serve]
    split
    · exact of_heads rfl (by simp) (by simp)
    · exact hnothing
  | extendLease leaseId owner fence expires =>
    simp only [Store.serve]
    split
    · split <;> exact of_heads rfl (by simp) (by simp)
    · exact hnothing
  | revokeLease leaseId owner stale =>
    simp only [Store.serve]
    split
    · split <;> exact of_heads rfl (by simp) (by simp)
    · exact hnothing
  | deleteLease leaseId owner =>
    simp only [Store.serve]
    split
    · split <;> exact of_heads rfl (by simp) (by simp)
    · exact hnothing
  | deleteRow node owner leaseId =>
    simp only [Store.serve]
    split
    · split <;> exact of_heads rfl (by simp) (by simp)
    · exact hnothing
  | _ => exact of_heads rfl (by simp [Store.serve]) (by simp [Store.serve])

end FenceStep

/-! ## Every run -/

structure FenceInv (store : Store) (history : History) : Prop where
  raised : ∀ node fence, Raised history node fence →
    ∃ recorded, (store.head ⟨.node, node⟩).fence = some recorded ∧ fence ≤ recorded
  fenced : Fenced history

theorem FenceInv.initial : FenceInv {} [] where
  raised node fence h := by
    obtain ⟨moment, hmem, -⟩ := h
    cases hmem
  fenced := trivial

theorem FenceInv.step {store store' : Store} {history : History} (hinv : FenceInv store history)
    {events : List Event} (hstep : FenceStep store store' events) (tid : Tid) (clock : Int) :
    FenceInv store' (moments tid clock events ++ history) := by
  have hmoment : ∀ moment ∈ moments tid clock events, moment.event ∈ events := fun moment hmem =>
    (World.mem_moments hmem).2
  constructor
  · rintro node fence ⟨moment, hmem, hevent⟩
    rcases List.mem_append.mp hmem with hmem | hmem
    · exact hstep.raised node fence (hevent ▸ hmoment moment hmem)
    · obtain ⟨recorded, hrecorded, hle⟩ := hinv.raised node fence ⟨moment, hmem, hevent⟩
      obtain ⟨later, hlater, hle'⟩ := hstep.kept _ recorded hrecorded
      exact ⟨later, hlater, Nat.le_trans hle hle'⟩
  · refine hinv.fenced.append ?_
    rintro moment hmem update fence node raised hevent hfence hitem ⟨older, holder, hraised⟩
    have hcommitted : .committed update ∈ events := hevent ▸ hmoment moment hmem
    rcases List.mem_append.mp holder with holder | holder
    · exact absurd (hraised ▸ hmoment older holder) (hstep.apart update node raised hcommitted)
    · obtain ⟨recorded, hrecorded, hle⟩ := hinv.raised node raised ⟨older, holder, hraised⟩
      have hhead := (hstep.committed update fence hcommitted hfence).1
      rw [hitem, hrecorded, Option.some.injEq] at hhead
      exact hhead ▸ hle

/-- What a request leaves of the world's heads and history. -/
theorem World.serve_fences (world : World) (tid : Tid) (choice : Choice) {request : Request}
    (hfencing : request.Fencing) : ∃ events,
      (world.serve tid choice request).2.history = moments tid (world.clock tid) events ++ world.history ∧
      FenceStep world.store (world.serve tid choice request).2.store events := by
  have hnothing : ∀ store : Store, store.heads = world.store.heads →
      FenceStep world.store store [] := fun store hheads =>
    .of_heads hheads (fun _ h => nomatch h) fun _ _ h => nomatch h
  cases request with
  | aws request =>
    have hstep := FenceStep.serve world.store hfencing
    simp only [World.serve, World.serveAws]
    cases choice.fate with
    | answered => exact ⟨_, rfl, hstep⟩
    | lost => exact ⟨_, rfl, hstep⟩
    | failed => exact ⟨[], rfl, hnothing _ rfl⟩
    | transient => exact ⟨[], rfl, hnothing _ rfl⟩
  | memory op =>
    refine ⟨_, rfl, .of_heads rfl (fun update hmem => ?_) fun node fence hmem => ?_⟩
    · obtain ⟨_, _, _, -, heq⟩ := (world.memory tid.process).serve_granted op hmem
      cases heq
    · obtain ⟨_, _, _, -, heq⟩ := (world.memory tid.process).serve_granted op hmem
      cases heq
  | uuid => exact ⟨[], rfl, hnothing _ rfl⟩
  | schedule => exact ⟨[], rfl, hnothing _ rfl⟩
  | paging => exact ⟨[], rfl, hnothing _ rfl⟩

theorem fencing (ctx : S3Context) :
    System.Disciplined (backends ctx) (fun world => FenceInv world.store world.history)
      (fun _ _ _ => True) (fun _ _ request => request.Fencing) fun _ _ _ _ => True where
  rely_refl _ _ := trivial
  rely_trans _ _ _ _ _ _ := trivial
  inv_env event world hinv := by cases event <;> exact hinv
  rely_env _ _ _ _ := trivial
  inv_serve tid choice world request hinv hfencing := by
    obtain ⟨events, hhistory, hstep⟩ := world.serve_fences tid choice hfencing
    show FenceInv (world.serve tid choice request).2.store (world.serve tid choice request).2.history
    rw [hhistory]
    exact hinv.step hstep tid (world.clock tid)
  rely_serve _ _ _ _ _ _ _ _ := trivial
  start tid call world _ := by
    have honly : ((backends ctx).program tid call).Only Request.Fencing :=
      Prog.Only.ite ((only_program ctx call).mono fun _ => Request.fencing_of) trivial
    exact Safe.of_only honly fun _ _ _ h => h

/-- One step of a run leaves new moments of one task, and does to the heads' fences what they say. -/
theorem fences_step (ctx : S3Context) {acts : List (System.Act Tid Choice Surroundings Call)}
    {config config' : Backends} {act : System.Act Tid Choice Surroundings Call}
    (hrun : (backends ctx).run acts (System.initial {}) = some config)
    (hstep : (backends ctx).step act config = some config') :
    ∃ tid clock events, config'.world.history = moments tid clock events ++ config.world.history ∧
      FenceStep config.world.store config'.world.store events := by
  have hnothing : FenceStep config.world.store config.world.store [] :=
    .of_heads rfl (fun _ h => nomatch h) fun _ _ h => nomatch h
  cases act with
  | start tid call =>
    simp only [System.step] at hstep
    split at hstep
    · cases hstep
    · cases hstep
      exact ⟨tid, 0, [], rfl, hnothing⟩
  | serve tid choice =>
    simp only [System.step] at hstep
    split at hstep
    next call request next htask =>
      cases hstep
      have hheld := (fencing ctx).reachable FenceInv.initial hrun
      obtain ⟨events, hhistory, hfences⟩ :=
        config.world.serve_fences tid choice (hheld.legitimate htask)
      exact ⟨tid, _, events, hhistory, hfences⟩
    next => cases hstep
  | env event =>
    cases hstep
    cases event <;> exact ⟨default, 0, [], rfl, hnothing⟩

/-- A lease lapses, another takes its node over, and the first owner then writes the node. -/
def lapsedWrite : List (System.Act Tid Choice Surroundings Call) :=
  .start ⟨0, 0⟩ (.acquire "first" 10 ["net:vpc"]) :: served ⟨0, 0⟩ 13 ++
  [.env (.bind 0 (some { owner := "first", expiresAt := 10, scope := ["net:vpc"], fence := 1 })),
    .env (.tick 1 50), .start ⟨1, 0⟩ (.acquire "second" 10 ["net:vpc"])] ++ served ⟨1, 0⟩ 20 ++
  .start ⟨0, 0⟩ (.put { id := "net:vpc", type := "Vpc", provider := "aws", providerVersion := "1"
                        inputHash := "h" }) :: served ⟨0, 0⟩ 10

end Atlantide
