import Atlantide.State.S3.Protocol

/-! # Legitimate requests keep the protocol

One lemma for each kind of request, and from them what one served request does to the world. -/

namespace Atlantide

open History

/-- What one request may do to the store, with the events it leaves. -/
structure StoreGrows (store store' : Store) (events : List Event) : Prop where
  minted : store.minted ≤ store'.minted
  marks : ∀ item, watermark store.doc item ≤ watermark store'.doc item
  unswapped : (∀ event ∈ events, event.swap = false) → store'.snapshot = store.snapshot
  swapped : ∀ event ∈ events, event.swap = true →
    ∃ snapshot, store'.snapshot = some snapshot ∧ store.minted ≤ snapshot.etag

theorem StoreGrows.of_snapshot {store store' : Store} {events : List Event}
    (hsnapshot : store'.snapshot = store.snapshot) (hminted : store.minted ≤ store'.minted)
    (hevents : ∀ event ∈ events, event.swap = false) : StoreGrows store store' events where
  minted := hminted
  marks item := by simp only [Store.doc, hsnapshot, Nat.le_refl]
  unswapped _ := hsnapshot
  swapped event hmem hswap := by
    rw [hevents event hmem] at hswap
    cases hswap

theorem Event.swap_of_neutral {event : Event} (h : event.neutral = true) : event.swap = false := by
  cases event <;> first | rfl | cases h

/-- Events of a task, at one reading of its clock. -/
def moments (tid : Tid) (clock : Int) (events : List Event) : History :=
  events.map fun event => ⟨tid, clock, event⟩

namespace JournalInv

variable {store store' : Store} {history : History} {tid : Tid} {clock : Int}

theorem neutral_events (hinv : JournalInv store history) {events : List Event}
    (hneutral : ∀ event ∈ events, event.neutral = true) :
    JournalInv store (moments tid clock events ++ history) := by
  induction events with
  | nil => exact hinv
  | cons event events ih =>
    exact (ih fun e he => hneutral e (List.mem_cons_of_mem _ he)).cons_neutral
      (hneutral event (List.mem_cons_self ..))

theorem head_raiseFence (store : Store) (node : String) (fence : Nat) (item : Item) :
    ((store.raiseFence node fence).head item).seq = (store.head item).seq ∧
      ((store.raiseFence node fence).head item).ref = (store.head item).ref := by
  by_cases hitem : (⟨.node, node⟩ : Item) = item
  · rw [← hitem, Store.head_raiseFence_self]
    exact ⟨rfl, rfl⟩
  · rw [Store.head_raiseFence_of_ne _ _ hitem]
    exact ⟨rfl, rfl⟩

/-- An update that is not fenced is allowed by the head's sequence number alone. -/
theorem allowed_congr {update : HeadUpdate} (hfence : update.fence = none) {head head' : Head}
    (hseq : head'.seq = head.seq) : update.allowed head' = update.allowed head := by
  simp only [HeadUpdate.allowed, hfence, hseq]

/-- A transaction's items are applied one by one, each on a store that keeps the invariant. -/
theorem apply_items {items : List TransactItem} (hinv : JournalInv store history)
    (hok : ItemsOk history items)
    (hallowed : ∀ update, .update update ∈ items → update.allowed (store.head update.item) = true) :
    JournalInv (Store.applyItems items store).1
        (moments tid clock (Store.applyItems items store).2 ++ history) ∧
      StoreGrows store (Store.applyItems items store).1 (Store.applyItems items store).2 := by
  induction items generalizing store history with
  | nil => exact ⟨hinv, .of_snapshot rfl (Nat.le_refl _) (List.forall_mem_nil _)⟩
  | cons item items ih =>
    have hrest : ItemsOk (moments tid clock (store.itemEvents item) ++ history) items :=
      { update := fun update hmem =>
          (hok.update update (List.mem_cons_of_mem _ hmem)).imp_left fun h => h.append _
        distinct := by
          have := hok.distinct
          rw [List.filterMap_cons] at this
          split at this
          · exact this
          · exact (List.nodup_cons.mp this).2 }
    have hstep : JournalInv (store.applyItem item)
          (moments tid clock (store.itemEvents item) ++ history) ∧
        (store.applyItem item).snapshot = store.snapshot ∧
        (store.applyItem item).minted = store.minted ∧
        (∀ event ∈ store.itemEvents item, event.swap = false) ∧
        ∀ update, .update update ∈ items →
          update.allowed ((store.applyItem item).head update.item) = true := by
      have hlater : ∀ update, .update update ∈ items →
          update.allowed (store.head update.item) = true := fun update hmem =>
        hallowed update (List.mem_cons_of_mem _ hmem)
      have hunfenced : ∀ update, .update update ∈ items → update.fence = none := fun update hmem =>
        (hok.update update (List.mem_cons_of_mem _ hmem)).2
      cases item with
      | update update =>
        have hhere := hok.update update (List.mem_cons_self ..)
        refine ⟨hinv.update_head rfl hhere.1 (hallowed update (List.mem_cons_self ..)), rfl, rfl,
          ?_, fun update' hmem => ?_⟩
        · intro event hmem
          simp only [Store.itemEvents, List.mem_singleton] at hmem
          subst hmem
          rfl
        · have hne : update.item ≠ update'.item := by
            intro heq
            have := hok.distinct
            rw [List.filterMap_cons] at this
            refine (List.nodup_cons.mp this).1 (List.mem_filterMap.mpr ⟨_, hmem, ?_⟩)
            simp [TransactItem.updated, heq]
          show update'.allowed ((store.updateHead update).head update'.item) = true
          rw [Store.head_updateHead_of_ne _ hne]
          exact hlater update' hmem
      | checkFence node fence =>
        exact ⟨hinv, rfl, rfl, List.forall_mem_nil _, hlater⟩
      | putRow node row allowed =>
        refine ⟨?_, rfl, rfl, ?_, hlater⟩
        · have hquiet : JournalInv (store.applyItem (.putRow node row allowed)) history :=
            hinv.quiet rfl rfl (fun _ => rfl) (fun _ => rfl) (Nat.le_refl _)
          exact hquiet.cons_neutral rfl
        · intro event hmem
          simp only [Store.itemEvents, List.mem_singleton] at hmem
          subst hmem
          rfl
      | raiseFence node fence =>
        refine ⟨?_, rfl, rfl, ?_, fun update hmem => ?_⟩
        · have hquiet : JournalInv (store.raiseFence node fence) history :=
            hinv.quiet rfl rfl (fun item => (head_raiseFence store node fence item).1)
              (fun item => (head_raiseFence store node fence item).2) (Nat.le_refl _)
          exact hquiet.cons_neutral rfl
        · intro event hmem
          simp only [Store.itemEvents, List.mem_singleton] at hmem
          subst hmem
          rfl
        · show update.allowed ((store.raiseFence node fence).head update.item) = true
          rw [allowed_congr (hunfenced update hmem) (head_raiseFence store node fence _).1]
          exact hlater update hmem
    obtain ⟨hinv', hsnapshot, hminted, hevents, hallowed'⟩ := hstep
    obtain ⟨hfinal, hgrows⟩ := ih hinv' hrest hallowed'
    refine ⟨?_, ?_⟩
    · simpa only [Store.applyItems, moments, List.map_append, List.append_assoc] using hfinal
    · constructor
      · exact hminted ▸ hgrows.minted
      · intro item'
        have hmarks := hgrows.marks item'
        rwa [Store.doc, hsnapshot] at hmarks
      · intro h
        refine (hgrows.unswapped fun event hmem => h event ?_).trans hsnapshot
        exact List.mem_append_left _ hmem
      · intro event hmem hswap
        rcases List.mem_append.mp hmem with hmem | hmem
        · obtain ⟨snapshot, hsome, hle⟩ := hgrows.swapped event hmem hswap
          exact ⟨snapshot, hsome, hminted ▸ hle⟩
        · rw [hevents event hmem] at hswap
          cases hswap

theorem allowed_of_failedItems {items : List TransactItem} (h : store.failedItems items = [])
    {item : TransactItem} (hmem : item ∈ items) : store.itemAllowed item = true := by
  rw [Store.failedItems, List.map_eq_nil_iff, List.filter_eq_nil_iff] at h
  obtain ⟨index, hindex⟩ := List.mem_iff_getElem?.mp hmem
  have := h (item, index) (List.mem_zipIdx_iff_getElem?.mpr hindex)
  simpa using this

/-- **A legitimate request keeps the journal invariant.** -/
theorem serve (hinv : JournalInv store history) {request : AwsRequest}
    (hlegit : AwsLegit tid store history request) (clock : Int) :
    JournalInv (store.serve request).2.1 (moments tid clock (store.serve request).2.2 ++ history) ∧
      StoreGrows store (store.serve request).2.1 (store.serve request).2.2 := by
  -- Most requests leave the journal as it is; at most a neutral event is noted.
  have hquiet : ∀ {store' : Store} {events : List Event}, store'.snapshot = store.snapshot →
      store'.entries = store.entries → store'.heads = store.heads →
      store.minted ≤ store'.minted → (∀ event ∈ events, event.neutral = true) →
      JournalInv store' (moments tid clock events ++ history) ∧ StoreGrows store store' events := by
    intro store' events hsnapshot hentries hheads hminted hneutral
    have hhead : ∀ item, store'.head item = store.head item := fun item => by
      rw [Store.head, hheads, Store.head]
    exact ⟨(hinv.quiet hsnapshot hentries (fun item => by rw [hhead]) (fun item => by rw [hhead])
      hminted).neutral_events hneutral,
      .of_snapshot hsnapshot hminted fun event hmem => Event.swap_of_neutral (hneutral event hmem)⟩
  cases request with
  | putSnapshot doc ifMatch writes =>
    simp only [Store.serve]
    split
    next hmatch =>
      have hok := hlegit hmatch
      refine ⟨hinv.swap rfl hok, Nat.le_succ _, hok.mark_le, fun h => ?_, fun event hmem _ => ?_⟩
      · have := h _ (List.mem_singleton_self _)
        cases this
      · exact ⟨_, rfl, Nat.le_refl _⟩
    next => exact hquiet rfl rfl rfl (Nat.le_refl _) (List.forall_mem_nil _)
  | putEntry entry =>
    refine ⟨hinv.put_entry rfl rfl rfl hlegit, .of_snapshot rfl (Nat.le_succ _) fun event hmem => ?_⟩
    obtain rfl := List.mem_singleton.mp hmem
    rfl
  | deleteEntry key =>
    exact ⟨hinv.delete_entry hlegit, .of_snapshot rfl (Nat.le_refl _) (List.forall_mem_nil _)⟩
  | updateHead update =>
    simp only [Store.serve]
    split
    next hallowed =>
      refine ⟨hinv.update_head rfl hlegit hallowed, .of_snapshot rfl (Nat.le_refl _) fun event hmem => ?_⟩
      obtain rfl := List.mem_singleton.mp hmem
      rfl
    next => exact hquiet rfl rfl rfl (Nat.le_refl _) (List.forall_mem_nil _)
  | transact items =>
    simp only [Store.serve]
    split
    next hfailed =>
      exact hinv.apply_items hlegit fun update hmem => allowed_of_failedItems hfailed hmem
    next => exact hquiet rfl rfl rfl (Nat.le_refl _) (List.forall_mem_nil _)
  | getSnapshot => exact hquiet rfl rfl rfl (Nat.le_refl _) (by simp [Store.serve, Event.neutral])
  | headSnapshot => exact hquiet rfl rfl rfl (Nat.le_refl _) (by simp [Store.serve])
  | listPage after upto =>
    exact hquiet rfl rfl rfl (Nat.le_refl _) (by simp [Store.serve, Event.neutral])
  | getEntry key => exact hquiet rfl rfl rfl (Nat.le_refl _) (by simp [Store.serve])
  | getHead item => exact hquiet rfl rfl rfl (Nat.le_refl _) (by simp [Store.serve, Event.neutral])
  | getRow node => exact hquiet rfl rfl rfl (Nat.le_refl _) (by simp [Store.serve])
  | getLease leaseId => exact hquiet rfl rfl rfl (Nat.le_refl _) (by simp [Store.serve])
  | putLease owner fence expires =>
    exact hquiet rfl rfl rfl (Nat.le_succ _) (by simp [Store.serve, Event.neutral])
  | extendLease leaseId owner fence expires =>
    simp only [Store.serve]
    split
    · split <;> exact hquiet rfl rfl rfl (Nat.le_refl _) (by simp [Event.neutral])
    · exact hquiet rfl rfl rfl (Nat.le_refl _) (by simp)
  | revokeLease leaseId owner stale =>
    simp only [Store.serve]
    split
    · split <;> exact hquiet rfl rfl rfl (Nat.le_refl _) (by simp [Event.neutral])
    · exact hquiet rfl rfl rfl (Nat.le_refl _) (by simp)
  | deleteLease leaseId owner =>
    simp only [Store.serve]
    split
    · split <;> exact hquiet rfl rfl rfl (Nat.le_refl _) (by simp [Event.neutral])
    · exact hquiet rfl rfl rfl (Nat.le_refl _) (by simp)
  | deleteRow node owner leaseId =>
    simp only [Store.serve]
    split
    · split <;> exact hquiet rfl rfl rfl (Nat.le_refl _) (by simp [Event.neutral])
    · exact hquiet rfl rfl rfl (Nat.le_refl _) (by simp)
  | unlockRow node =>
    exact hquiet rfl rfl rfl (Nat.le_refl _) (by simp [Store.serve, Event.neutral])
  | bumpFence amount seed => exact hquiet rfl rfl rfl (Nat.le_refl _) (by simp [Store.serve])
  | readFence => exact hquiet rfl rfl rfl (Nat.le_refl _) (by simp [Store.serve])

end JournalInv

namespace View

variable {view : View}

theorem BehindOk.absorb (hbehind : view.BehindOk) (item : Item) (seq : Nat) (value : ItemValue) :
    (view.absorb item seq value).BehindOk := by
  unfold View.absorb
  dsimp only
  split
  · exact hbehind
  next hseq =>
    split
    · exact hbehind
    · intro stack seq' hbelow
      simp only [Std.ExtTreeMap.getElem?_erase] at hbelow
      split at hbelow
      · cases hbelow
      next hstack =>
        rw [Std.compare_eq_iff_eq] at hstack
        simp only [Std.ExtTreeMap.getD_insert, Std.compare_eq_iff_eq, hstack, ↓reduceIte]
        exact hbehind stack seq' hbelow
    · exact hbehind

theorem absorb_node (view : View) {item : Item} (hkind : item.kind = .node) (seq : Nat)
    (value : ItemValue) :
    (view.absorb item seq value).epoch = view.epoch ∧
      (view.absorb item seq value).outSeq = view.outSeq := by
  obtain ⟨kind, name⟩ := item
  obtain rfl : kind = .node := hkind
  unfold View.absorb
  dsimp only
  split
  · exact ⟨rfl, rfl⟩
  · cases value <;> exact ⟨rfl, rfl⟩

theorem BehindOk.replay {unseen : List (Item × Nat × ItemValue)} (hbehind : view.BehindOk) :
    (unseen.foldl (fun view (item, seq, value) => view.absorb item seq value) view).BehindOk := by
  induction unseen generalizing view with
  | nil => exact hbehind
  | cons commit unseen ih => exact ih (hbehind.absorb _ _ _)

theorem behindOk_of (cut : Option Cut) : (View.of cut).BehindOk := by
  intro stack seq h
  cases cut <;> simp [View.of] at h

end View

namespace Memory

variable {memory : Memory} {tid : Tid} {op : MemoryOp}

theorem serve_behind (hbehind : ∀ view, memory.view = some view → view.BehindOk)
    (hlegit : MemoryLegit tid memory op) :
    ∀ view, (memory.serve op).2.1.view = some view → view.BehindOk := by
  intro view hview
  cases op with
  | installView fresh =>
    simp only [serve] at hview
    split at hview
    · exact hbehind view hview
    · cases hview
      exact View.BehindOk.replay hlegit
  | dropView => cases hview
  | dropViewIf stale =>
    simp only [serve] at hview
    split at hview
    · cases hview
    · exact hbehind view hview
  | resetViews => cases hview
  | record item seq value =>
    simp only [serve] at hview
    split at hview
    next current hcurrent =>
      cases hview
      exact (hbehind current hcurrent).absorb _ _ _
    next => exact hbehind view hview
  | absorb item seq value =>
    obtain ⟨current, hcurrent, rfl⟩ := Option.map_eq_some_iff.mp hview
    exact (hbehind current hcurrent).absorb _ _ _
  | setBehind stack seq =>
    obtain ⟨current, hcurrent, rfl⟩ := Option.map_eq_some_iff.mp hview
    intro stack' seq' hbelow
    simp only [Std.ExtTreeMap.getElem?_insert] at hbelow
    split at hbelow
    next hstack =>
      rw [Std.compare_eq_iff_eq] at hstack
      cases hbelow
      subst hstack
      exact hlegit.2 current hcurrent
    next => exact hbehind current hcurrent stack' seq' hbelow
  | _ => exact hbehind view hview

/-- Threads other than the main one keep a view that knows the snapshot. -/
theorem serve_kept (hthread : tid.thread ≠ 0) (hlegit : MemoryLegit tid memory op) {view : View}
    (hview : memory.view = some view) (hepoch : view.epoch ≠ none) :
    ∃ view', (memory.serve op).2.1.view = some view' ∧ view'.epoch ≠ none ∧
      view'.outSeq = view.outSeq := by
  have hsame : (memory.serve op).2.1.view = memory.view →
      ∃ view', (memory.serve op).2.1.view = some view' ∧ view'.epoch ≠ none ∧
        view'.outSeq = view.outSeq := fun h => ⟨view, h.trans hview, hepoch, rfl⟩
  cases op with
  | installView fresh =>
    apply hsame
    simp only [serve, hview]
  | dropView => exact absurd hlegit hthread
  | dropViewIf stale =>
    apply hsame
    simp only [serve]
    rw [if_neg]
    rw [hview]
    rintro ⟨⟩
    exact hlegit.elim hthread hepoch
  | resetViews => exact absurd hlegit hthread
  | record item seq value =>
    have hkind : item.kind = .node := hlegit.resolve_left hthread
    obtain ⟨hepoch', hseq'⟩ := view.absorb_node hkind seq value
    refine ⟨view.absorb item seq value, ?_, ?_, hseq'⟩
    · simp only [serve, hview]
    · rw [hepoch']
      exact hepoch
  | absorb item seq value => exact absurd hlegit hthread
  | setBehind stack seq => exact absurd hlegit.1 hthread
  | _ => exact hsame rfl

/-- All a memory operation leaves in the history is a grant. -/
theorem serve_granted (memory : Memory) (op : MemoryOp) {event : Event}
    (hmem : event ∈ (memory.serve op).2.2) :
    ∃ owner grant scope, op = .grantScope owner grant scope ∧
      event = .granted owner grant.leaseId scope := by
  cases op with
  | installView fresh =>
    simp only [serve] at hmem
    split at hmem <;> cases hmem
  | grantScope owner grant scope => exact ⟨owner, grant, scope, rfl, List.mem_singleton.mp hmem⟩
  | _ => cases hmem

theorem serve_neutral (memory : Memory) (op : MemoryOp) :
    ∀ event ∈ (memory.serve op).2.2, event.neutral = true := by
  intro event hmem
  obtain ⟨owner, grant, scope, -, rfl⟩ := memory.serve_granted op hmem
  rfl

end Memory

namespace World

variable {world : World} {tid : Tid} {choice : Choice} {request : Request}

theorem grows_moments {store' : Store} {memory' : Nat → Memory} {clock : Int} {events : List Event}
    (h : StoreGrows world.store store' events) :
    Grows world ⟨store', memory', moments tid clock events ++ world.history⟩
      (moments tid clock events) where
  history := rfl
  minted := h.minted
  marks := h.marks
  unswapped hmoments := h.unswapped fun event hmem =>
    hmoments ⟨tid, clock, event⟩ (List.mem_map.mpr ⟨event, hmem, rfl⟩)
  swapped moment hmem hswap := by
    obtain ⟨event, hevent, rfl⟩ := List.mem_map.mp hmem
    exact h.swapped event hevent hswap

theorem mem_moments {clock : Int} {events : List Event} {moment : Moment}
    (hmem : moment ∈ moments tid clock events) : moment.task = tid ∧ moment.event ∈ events := by
  obtain ⟨event, hevent, rfl⟩ := List.mem_map.mp hmem
  exact ⟨rfl, hevent⟩

/-- What serving a legitimate request does: the invariant stays, and the task adds its own moments. -/
theorem serve_keeps (hinv : WorldInv world) (hlegit : Legit tid world request)
    (choice : Choice) :
    WorldInv (world.serve tid choice request).2 ∧
      ∃ more, Grows world (world.serve tid choice request).2 more ∧
        ∀ moment ∈ more, moment.task = tid ∧ request.Leaves moment.event := by
  have hnothing : WorldInv world ∧
      ∃ more, Grows world world more ∧
        ∀ moment ∈ more, moment.task = tid ∧ request.Leaves moment.event :=
    ⟨hinv, [], .refl world, fun _ h => nomatch h⟩
  cases request with
  | aws request =>
    obtain ⟨hjournal, hgrows⟩ := hinv.journal.serve hlegit (world.clock tid)
    have hafter : WorldInv (world.after tid request) ∧
        ∃ more, Grows world (world.after tid request) more ∧
          ∀ moment ∈ more, moment.task = tid ∧ (Request.aws request).Leaves moment.event :=
      ⟨⟨hjournal, hinv.behind⟩, _, grows_moments hgrows, fun moment hmem =>
        (mem_moments hmem).imp_right fun hevent => ⟨world.store, hevent⟩⟩
    simp only [World.serve, World.serveAws]
    cases choice.fate with
    | answered => exact hafter
    | lost => exact hafter
    | failed => exact hnothing
    | transient => exact hnothing
  | memory op =>
    have hneutral := (world.memory tid.process).serve_neutral op
    refine ⟨⟨hinv.journal.neutral_events hneutral, fun process view hview => ?_⟩,
      _, grows_moments (.of_snapshot rfl (Nat.le_refl _) fun event hmem =>
        Event.swap_of_neutral (hneutral event hmem)), fun moment hmem =>
          (mem_moments hmem).imp_right fun hevent => ⟨world.memory tid.process, hevent⟩⟩
    by_cases hprocess : process = tid.process
    · subst hprocess
      simp only [World.serve, World.serveMemory, Function.update_self] at hview
      exact Memory.serve_behind (hinv.behind _) hlegit view hview
    · simp only [World.serve, World.serveMemory, Function.update_of_ne hprocess] at hview
      exact hinv.behind process view hview
  | uuid =>
    refine ⟨⟨hinv.journal.quiet rfl rfl (fun _ => rfl) (fun _ => rfl) (Nat.le_succ _), hinv.behind⟩,
      [], ?_, fun _ h => nomatch h⟩
    exact ⟨rfl, Nat.le_succ _, fun _ => Nat.le_refl _, fun _ => rfl, fun _ h => nomatch h⟩
  | schedule => exact hnothing
  | paging => exact hnothing

/-- Another task's request stays within what a task relies on. -/
theorem serve_rely {other : Tid} (hne : other ≠ tid) (hinv : WorldInv world)
    (hlegit : Legit tid world request) : Rely other world (world.serve tid choice request).2 := by
  obtain ⟨-, more, hgrows, htask⟩ := serve_keeps hinv hlegit choice
  refine ⟨⟨more, hgrows, fun moment hmem => (htask moment hmem).1 ▸ hne.symm⟩, fun hmain => ?_⟩
  have hmemory : (world.serve tid choice request).2.memory other.process =
      world.memory other.process →
      ViewKept other.process world (world.serve tid choice request).2 := by
    intro hsame view hview hepoch
    exact ⟨view, by rw [hsame, hview], hepoch, rfl⟩
  cases request with
  | aws request =>
    apply hmemory
    simp only [World.serve, World.serveAws]
    cases choice.fate <;> rfl
  | memory op =>
    by_cases hprocess : other.process = tid.process
    · intro view hview hepoch
      have hthread : tid.thread ≠ 0 := by
        intro hthread
        apply hne
        cases other; cases tid
        simp_all
      simp only [World.serve, World.serveMemory, hprocess, Function.update_self]
      rw [hprocess] at hview
      exact Memory.serve_kept hthread hlegit hview hepoch
    · apply hmemory
      simp only [World.serve, World.serveMemory, Function.update_of_ne hprocess]
  | uuid => exact hmemory rfl
  | schedule => exact hmemory rfl
  | paging => exact hmemory rfl

theorem env_keeps (event : Surroundings) (hinv : WorldInv world) : WorldInv (world.env event) := by
  cases event with
  | tick process amount =>
    refine ⟨hinv.journal, fun process' view hview => ?_⟩
    by_cases hprocess : process' = process
    · subst hprocess
      simp only [World.env, Function.update_self] at hview
      exact hinv.behind process' view hview
    · simp only [World.env, Function.update_of_ne hprocess] at hview
      exact hinv.behind process' view hview
  | bind process lease =>
    refine ⟨hinv.journal, fun process' view hview => ?_⟩
    by_cases hprocess : process' = process
    · subst hprocess
      simp only [World.env, Function.update_self] at hview
      exact hinv.behind process' view hview
    · simp only [World.env, Function.update_of_ne hprocess] at hview
      exact hinv.behind process' view hview

theorem env_rely (tid : Tid) (event : Surroundings) (world : World) :
    Rely tid world (world.env event) := by
  have hgrows : Grows world (world.env event) [] := by
    cases event <;>
      exact ⟨rfl, Nat.le_refl _, fun _ => Nat.le_refl _, fun _ => rfl, fun _ h => nomatch h⟩
  refine ⟨⟨[], hgrows, fun _ h => nomatch h⟩, fun _ view hview hepoch => ?_⟩
  refine ⟨view, ?_, hepoch, rfl⟩
  cases event with
  | tick process amount =>
    by_cases hprocess : tid.process = process
    · subst hprocess
      simpa only [World.env, Function.update_self] using hview
    · simpa only [World.env, Function.update_of_ne hprocess] using hview
  | bind process lease =>
    by_cases hprocess : tid.process = process
    · subst hprocess
      simpa only [World.env, Function.update_self] using hview
    · simpa only [World.env, Function.update_of_ne hprocess] using hview

end World

end Atlantide
