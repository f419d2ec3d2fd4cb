import Atlantide.State.S3.JournalInvariant

/-! # The protocol every backend keeps to

`Legit` is the condition a task has to meet when one of its requests is served. Whatever the
interleaving, legitimate requests keep the world's invariant, only add to the history, never lower a
watermark and never give a new snapshot an old ETag: that is what one task may rely on of the
others. -/

namespace Atlantide

open History

/-- The item whose head the transaction item updates. -/
def TransactItem.updated : TransactItem → Option Item
  | .update head => some head.item
  | _ => none

/-- The node whose lock row the transaction item writes. -/
def TransactItem.claimed : TransactItem → Option String
  | .putRow node _ _ => some node
  | _ => none

/-- The node whose head's fence the transaction item raises. -/
def TransactItem.raised : TransactItem → Option String
  | .raiseFence node _ => some node
  | _ => none

/-- The commits of a transaction's updates are on distinct items, each as a single update's is. -/
structure ItemsOk (history : History) (items : List TransactItem) : Prop where
  update : ∀ update, .update update ∈ items → UpdateOk history update ∧ update.fence = none
  distinct : (items.filterMap TransactItem.updated).Nodup

/-- A stack's head is behind the view only at a sequence number the view has passed. -/
def View.BehindOk (view : View) : Prop :=
  ∀ stack seq, view.outBehind[stack]? = some seq → seq ≤ view.outSeq.getD stack 0

/-- Threads other than the main one only add node writes to the view, and drop it only while it knows
of no snapshot. -/
def MemoryLegit (tid : Tid) (memory : Memory) : MemoryOp → Prop
  | .installView fresh => fresh.BehindOk
  | .dropView => tid.thread = 0
  | .dropViewIf view => tid.thread = 0 ∨ view.epoch = none
  | .resetViews => tid.thread = 0
  | .record item _ _ => tid.thread = 0 ∨ item.kind = .node
  | .absorb _ _ _ => tid.thread = 0
  | .setBehind stack seq =>
    tid.thread = 0 ∧ ∀ view, memory.view = some view → seq ≤ view.outSeq.getD stack 0
  | _ => True

def AwsLegit (tid : Tid) (store : Store) (history : History) : AwsRequest → Prop
  | .putSnapshot doc ifMatch writes =>
    store.snapshot.map Snapshot.etag = ifMatch → SwapOk tid store history doc writes
  | .putEntry entry => entry.WithinStack
  | .deleteEntry key => key.seq ≤ watermark store.doc key.item
  | .updateHead update => UpdateOk history update
  | .transact items => ItemsOk history items
  | _ => True

def Legit (tid : Tid) (world : World) : Request → Prop
  | .aws request => AwsLegit tid world.store world.history request
  | .memory op => MemoryLegit tid (world.memory tid.process) op
  | _ => True

structure WorldInv (world : World) : Prop where
  journal : JournalInv world.store world.history
  behind : ∀ process view, (world.memory process).view = some view → view.BehindOk

/-- Serving the request, in some state, leaves the event. -/
def Request.Leaves (event : Event) : Request → Prop
  | .aws request => ∃ store : Store, event ∈ (store.serve request).2.2
  | .memory op => ∃ memory : Memory, event ∈ (memory.serve op).2.2
  | _ => False

def Event.swap : Event → Bool
  | .swapped .. => true
  | _ => false

/-- `more` is what happened between the two worlds. -/
structure Grows (world world' : World) (more : History) : Prop where
  history : world'.history = more ++ world.history
  minted : world.store.minted ≤ world'.store.minted
  marks : ∀ item, watermark world.store.doc item ≤ watermark world'.store.doc item
  unswapped : (∀ moment ∈ more, moment.event.swap = false) →
    world'.store.snapshot = world.store.snapshot
  swapped : ∀ moment ∈ more, moment.event.swap = true →
    ∃ snapshot, world'.store.snapshot = some snapshot ∧ world.store.minted ≤ snapshot.etag

def Evolves (world world' : World) : Prop := ∃ more, Grows world world' more

/-- A process's view, once it knows the snapshot, is not dropped, and its output sequence numbers stay. -/
def ViewKept (process : Nat) (world world' : World) : Prop :=
  ∀ view, (world.memory process).view = some view → view.epoch ≠ none →
    ∃ view', (world'.memory process).view = some view' ∧ view'.epoch ≠ none ∧
      view'.outSeq = view.outSeq

/-- What a task may rely on of everything else. -/
def Rely (tid : Tid) (world world' : World) : Prop :=
  (∃ more, Grows world world' more ∧ ∀ moment ∈ more, moment.task ≠ tid) ∧
    (tid.thread = 0 → ViewKept tid.process world world')

namespace Grows

variable {world world' world'' : World} {more more' : History}

theorem refl (world : World) : Grows world world [] where
  history := rfl
  minted := Nat.le_refl _
  marks _ := Nat.le_refl _
  unswapped _ := rfl
  swapped moment h := by cases h

theorem trans (hfirst : Grows world world' more) (hthen : Grows world' world'' more') :
    Grows world world'' (more' ++ more) where
  history := by rw [hthen.history, hfirst.history, List.append_assoc]
  minted := Nat.le_trans hfirst.minted hthen.minted
  marks item := Nat.le_trans (hfirst.marks item) (hthen.marks item)
  unswapped h := by
    rw [hthen.unswapped fun moment hmem => h moment (List.mem_append_left _ hmem),
      hfirst.unswapped fun moment hmem => h moment (List.mem_append_right _ hmem)]
  swapped moment hmem hswap := by
    by_cases hlater : ∃ later ∈ more', later.event.swap = true
    · obtain ⟨later, hlater, hswap'⟩ := hlater
      obtain ⟨snapshot, hsnapshot, hle⟩ := hthen.swapped later hlater hswap'
      exact ⟨snapshot, hsnapshot, Nat.le_trans hfirst.minted hle⟩
    · have hnone : ∀ later ∈ more', later.event.swap = false := fun later h =>
        Bool.eq_false_iff.mpr fun hswap' => hlater ⟨later, h, hswap'⟩
      rcases List.mem_append.mp hmem with hmem | hmem
      · rw [hnone moment hmem] at hswap
        cases hswap
      · obtain ⟨snapshot, hsnapshot, hle⟩ := hfirst.swapped moment hmem hswap
        exact ⟨snapshot, by rw [hthen.unswapped hnone, hsnapshot], hle⟩

/-- While the snapshot keeps its ETag nothing swapped it. -/
theorem same_snapshot (hgrows : Grows world world' more) (hinv : WorldInv world)
    {snapshot snapshot' : Snapshot} (hsnapshot : world.store.snapshot = some snapshot)
    (hsnapshot' : world'.store.snapshot = some snapshot') (hetag : snapshot'.etag = snapshot.etag) :
    snapshot' = snapshot ∧ ∀ moment ∈ more, moment.event.swap = false := by
  have hnone : ∀ moment ∈ more, moment.event.swap = false := by
    intro moment hmem
    cases hswap : moment.event.swap with
    | false => rfl
    | true =>
      obtain ⟨newer, hnewer, hle⟩ := hgrows.swapped moment hmem hswap
      rw [hsnapshot', Option.some.injEq] at hnewer
      subst hnewer
      have := hinv.journal.etag_minted snapshot hsnapshot
      omega
  refine ⟨?_, hnone⟩
  rw [hgrows.unswapped hnone, hsnapshot, Option.some.injEq] at hsnapshot'
  exact hsnapshot'.symm

end Grows

theorem ViewKept.refl (process : Nat) (world : World) : ViewKept process world world :=
  fun view hview hepoch => ⟨view, hview, hepoch, rfl⟩

theorem ViewKept.trans {process : Nat} {world world' world'' : World}
    (hfirst : ViewKept process world world') (hthen : ViewKept process world' world'') :
    ViewKept process world world'' := by
  intro view hview hepoch
  obtain ⟨view', hview', hepoch', hseq'⟩ := hfirst view hview hepoch
  obtain ⟨view'', hview'', hepoch'', hseq''⟩ := hthen view' hview' hepoch'
  exact ⟨view'', hview'', hepoch'', hseq''.trans hseq'⟩

theorem Evolves.refl (world : World) : Evolves world world := ⟨[], .refl world⟩

theorem Evolves.trans {world world' world'' : World} (hfirst : Evolves world world')
    (hthen : Evolves world' world'') : Evolves world world'' := by
  obtain ⟨more, hfirst⟩ := hfirst
  obtain ⟨more', hthen⟩ := hthen
  exact ⟨more' ++ more, hfirst.trans hthen⟩

theorem Evolves.suffix {world world' : World} (h : Evolves world world') :
    world.history <:+ world'.history :=
  let ⟨more, hgrows⟩ := h
  ⟨more, hgrows.history.symm⟩

theorem Rely.refl (tid : Tid) (world : World) : Rely tid world world :=
  ⟨⟨[], .refl world, fun _ h => nomatch h⟩, fun _ => .refl _ _⟩

theorem Rely.trans {tid : Tid} {world world' world'' : World} (hfirst : Rely tid world world')
    (hthen : Rely tid world' world'') : Rely tid world world'' := by
  obtain ⟨⟨more, hgrows, htask⟩, hview⟩ := hfirst
  obtain ⟨⟨more', hgrows', htask'⟩, hview'⟩ := hthen
  refine ⟨⟨more' ++ more, hgrows.trans hgrows', fun moment hmem => ?_⟩,
    fun hmain => (hview hmain).trans (hview' hmain)⟩
  exact (List.mem_append.mp hmem).elim (htask' moment) (htask moment)

theorem Rely.evolves {tid : Tid} {world world' : World} (h : Rely tid world world') :
    Evolves world world' :=
  let ⟨more, hgrows, _⟩ := h.1
  ⟨more, hgrows⟩

end Atlantide
