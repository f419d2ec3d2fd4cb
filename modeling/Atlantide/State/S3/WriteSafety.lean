import Atlantide.State.S3.FoldSafety

/-! # The backends' writes keep to the protocol -/

namespace Atlantide

open Interleaving History

variable {tid : Tid} {world : World}

/-- Nothing is asked of the outcome. -/
abbrev anyway {α : Type} : World → Except Error α → Prop := fun _ _ => True

namespace Snapshots

/-- A first, empty snapshot holds what there was without one. -/
theorem empty_ok (hinv : WorldInv world) (hnone : world.store.snapshot = none) (epoch : Nat) :
    SwapOk tid world.store world.history { epoch } [] := by
  have hdoc : world.store.doc = {} := by rw [Store.doc, hnone]; rfl
  have hbulk : ∀ item, bulkCommit tid [] item world.history = none := by
    intro item
    unfold bulkCommit
    cases item.kind with
    | output => rfl
    | node => cases lastRead tid item world.history <;> rfl
  have hmark : ∀ item, watermark { epoch } item = 0 := by
    rintro ⟨kind, name⟩
    cases kind <;> simp
  have hmark' : ∀ item, watermark world.store.doc item = 0 := by
    rintro ⟨kind, name⟩
    rw [hdoc]
    cases kind <;> simp
  constructor
  · intro item
    rw [hmark']
    exact Nat.zero_le _
  · intro item
    rw [hmark]
    exact Nat.zero_le _
  · intro item _ hnewest
    rw [hmark, ← hmark' item] at hnewest
    rw [hinv.journal.effective_of_eq hnewest, hdoc]
    obtain ⟨kind, name⟩ := item
    cases kind <;> rfl
  · intro item time value hwrite
    rw [hbulk] at hwrite
    cases hwrite
  · intro item time value hwrite
    rw [hbulk] at hwrite
    cases hwrite

theorem safe_ensure : SafeTask tid Snapshots.ensure world anyway := by
  unfold Snapshots.ensure
  generalize limits.casAttempts = attempts
  induction attempts generalizing world with
  | zero => trivial
  | succ attempts ih =>
    have hget : SafeTask tid Snapshots.get world anyway :=
      safe_send (fun _ => True) ⟨fun _ => rfl, rfl⟩ (fun _ _ _ _ _ => trivial)
        (fun _ _ _ => trivial) (fun _ _ _ _ => ⟨trivial, trivial⟩) (fun _ _ => trivial) trivial
    refine Safe.bind (hget.mono ?_)
    rintro world' (error | found) -
    · trivial
    cases found with
    | some snapshot => trivial
    | none =>
      intro world'' _ _
      refine ⟨trivial, fun choice _ => ?_⟩
      change SafeTask tid (Prog.bind (send _) _) _ _
      refine Safe.bind (safe_send (fun _ => True) ⟨fun _ => rfl, rfl⟩ (fun _ _ _ _ _ => trivial)
        (fun a _ hinv hnone => empty_ok hinv (Option.map_eq_none_iff.mp hnone) _) ?_
        (fun _ _ => trivial) trivial)
      intro a _ _ _
      refine ⟨trivial, ?_⟩
      dsimp only
      split
      · trivial
      · exact ih

/-- A swap of the snapshot that is legitimate whenever the ETag is the expected one. -/
theorem safe_put {doc : StateDocument} {ifMatch : Option Nat}
    {writes : List (String × Option StateNode)} (known : World → Prop)
    (hstable : ∀ a b, known a → Keeps tid (fun event => event.swap = true) a b → known b)
    (hlegit : ∀ a, known a → WorldInv a → a.store.snapshot.map Snapshot.etag = ifMatch →
      SwapOk tid a.store a.history doc writes)
    (hknown : known world) :
    SafeTask tid (Snapshots.put doc ifMatch writes) world (onOk fun world' _ =>
      ∀ item, watermark doc item ≤ watermark world'.store.doc item) := by
  refine Safe.bind (safe_send known ⟨fun _ => rfl, rfl⟩
    (fun a b hknown' hrely _ => hstable a b hknown' (.of_rely hrely)) hlegit ?_
    (fun _ _ => trivial) hknown)
  intro a hknown' hinv _
  have hkeeps : Keeps tid (fun event => event.swap = true) a
      (a.after tid (.putSnapshot doc ifMatch writes)) := by
    refine Keeps.of_serve (.aws (.putSnapshot doc ifMatch writes)) {} hinv (hlegit a hknown' hinv) ?_
    rintro event ⟨store, hmem⟩
    simp only [Store.serve] at hmem
    split at hmem
    · rw [List.mem_singleton.mp hmem]
      rfl
    · cases hmem
  refine ⟨hstable _ _ hknown' hkeeps, ?_⟩
  by_cases hetag : a.store.snapshot.map Snapshot.etag = ifMatch
  · have hserve : (a.store.serve (.putSnapshot doc ifMatch writes)).1 = some ⟨doc, a.store.minted⟩ := by
      simp only [Store.serve, if_pos hetag]
      rfl
    have hdoc : (a.after tid (.putSnapshot doc ifMatch writes)).store.doc = doc := by
      simp only [World.after, Store.serve, if_pos hetag, Store.doc, Option.map_some, Option.getD_some]
    rw [hserve]
    intro item
    exact Nat.le_of_eq (congrArg (watermark · item) hdoc.symm)
  · have hserve : (a.store.serve (.putSnapshot doc ifMatch writes)).1 = none := by
      simp only [Store.serve, if_neg hetag]
      rfl
    rw [hserve]
    trivial

/-- The same, caught: where the swap went through, its watermarks stay. -/
theorem safe_tryPut {doc : StateDocument} {ifMatch : Option Nat}
    {writes : List (String × Option StateNode)} (known : World → Prop)
    (hstable : ∀ a b, known a → Keeps tid (fun event => event.swap = true) a b → known b)
    (hlegit : ∀ a, known a → WorldInv a → a.store.snapshot.map Snapshot.etag = ifMatch →
      SwapOk tid a.store a.history doc writes)
    (hknown : known world) :
    SafeTask tid (Snapshots.put doc ifMatch writes).outcome world (onOk fun world' outcome =>
      ∀ snapshot, outcome = .ok snapshot →
        ∀ item, watermark doc item ≤ watermark world'.store.doc item) := by
  refine Safe.outcome ((safe_put known hstable hlegit hknown).mono ?_)
  rintro world' (error | snapshot) hmarks
  · exact fun snapshot h => nomatch h
  · exact fun _ _ => hmarks

end Snapshots

namespace Maintenance

/-- Deleting folded entries is legitimate, whenever it comes to it. -/
theorem safe_delete {keys : List EntryKey} (hinv : WorldInv world)
    (hfolded : ∀ key ∈ keys, key.seq ≤ watermark world.store.doc key.item) :
    SafeTask tid (delete keys) world anyway := by
  have hdeleted : SafeTask tid (parallel (fun key =>
      (.ask (.aws (.deleteEntry key)) fun reply => .ret reply.isSome : Backend Bool)) keys) world _ :=
    safe_parallel (fun key request => request = .aws (.deleteEntry key)) (fun _ _ => True) (fun _ => anyway)
    (fun _ _ _ _ _ _ _ _ _ _ _ => trivial) (fun _ _ _ _ _ _ _ => trivial) hinv ?_
  · exact Safe.bind (hdeleted.mono fun _ outcome _ => by cases outcome <;> trivial)
  · intro key hkey world' hrely _ world'' hkeeps _
    obtain ⟨more, hgrows⟩ := hrely.evolves
    obtain ⟨more', hgrows', -⟩ := hkeeps
    refine ⟨⟨rfl, ?_⟩, fun _ _ => trivial⟩
    exact Nat.le_trans (hfolded key hkey)
      (Nat.le_trans (hgrows.marks key.item) (hgrows'.marks key.item))

theorem mem_garbage {cut : Cut} (hown : ∀ item key, key ∈ cut.listed.getD item [] → key.item = item)
    {folded : StateDocument} {key : EntryKey} (hkey : key ∈ cut.garbage folded) :
    key.seq ≤ watermark folded key.item := by
  obtain ⟨⟨item, entries⟩, hpair, hkey⟩ := List.mem_flatMap.mp hkey
  obtain ⟨hmem, hle⟩ := List.mem_filter.mp hkey
  have hlisted : cut.listed[item]? = some entries :=
    Std.ExtTreeMap.mem_toList_iff_getElem?_eq_some.mp hpair
  have hitem : key.item = item := hown item key (by
    rw [Std.ExtTreeMap.getD_eq_getD_getElem?, hlisted]
    exact hmem)
  rw [hitem]
  exact of_decide_eq_true hle

theorem only_readFenceCounter :
    Fences.readFenceCounter.Only fun request => request = .aws .readFence :=
  Prog.Only.catching (Prog.Only.bind (only_send rfl) fun _ => trivial) fun _ => trivial

theorem legit_readFence {world : World} {request : Request} (_ : WorldInv world)
    (h : request = .aws .readFence) : Legit tid world request := by
  subst h
  trivial

/-- An unchanged fold has the snapshot's watermarks. -/
theorem mark_of_unchanged {cut : Cut} {counter : Nat} (h : changed cut (cut.fold counter) = false)
    (item : Item) : watermark (cut.fold counter) item = watermark cut.doc item := by
  simp only [changed, Bool.or_eq_false_iff, decide_eq_false_iff_not, ne_eq, not_not] at h
  have hempty : cut.effective[item]? = none := by
    have hsize : cut.effective = ∅ := Std.ExtTreeMap.eq_empty_iff_size_eq_zero.mpr h.1.1
    rw [hsize, Std.ExtTreeMap.getElem?_empty]
  rw [Cut.fold_watermark, hempty]
  rfl

theorem safe_compact (hinv : WorldInv world) : SafeTask tid compact world anyway := by
  refine SafeTask.andThen (Reads.safe_cut hinv) hinv ?_ fun _ _ => trivial
  rintro world' read - hinv' ⟨-, hread⟩
  cases read with
  | none => trivial
  | some cut =>
    obtain ⟨start, -, hseen⟩ := hread cut rfl
    refine SafeTask.andThen (SafeTask.of_only only_readFenceCounter fun _ _ => legit_readFence) hinv'
      ?_ fun _ _ => trivial
    intro world'' counter hevolves hinv'' _
    have hsound : CutSound cut start world'' := hseen.toCutSound.evolve hevolves
    dsimp only
    split
    · trivial
    split
    · refine SafeTask.andThen (Snapshots.safe_tryPut (fun a => CutSound cut start a)
        (fun a b h hkeeps => h.evolve hkeeps.evolves)
        (fun a h hinva hetag => h.fold_ok counter hinva tid hetag) hsound) hinv'' ?_
        fun _ _ => trivial
      rintro last (error | snapshot) - hinvl hmarks
      · cases error <;> trivial
      · refine SafeTask.andThen (safe_delete hinvl fun key hkey => ?_) hinvl (fun _ _ _ _ _ => trivial)
          fun _ _ => trivial
        exact Nat.le_trans (mem_garbage hseen.own hkey) (hmarks snapshot rfl key.item)
    next hsame =>
      refine SafeTask.andThen (safe_delete hinv'' fun key hkey => ?_) hinv'' (fun _ _ _ _ _ => trivial)
        fun _ _ => trivial
      obtain ⟨more, hgrows⟩ := hsound.evolves
      have hstart : start.store.doc = cut.doc := by rw [Store.doc, hsound.snapshot]; rfl
      have hmark := hgrows.marks key.item
      rw [hstart, ← mark_of_unchanged (Bool.eq_false_iff.mpr hsame)] at hmark
      exact Nat.le_trans (mem_garbage hseen.own hkey) hmark

end Maintenance

end Atlantide
