import Atlantide.State.JournalFold
import Atlantide.State.S3.History

/-! # The journal invariant

Each head names the newest committed update of its item, each snapshot watermark is at or below it,
an entry leaves the journal only once its watermark has passed it, and the effective value of every
item is what its last commit wrote. Five things can happen to the journal (an entry is stored or
deleted, a head is updated, the snapshot is swapped, or nothing the invariant speaks of changes);
each keeps the invariant under the condition a backend has to meet before asking for it. -/

namespace Atlantide

open History

structure JournalInv (store : Store) (history : History) : Prop where
  head_seq : ∀ item, (store.head item).seq = (newest item history).map HeadUpdate.seq
  head_ref : ∀ item, (store.head item).ref = (newest item history).map HeadUpdate.ref
  rise : CommitsRise history
  stored_once : StoredOnce history
  stored_own : ∀ key entry, Stored history key entry →
    entry.item = key.item ∧ entry.WithinStack ∧ key.nonce < store.minted
  entries_stored : ∀ key entry, store.entries[key]? = some entry → Stored history key entry
  kept : ∀ key entry, Stored history key entry →
    store.entries[key]? = some entry ∨ key.seq ≤ watermark store.doc key.item
  marks : ∀ item, watermark store.doc item ≤ newestSeq item history
  etag_minted : ∀ snapshot, store.snapshot = some snapshot → snapshot.etag < store.minted
  effective_last : ∀ item value, LastCommit history item value → store.effective item = some value
  effective_initial : ∀ item, commits item history = [] →
    store.effective item = some (({} : StateDocument).value item)

/-- The condition a head update is asked for under: it is a commit on top of what the head was read
at, and the entry it names was stored for the item. -/
structure UpdateOk (history : History) (update : HeadUpdate) : Prop where
  unseeded : update.seedFence = none
  expect : ∃ expect, update.expect = some expect ∧ expect < update.seq
  ref_item : update.ref.item = update.item
  ref_seq : update.ref.seq = update.seq
  stored : ∃ entry, Stored history update.ref entry

theorem UpdateOk.append {history : History} {update : HeadUpdate} (hok : UpdateOk history update)
    (more : History) : UpdateOk (more ++ history) update := by
  obtain ⟨entry, hentry⟩ := hok.stored
  exact { hok with stored := ⟨entry, hentry.append more⟩ }

/-- The condition a snapshot swap is asked for under, item by item: the watermark does not fall, nor
pass the newest commit; and where the new snapshot's value will be the effective one, it is the value
that was effective, or the bulk write's, checked after every commit. -/
structure SwapOk (task : Tid) (store : Store) (history : History) (doc : StateDocument)
    (writes : List (String × Option StateNode)) : Prop where
  mark_le : ∀ item, watermark store.doc item ≤ watermark doc item
  mark_newest : ∀ item, watermark doc item ≤ newestSeq item history
  value_kept : ∀ item, bulkCommit task writes item history = none →
    newestSeq item history = watermark doc item → store.effective item = some (doc.value item)
  value_written : ∀ item time value, bulkCommit task writes item history = some (time, value) →
    newestSeq item history = watermark doc item →
      doc.value item = value ∧ ∀ time' value', (time', value') ∈ commits item history → time' < time
  passed : ∀ item time value, bulkCommit task writes item history = some (time, value) →
    watermark doc item < newestSeq item history →
      ∃ time' value', (time', value') ∈ commits item history ∧ time < time'

namespace JournalInv

variable {store store' : Store} {history : History}

theorem newestSeq_eq (hinv : JournalInv store history) (item : Item) :
    newestSeq item history = ((store.head item).seq).getD 0 := by
  rw [hinv.head_seq, newestSeq]
  cases newest item history <;> rfl

theorem past_iff (hinv : JournalInv store history) (item : Item) :
    Cut.past store.doc item (store.head item) = true ↔
      watermark store.doc item < newestSeq item history := by
  rw [hinv.newestSeq_eq]
  unfold Cut.past
  cases (store.head item).seq <;> simp

/-- An effective head's entry is there, and is the one its ref was stored with. -/
theorem effective_of_lt (hinv : JournalInv store history) {item : Item}
    (hlt : watermark store.doc item < newestSeq item history) :
    ∃ update entry, newest item history = some update ∧ Stored history update.ref entry ∧
      store.entries[update.ref]? = some entry ∧ store.effective item = some entry.value := by
  cases hnewest : newest item history with
  | none => simp [newestSeq, hnewest] at hlt
  | some update =>
    obtain ⟨hcommitted, hitem⟩ := committed_of_newest hnewest
    obtain ⟨hrefitem, hrefseq, entry, hstored⟩ := hinv.rise.ref hcommitted
    have hseq : newestSeq item history = update.seq := by simp [newestSeq, hnewest]
    have hentry : store.entries[update.ref]? = some entry := by
      rcases hinv.kept _ _ hstored with hentry | hle
      · exact hentry
      · rw [hrefitem, hrefseq, hitem] at hle
        omega
    refine ⟨update, entry, rfl, hstored, hentry, ?_⟩
    rw [Store.effective, if_pos ((hinv.past_iff item).mpr hlt), hinv.head_ref, hnewest]
    simp [hentry]

theorem effective_of_eq (hinv : JournalInv store history) {item : Item}
    (heq : newestSeq item history = watermark store.doc item) :
    store.effective item = some (store.doc.value item) := by
  rw [Store.effective, if_neg]
  rw [hinv.past_iff]
  omega

/-- **An effective head's entry exists.** -/
theorem effective_entry (hinv : JournalInv store history) {item : Item}
    (hpast : Cut.past store.doc item (store.head item) = true) :
    ∃ ref entry, (store.head item).ref = some ref ∧ store.entries[ref]? = some entry := by
  obtain ⟨update, entry, hnewest, -, hentry, -⟩ :=
    hinv.effective_of_lt ((hinv.past_iff item).mp hpast)
  exact ⟨update.ref, entry, by rw [hinv.head_ref, hnewest]; rfl, hentry⟩

theorem effective_congr {item : Item} (hdoc : store'.doc = store.doc)
    (hseq : (store'.head item).seq = (store.head item).seq)
    (href : (store'.head item).ref = (store.head item).ref)
    (hentries : ∀ ref, Cut.past store.doc item (store.head item) = true →
      (store.head item).ref = some ref → store'.entries[ref]? = store.entries[ref]?) :
    store'.effective item = store.effective item := by
  have hpast : Cut.past store'.doc item (store'.head item) =
      Cut.past store.doc item (store.head item) := by
    simp only [Cut.past, hdoc, hseq]
  unfold Store.effective
  rw [hpast, hdoc, href]
  split
  next hif =>
    congr 1
    cases hhead : (store.head item).ref with
    | none => rfl
    | some ref => exact hentries ref hif hhead
  next => rfl

/-- A moment the invariant does not speak of. -/
theorem cons_neutral (hinv : JournalInv store history) {moment : Moment}
    (hneutral : moment.event.neutral) : JournalInv store (moment :: history) := by
  have hcommits : ∀ item, commits item (moment :: history) = commits item history := fun item =>
    commits_cons_neutral hneutral
  have hnewest : ∀ item, newest item (moment :: history) = newest item history := fun item =>
    newest_cons_neutral hneutral
  constructor
  · intro item
    rw [hnewest, hinv.head_seq]
  · intro item
    rw [hnewest, hinv.head_ref]
  · refine ⟨fun update hevent => ?_, hinv.rise⟩
    simp [hevent, Event.neutral] at hneutral
  · intro key entry entry' hstored hstored'
    rw [stored_cons_neutral hneutral] at hstored hstored'
    exact hinv.stored_once key entry entry' hstored hstored'
  · intro key entry hstored
    rw [stored_cons_neutral hneutral] at hstored
    exact hinv.stored_own key entry hstored
  · intro key entry hentry
    rw [stored_cons_neutral hneutral]
    exact hinv.entries_stored key entry hentry
  · intro key entry hstored
    rw [stored_cons_neutral hneutral] at hstored
    exact hinv.kept key entry hstored
  · intro item
    rw [newestSeq, hnewest]
    exact hinv.marks item
  · exact hinv.etag_minted
  · intro item value hlast
    refine hinv.effective_last item value ?_
    simpa only [LastCommit, hcommits] using hlast
  · intro item hnone
    rw [hcommits] at hnone
    exact hinv.effective_initial item hnone

/-- The store changed in nothing the invariant speaks of, and nothing happened. -/
theorem quiet (hinv : JournalInv store history)
    (hsnapshot : store'.snapshot = store.snapshot) (hentries : store'.entries = store.entries)
    (hseq : ∀ item, (store'.head item).seq = (store.head item).seq)
    (href : ∀ item, (store'.head item).ref = (store.head item).ref)
    (hminted : store.minted ≤ store'.minted) : JournalInv store' history := by
  have hdoc : store'.doc = store.doc := by simp only [Store.doc, hsnapshot]
  constructor
  · intro item
    rw [hseq, hinv.head_seq]
  · intro item
    rw [href, hinv.head_ref]
  · exact hinv.rise
  · exact hinv.stored_once
  · intro key entry hstored
    obtain ⟨hitem, hwithin, hnonce⟩ := hinv.stored_own key entry hstored
    exact ⟨hitem, hwithin, by omega⟩
  · intro key entry hentry
    rw [hentries] at hentry
    exact hinv.entries_stored key entry hentry
  · intro key entry hstored
    rw [hentries, hdoc]
    exact hinv.kept key entry hstored
  · intro item
    rw [hdoc]
    exact hinv.marks item
  · intro snapshot hsome
    rw [hsnapshot] at hsome
    exact Nat.lt_of_lt_of_le (hinv.etag_minted snapshot hsome) hminted
  · intro item value hlast
    rw [effective_congr hdoc (hseq item) (href item) fun _ _ _ => by rw [hentries]]
    exact hinv.effective_last item value hlast
  · intro item hnone
    rw [effective_congr hdoc (hseq item) (href item) fun _ _ _ => by rw [hentries]]
    exact hinv.effective_initial item hnone

/-- An entry is stored under a fresh key. -/
theorem put_entry (hinv : JournalInv store history) {moment : Moment} {key : EntryKey}
    {entry : JournalEntry} (hevent : moment.event = .stored key entry)
    (hnonce : key.nonce = store.minted) (hitem : entry.item = key.item)
    (hwithin : entry.WithinStack) :
    JournalInv { store with entries := store.entries.insert key entry, minted := store.minted + 1 }
      (moment :: history) := by
  have hfresh : ∀ entry', ¬ Stored history key entry' := by
    intro entry' hstored
    have := (hinv.stored_own key entry' hstored).2.2
    omega
  have hnewest : ∀ item, newest item (moment :: history) = newest item history := by
    intro item
    simp [newest, hevent]
  have hcommits : ∀ item, commits item (moment :: history) = commits item history := by
    intro item
    simp [commits, commitAt, hevent]
  have heffective : ∀ item, Store.effective
      { store with entries := store.entries.insert key entry, minted := store.minted + 1 } item =
        store.effective item := by
    intro item
    refine effective_congr rfl rfl rfl fun ref _ href => ?_
    -- The new entry is no head's: it was not stored when any head was updated.
    rw [Std.ExtTreeMap.getElem?_insert, if_neg]
    rw [Std.compare_eq_iff_eq]
    rintro rfl
    rw [hinv.head_ref] at href
    obtain ⟨update, hupdate, rfl⟩ := Option.map_eq_some_iff.mp href
    obtain ⟨entry', hentry'⟩ := (hinv.rise.ref (committed_of_newest hupdate).1).2.2
    exact hfresh entry' hentry'
  constructor
  · intro item
    rw [hnewest]
    exact hinv.head_seq item
  · intro item
    rw [hnewest]
    exact hinv.head_ref item
  · refine ⟨fun update hcommitted => ?_, hinv.rise⟩
    rw [hevent] at hcommitted
    cases hcommitted
  · intro key' entry₁ entry₂ h₁ h₂
    rw [stored_cons, hevent, Event.stored.injEq] at h₁ h₂
    rcases h₁ with ⟨rfl, rfl⟩ | h₁ <;> rcases h₂ with ⟨hkey, rfl⟩ | h₂
    · rfl
    · exact absurd h₂ (hfresh entry₂)
    · exact absurd (hkey ▸ h₁) (hfresh entry₁)
    · exact hinv.stored_once key' entry₁ entry₂ h₁ h₂
  · intro key' entry' hstored
    rw [stored_cons, hevent, Event.stored.injEq] at hstored
    rcases hstored with ⟨rfl, rfl⟩ | hstored
    · exact ⟨hitem, hwithin, by simp [hnonce]⟩
    · obtain ⟨hitem', hwithin', hnonce'⟩ := hinv.stored_own key' entry' hstored
      exact ⟨hitem', hwithin', Nat.lt_succ_of_lt hnonce'⟩
  · intro key' entry' hentry
    rw [stored_cons, hevent, Event.stored.injEq]
    rw [Std.ExtTreeMap.getElem?_insert] at hentry
    split at hentry
    next hcompare =>
      rw [Std.compare_eq_iff_eq] at hcompare
      cases hentry
      exact .inl ⟨hcompare, rfl⟩
    next => exact .inr (hinv.entries_stored key' entry' hentry)
  · intro key' entry' hstored
    rw [stored_cons, hevent, Event.stored.injEq] at hstored
    rcases hstored with ⟨rfl, rfl⟩ | hstored
    · exact .inl Std.ExtTreeMap.getElem?_insert_self
    · rcases hinv.kept key' entry' hstored with hentry | hle
      · left
        rw [Std.ExtTreeMap.getElem?_insert, if_neg]
        · exact hentry
        · rw [Std.compare_eq_iff_eq]
          rintro rfl
          exact hfresh entry' hstored
      · exact .inr hle
  · intro item
    rw [newestSeq, hnewest]
    exact hinv.marks item
  · intro snapshot hsome
    exact Nat.lt_succ_of_lt (hinv.etag_minted snapshot hsome)
  · intro item value hlast
    rw [heffective]
    refine hinv.effective_last item value ?_
    simpa only [LastCommit, hcommits] using hlast
  · intro item hnone
    rw [hcommits] at hnone
    rw [heffective]
    exact hinv.effective_initial item hnone

/-- An entry at or below its watermark is deleted. -/
theorem delete_entry (hinv : JournalInv store history) {key : EntryKey}
    (hmark : key.seq ≤ watermark store.doc key.item) :
    JournalInv { store with entries := store.entries.erase key } history := by
  have heffective : ∀ item, Store.effective { store with entries := store.entries.erase key } item =
      store.effective item := by
    intro item
    refine effective_congr rfl rfl rfl fun ref hpast href => ?_
    obtain ⟨update, entry, hnewest, -, hentry, -⟩ :=
      hinv.effective_of_lt ((hinv.past_iff item).mp hpast)
    obtain ⟨hcommitted, hitem⟩ := committed_of_newest hnewest
    obtain ⟨hrefitem, hrefseq, -⟩ := hinv.rise.ref hcommitted
    have hlt := (hinv.past_iff item).mp hpast
    have hseq : newestSeq item history = update.seq := by simp [newestSeq, hnewest]
    rw [hinv.head_ref, hnewest, Option.map_some, Option.some.injEq] at href
    rw [Std.ExtTreeMap.getElem?_erase, if_neg]
    rw [Std.compare_eq_iff_eq]
    rintro rfl
    rw [← href, hrefitem, hrefseq, hitem] at hmark
    omega
  constructor
  · exact hinv.head_seq
  · exact hinv.head_ref
  · exact hinv.rise
  · exact hinv.stored_once
  · exact hinv.stored_own
  · intro key' entry hentry
    rw [Std.ExtTreeMap.getElem?_erase] at hentry
    split at hentry
    · cases hentry
    · exact hinv.entries_stored key' entry hentry
  · intro key' entry hstored
    rcases hinv.kept key' entry hstored with hentry | hle
    · by_cases hkey : key = key'
      · subst hkey
        exact .inr hmark
      · left
        rw [Std.ExtTreeMap.getElem?_erase, if_neg]
        · exact hentry
        · rwa [Std.compare_eq_iff_eq]
    · exact .inr hle
  · exact hinv.marks
  · exact hinv.etag_minted
  · intro item value hlast
    rw [heffective]
    exact hinv.effective_last item value hlast
  · intro item hnone
    rw [heffective]
    exact hinv.effective_initial item hnone

/-- A head update applies on top of the newest commit, or on a head never written. -/
theorem newestSeq_lt (hinv : JournalInv store history) {update : HeadUpdate}
    (hok : UpdateOk history update) (hallowed : update.allowed (store.head update.item) = true) :
    newestSeq update.item history < update.seq := by
  obtain ⟨expect, hexpect, hlt⟩ := hok.expect
  rw [hinv.newestSeq_eq]
  simp only [HeadUpdate.allowed, hexpect, Bool.and_eq_true, decide_eq_true_eq] at hallowed
  rcases hallowed.1 with hseq | hseq <;> rw [hseq]
  · exact hlt
  · exact Nat.zero_lt_of_lt hlt

/-- A head is updated. -/
theorem update_head (hinv : JournalInv store history) {moment : Moment} {update : HeadUpdate}
    (hevent : moment.event = .committed update) (hok : UpdateOk history update)
    (hallowed : update.allowed (store.head update.item) = true) :
    JournalInv (store.updateHead update) (moment :: history) := by
  have hlt := hinv.newestSeq_lt hok hallowed
  have hmark := hinv.marks update.item
  obtain ⟨entry, hstored⟩ := hok.stored
  have hentry : store.entries[update.ref]? = some entry := by
    rcases hinv.kept _ _ hstored with hentry | hle
    · exact hentry
    · rw [hok.ref_item, hok.ref_seq] at hle
      omega
  have hnewest_self : newest update.item (moment :: history) = some update := by
    simp [newest, hevent]
  have hnewest_ne : ∀ item, update.item ≠ item →
      newest item (moment :: history) = newest item history := by
    intro item hne
    simp [newest, hevent, hne]
  have hcommits_self : commits update.item (moment :: history) =
      (history.length, entry.value) :: commits update.item history := by
    simp [commits, commitAt, hevent, hinv.stored_once.storedEntry hstored]
  have hcommits_ne : ∀ item, update.item ≠ item →
      commits item (moment :: history) = commits item history := by
    intro item hne
    simp [commits, commitAt, hevent, hne]
  have hstored_cons : ∀ key entry, Stored (moment :: history) key entry ↔ Stored history key entry := by
    intro key entry
    rw [stored_cons, hevent, or_iff_right]
    simp
  have heffective_self : (store.updateHead update).effective update.item = some entry.value := by
    have hpast : Cut.past (store.updateHead update).doc update.item
        ((store.updateHead update).head update.item) = true := by
      rw [Store.head_updateHead_self]
      simp only [Cut.past, HeadUpdate.applied, Option.any_some, decide_eq_true_eq]
      exact Nat.lt_of_le_of_lt hmark hlt
    rw [Store.effective, if_pos hpast, Store.head_updateHead_self]
    show (store.entries[update.ref]?).map JournalEntry.value = some entry.value
    rw [hentry]
    rfl
  have heffective_ne : ∀ item, update.item ≠ item →
      (store.updateHead update).effective item = store.effective item := fun item hne =>
    effective_congr rfl (by rw [Store.head_updateHead_of_ne _ hne]) (by rw [Store.head_updateHead_of_ne _ hne])
      fun _ _ _ => rfl
  constructor
  · intro item
    by_cases hitem : update.item = item
    · subst hitem
      rw [Store.head_updateHead_self, hnewest_self]
      rfl
    · rw [Store.head_updateHead_of_ne _ hitem, hnewest_ne _ hitem]
      exact hinv.head_seq item
  · intro item
    by_cases hitem : update.item = item
    · subst hitem
      rw [Store.head_updateHead_self, hnewest_self]
      rfl
    · rw [Store.head_updateHead_of_ne _ hitem, hnewest_ne _ hitem]
      exact hinv.head_ref item
  · refine ⟨fun update' hevent' => ?_, hinv.rise⟩
    obtain rfl := Event.committed.inj (hevent.symm.trans hevent')
    exact ⟨hlt, hok.ref_item, hok.ref_seq, entry, hstored⟩
  · intro key entry₁ entry₂ h₁ h₂
    rw [hstored_cons] at h₁ h₂
    exact hinv.stored_once key entry₁ entry₂ h₁ h₂
  · intro key entry' hstored'
    rw [hstored_cons] at hstored'
    exact hinv.stored_own key entry' hstored'
  · intro key entry' hentry'
    rw [hstored_cons]
    exact hinv.entries_stored key entry' hentry'
  · intro key entry' hstored'
    rw [hstored_cons] at hstored'
    exact hinv.kept key entry' hstored'
  · intro item
    by_cases hitem : update.item = item
    · subst hitem
      rw [newestSeq, hnewest_self]
      exact Nat.le_of_lt (Nat.lt_of_le_of_lt hmark hlt)
    · rw [newestSeq, hnewest_ne _ hitem]
      exact hinv.marks item
  · exact hinv.etag_minted
  · intro item value hlast
    by_cases hitem : update.item = item
    · subst hitem
      obtain ⟨time, hmem, hmax⟩ := hlast
      rw [hcommits_self] at hmem hmax
      rcases List.mem_cons.mp hmem with hhere | hearlier
      · rw [heffective_self, (Prod.mk.inj hhere).2]
      · have hle := hmax history.length entry.value (List.mem_cons_self ..)
        have := commits_time_lt hearlier
        omega
    · rw [heffective_ne _ hitem]
      refine hinv.effective_last item value ?_
      simpa only [LastCommit, hcommits_ne _ hitem] using hlast
  · intro item hnone
    by_cases hitem : update.item = item
    · subst hitem
      rw [hcommits_self] at hnone
      cases hnone
    · rw [hcommits_ne _ hitem] at hnone
      rw [heffective_ne _ hitem]
      exact hinv.effective_initial item hnone

/-- The snapshot is swapped. -/
theorem swap (hinv : JournalInv store history) {moment : Moment} {doc : StateDocument}
    {writes : List (String × Option StateNode)} (hevent : moment.event = .swapped doc writes)
    (hok : SwapOk moment.task store history doc writes) :
    JournalInv { store with snapshot := some ⟨doc, store.minted⟩, minted := store.minted + 1 }
      (moment :: history) := by
  have hnewest : ∀ item, newest item (moment :: history) = newest item history := by
    intro item
    simp [newest, hevent]
  have hcommits : ∀ item, commits item (moment :: history) =
      (bulkCommit moment.task writes item history).toList ++ commits item history := by
    intro item
    simp [commits, commitAt, hevent]
  have hstored : ∀ key entry, Stored (moment :: history) key entry ↔ Stored history key entry := by
    intro key entry
    rw [stored_cons, hevent, or_iff_right]
    simp
  have hpast : ∀ item, Cut.past doc item (store.head item) = true ↔
      watermark doc item < newestSeq item history := by
    intro item
    rw [hinv.newestSeq_eq, Cut.past]
    cases (store.head item).seq <;> simp
  -- Above the new watermark the head's entry stays the effective value; at it, the new document's.
  have heffective_lt : ∀ item, watermark doc item < newestSeq item history →
      Store.effective { store with snapshot := some ⟨doc, store.minted⟩, minted := store.minted + 1 }
        item = store.effective item := by
    intro item hlt
    have hlt' := Nat.lt_of_le_of_lt (hok.mark_le item) hlt
    exact (if_pos ((hpast item).mpr hlt)).trans (if_pos ((hinv.past_iff item).mpr hlt')).symm
  have heffective_eq : ∀ item, newestSeq item history = watermark doc item →
      Store.effective { store with snapshot := some ⟨doc, store.minted⟩, minted := store.minted + 1 }
        item = some (doc.value item) := by
    intro item heq
    have hnot : ¬ Cut.past doc item (store.head item) = true := by
      rw [hpast]
      omega
    exact if_neg hnot
  have hsplit : ∀ item, watermark doc item < newestSeq item history ∨
      newestSeq item history = watermark doc item := fun item =>
    (Nat.lt_or_eq_of_le (hok.mark_newest item)).imp_right Eq.symm
  constructor
  · intro item
    rw [hnewest]
    exact hinv.head_seq item
  · intro item
    rw [hnewest]
    exact hinv.head_ref item
  · refine ⟨fun update hcommitted => ?_, hinv.rise⟩
    rw [hevent] at hcommitted
    cases hcommitted
  · intro key entry₁ entry₂ h₁ h₂
    rw [hstored] at h₁ h₂
    exact hinv.stored_once key entry₁ entry₂ h₁ h₂
  · intro key entry h
    rw [hstored] at h
    obtain ⟨hitem, hwithin, hnonce⟩ := hinv.stored_own key entry h
    exact ⟨hitem, hwithin, Nat.lt_succ_of_lt hnonce⟩
  · intro key entry h
    rw [hstored]
    exact hinv.entries_stored key entry h
  · intro key entry h
    rw [hstored] at h
    exact (hinv.kept key entry h).imp_right fun hle => Nat.le_trans hle (hok.mark_le key.item)
  · intro item
    rw [newestSeq, hnewest]
    exact hok.mark_newest item
  · intro snapshot hsome
    cases hsome
    exact Nat.lt_succ_self _
  · rintro item value ⟨time, hmem, hmax⟩
    rw [hcommits] at hmem hmax
    cases hbulk : bulkCommit moment.task writes item history with
    | none =>
      have hlast : LastCommit history item value := ⟨time, by simpa [hbulk] using hmem,
        fun time' value' h => hmax time' value' (by simpa [hbulk] using h)⟩
      rcases hsplit item with hlt | heq
      · rw [heffective_lt item hlt]
        exact hinv.effective_last item value hlast
      · rw [heffective_eq item heq, ← hok.value_kept item hbulk heq]
        exact hinv.effective_last item value hlast
    | some pair =>
      obtain ⟨checked, written⟩ := pair
      simp only [hbulk, Option.toList_some, List.singleton_append, List.mem_cons] at hmem hmax
      rcases hsplit item with hlt | heq
      · obtain ⟨later, other, hlater, hafter⟩ := hok.passed item checked written hbulk hlt
        have hle := hmax later other (.inr hlater)
        rcases hmem with hhere | hmem
        · cases hhere
          omega
        · rw [heffective_lt item hlt]
          exact hinv.effective_last item value
            ⟨time, hmem, fun time' value' h => hmax time' value' (.inr h)⟩
      · obtain ⟨hvalue, hbefore⟩ := hok.value_written item checked written hbulk heq
        rcases hmem with hhere | hmem
        · cases hhere
          rw [heffective_eq item heq, hvalue]
        · have hlt := hbefore time value hmem
          have hle := hmax checked written (.inl rfl)
          omega
  · intro item hnone
    rw [hcommits, List.append_eq_nil_iff] at hnone
    have hbulk : bulkCommit moment.task writes item history = none := by
      cases hbulk : bulkCommit moment.task writes item history with
      | none => rfl
      | some pair => simp [hbulk] at hnone
    rcases hsplit item with hlt | heq
    · rw [heffective_lt item hlt]
      exact hinv.effective_initial item hnone.2
    · rw [heffective_eq item heq, ← hok.value_kept item hbulk heq]
      exact hinv.effective_initial item hnone.2

/-- Before anything happened. -/
theorem initial : JournalInv {} [] where
  head_seq _ := rfl
  head_ref _ := rfl
  rise := trivial
  stored_once _ _ _ h := by simp [Stored] at h
  stored_own _ _ h := by simp [Stored] at h
  entries_stored _ _ h := by simp at h
  kept _ _ h := by simp [Stored] at h
  marks item := by obtain ⟨kind, name⟩ := item; cases kind <;> simp [Store.doc]
  etag_minted _ h := by cases h
  effective_last _ _ h := by
    obtain ⟨_, h, _⟩ := h
    cases h
  effective_initial item _ := by simp [Store.effective, Store.head, Cut.past, Store.doc]

end JournalInv

end Atlantide
