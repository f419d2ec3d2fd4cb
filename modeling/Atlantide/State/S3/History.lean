import Atlantide.State.S3.World

/-! # What a history says was stored, committed and read

Time is the number of moments that came before. A commit of an item is a head update that applied,
at the moment it did; a bulk write that reached the snapshot counts as a commit of each node it
touched, at the moment its task last read that node's head, which is the write's pre-check. -/

namespace Atlantide

namespace History

variable {history more past : History} {item : Item}

def Stored (history : History) (key : EntryKey) (entry : JournalEntry) : Prop :=
  ∃ moment ∈ history, moment.event = .stored key entry

def Committed (history : History) (update : HeadUpdate) : Prop :=
  ∃ moment ∈ history, moment.event = .committed update

/-- The entry stored under `key`. -/
def storedEntry (key : EntryKey) : History → Option JournalEntry
  | [] => none
  | moment :: past =>
    match moment.event with
    | .stored key' entry => if key' = key then some entry else storedEntry key past
    | _ => storedEntry key past

/-- The newest head update of the item that applied. -/
def newest (item : Item) : History → Option HeadUpdate
  | [] => none
  | moment :: past =>
    match moment.event with
    | .committed update => if update.item = item then some update else newest item past
    | _ => newest item past

def newestSeq (item : Item) (history : History) : Nat :=
  (newest item history).elim 0 HeadUpdate.seq

/-- When the task last read the item's head. -/
def lastRead (task : Tid) (item : Item) : History → Option Nat
  | [] => none
  | moment :: past =>
    match moment.event with
    | .headRead item' _ =>
      if moment.task = task ∧ item' = item then some past.length else lastRead task item past
    | _ => lastRead task item past

/-- The write a bulk swap makes to the item, with the moment it counts from. -/
def bulkCommit (task : Tid) (writes : List (String × Option StateNode)) (item : Item)
    (past : History) : Option (Nat × ItemValue) :=
  match item.kind with
  | .output => none
  | .node =>
    match lastRead task item past, writes.lookup item.name with
    | some time, some record => some (time, .node record)
    | _, _ => none

/-- What a moment commits to the item. -/
def commitAt (item : Item) (moment : Moment) (past : History) : Option (Nat × ItemValue) :=
  match moment.event with
  | .committed update =>
    if update.item = item then
      (storedEntry update.ref past).map fun entry => (past.length, entry.value)
    else none
  | .swapped _ writes => bulkCommit moment.task writes item past
  | _ => none

/-- The commits of the item, each with its time. -/
def commits (item : Item) : History → List (Nat × ItemValue)
  | [] => []
  | moment :: past => (commitAt item moment past).toList ++ commits item past

/-- `value` is what the last commit of the item wrote. -/
def LastCommit (history : History) (item : Item) (value : ItemValue) : Prop :=
  ∃ time, (time, value) ∈ commits item history ∧
    ∀ time' value', (time', value') ∈ commits item history → time' ≤ time

end History

/-- Whether an event says nothing of what is stored, committed or folded. -/
def Event.neutral : Event → Bool
  | .stored .. | .committed _ | .swapped .. => false
  | _ => true

namespace History

variable {history more past : History} {item : Item}

theorem Stored.append {key : EntryKey} {entry : JournalEntry} (hstored : Stored history key entry)
    (more : History) : Stored (more ++ history) key entry := by
  obtain ⟨moment, hmem, hevent⟩ := hstored
  exact ⟨moment, List.mem_append_right _ hmem, hevent⟩

theorem Committed.append {update : HeadUpdate} (hcommitted : Committed history update)
    (more : History) : Committed (more ++ history) update := by
  obtain ⟨moment, hmem, hevent⟩ := hcommitted
  exact ⟨moment, List.mem_append_right _ hmem, hevent⟩

theorem stored_cons {moment : Moment} {key : EntryKey} {entry : JournalEntry} :
    Stored (moment :: past) key entry ↔
      moment.event = .stored key entry ∨ Stored past key entry := by
  simp [Stored]

theorem committed_cons {moment : Moment} {update : HeadUpdate} :
    Committed (moment :: past) update ↔
      moment.event = .committed update ∨ Committed past update := by
  simp [Committed]

theorem stored_of_storedEntry {key : EntryKey} {entry : JournalEntry}
    (h : storedEntry key history = some entry) : Stored history key entry := by
  induction history with
  | nil => cases h
  | cons moment past ih =>
    rw [stored_cons]
    simp only [storedEntry] at h
    split at h
    next key' entry' hevent =>
      split at h
      · next hkey =>
        cases h
        subst hkey
        exact .inl hevent
      · exact .inr (ih h)
    next => exact .inr (ih h)

/-- Each key is stored with one entry. -/
def StoredOnce (history : History) : Prop :=
  ∀ key entry entry', Stored history key entry → Stored history key entry' → entry = entry'

theorem exists_storedEntry {key : EntryKey} {entry : JournalEntry}
    (hstored : Stored history key entry) : ∃ entry', storedEntry key history = some entry' := by
  induction history with
  | nil => simp [Stored] at hstored
  | cons moment past ih =>
    rw [stored_cons] at hstored
    simp only [storedEntry]
    split
    next key' entry' hevent =>
      split
      · exact ⟨entry', rfl⟩
      · next hkey =>
        rcases hstored with hstored | hstored
        · rw [hstored] at hevent
          cases hevent
          exact absurd rfl hkey
        · exact ih hstored
    next hevent =>
      rcases hstored with hstored | hstored
      · exact absurd hstored (hevent _ _)
      · exact ih hstored

theorem StoredOnce.storedEntry (honce : StoredOnce history) {key : EntryKey} {entry : JournalEntry}
    (hstored : Stored history key entry) : storedEntry key history = some entry := by
  obtain ⟨entry', hentry'⟩ := exists_storedEntry hstored
  rw [hentry', honce key entry entry' hstored (stored_of_storedEntry hentry')]

theorem committed_of_newest {update : HeadUpdate} (h : newest item history = some update) :
    Committed history update ∧ update.item = item := by
  induction history with
  | nil => cases h
  | cons moment past ih =>
    rw [committed_cons]
    simp only [newest] at h
    split at h
    next update' hevent =>
      split at h
      · next hitem =>
        cases h
        exact ⟨.inl hevent, hitem⟩
      · exact (ih h).imp_left .inr
    next => exact (ih h).imp_left .inr

theorem lastRead_lt {task : Tid} {time : Nat} (h : lastRead task item history = some time) :
    time < history.length := by
  induction history with
  | nil => cases h
  | cons moment past ih =>
    simp only [lastRead] at h
    split at h
    · split at h
      · cases h
        exact Nat.lt_succ_self _
      · exact Nat.lt_succ_of_lt (ih h)
    · exact Nat.lt_succ_of_lt (ih h)

theorem commits_time_lt {time : Nat} {value : ItemValue}
    (h : (time, value) ∈ commits item history) : time < history.length := by
  induction history with
  | nil => cases h
  | cons moment past ih =>
    rw [commits, List.mem_append] at h
    rcases h with h | h
    · simp only [Option.mem_toList, commitAt] at h
      split at h
      · split at h
        · obtain ⟨entry, -, hpair⟩ := Option.map_eq_some_iff.mp h
          cases hpair
          exact Nat.lt_succ_self _
        · cases h
      · simp only [bulkCommit] at h
        split at h
        · cases h
        · split at h
          next hlast _ =>
            cases h
            exact Nat.lt_succ_of_lt (lastRead_lt hlast)
          next => cases h
      · cases h
    · exact Nat.lt_succ_of_lt (ih h)

section neutral

variable {moment : Moment}

theorem newest_cons_neutral (h : moment.event.neutral) :
    newest item (moment :: past) = newest item past := by
  simp only [newest]
  split
  next hevent => simp [hevent, Event.neutral] at h
  next => rfl

theorem commits_cons_neutral (h : moment.event.neutral) :
    commits item (moment :: past) = commits item past := by
  simp only [commits, commitAt]
  split
  next hevent => simp [hevent, Event.neutral] at h
  next hevent => simp [hevent, Event.neutral] at h
  next => rfl

theorem stored_cons_neutral (h : moment.event.neutral) {key : EntryKey} {entry : JournalEntry} :
    Stored (moment :: past) key entry ↔ Stored past key entry := by
  rw [stored_cons, or_iff_right]
  intro hevent
  simp [hevent, Event.neutral] at h

end neutral

/-- Every head update that applied moved its item's sequence number up, to an entry stored before
it for that item. -/
def CommitsRise : History → Prop
  | [] => True
  | moment :: past =>
    (∀ update, moment.event = .committed update →
      newestSeq update.item past < update.seq ∧ update.ref.item = update.item ∧
        update.ref.seq = update.seq ∧ ∃ entry, Stored past update.ref entry) ∧ CommitsRise past

theorem CommitsRise.seq_le {update : HeadUpdate} (hrise : CommitsRise history)
    (hcommitted : Committed history update) : update.seq ≤ newestSeq update.item history := by
  induction history with
  | nil => simp [Committed] at hcommitted
  | cons moment past ih =>
    rw [committed_cons] at hcommitted
    simp only [newestSeq, newest]
    rcases hcommitted with hevent | hpast
    · simp [hevent]
    · have hle := ih hrise.2 hpast
      split
      next update' hevent =>
        split
        next hitem =>
          have := (hrise.1 update' hevent).1
          rw [hitem] at this
          simp only [Option.elim_some]
          omega
        next => exact hle
      next => exact hle

theorem CommitsRise.ref {update : HeadUpdate} (hrise : CommitsRise history)
    (hcommitted : Committed history update) :
    update.ref.item = update.item ∧ update.ref.seq = update.seq ∧
      ∃ entry, Stored history update.ref entry := by
  induction history with
  | nil => simp [Committed] at hcommitted
  | cons moment past ih =>
    rcases committed_cons.mp hcommitted with hevent | hpast
    · obtain ⟨-, hitem, hseq, entry, hentry⟩ := hrise.1 update hevent
      exact ⟨hitem, hseq, entry, hentry.append [moment]⟩
    · obtain ⟨hitem, hseq, entry, hentry⟩ := ih hrise.2 hpast
      exact ⟨hitem, hseq, entry, hentry.append [moment]⟩

/-- Two commits of an item with one sequence number are the same commit. -/
theorem CommitsRise.unique {update update' : HeadUpdate} (hrise : CommitsRise history)
    (hcommitted : Committed history update) (hcommitted' : Committed history update')
    (hitem : update.item = update'.item) (hseq : update.seq = update'.seq) : update = update' := by
  induction history with
  | nil => simp [Committed] at hcommitted
  | cons moment past ih =>
    rcases committed_cons.mp hcommitted with hevent | hpast <;>
      rcases committed_cons.mp hcommitted' with hevent' | hpast'
    · exact Event.committed.inj (hevent.symm.trans hevent')
    · have hlt := (hrise.1 update hevent).1
      have hle := hrise.2.seq_le hpast'
      rw [hitem] at hlt
      omega
    · have hlt := (hrise.1 update' hevent').1
      have hle := hrise.2.seq_le hpast
      rw [hitem] at hle
      omega
    · exact ih hrise.2 hpast hpast'

theorem newestSeq_le_append (hrise : CommitsRise (more ++ history)) :
    newestSeq item history ≤ newestSeq item (more ++ history) := by
  cases hnewest : newest item history with
  | none => simp [newestSeq, hnewest]
  | some update =>
    obtain ⟨hcommitted, hitem⟩ := committed_of_newest hnewest
    have hle := hrise.seq_le (hcommitted.append more)
    rw [hitem] at hle
    simpa [newestSeq, hnewest] using hle

theorem CommitsRise.of_append (hrise : CommitsRise (more ++ history)) : CommitsRise history := by
  induction more with
  | nil => exact hrise
  | cons moment more ih => exact ih hrise.2

/-- Where the newest sequence number stays, nothing was committed. -/
theorem CommitsRise.none_since (hrise : CommitsRise (more ++ history))
    (hnewest : newestSeq item (more ++ history) = newestSeq item history) :
    ∀ moment ∈ more, ∀ update, moment.event = .committed update → update.item ≠ item := by
  induction more with
  | nil => exact fun _ h => nomatch h
  | cons moment more ih =>
    have hle : newestSeq item history ≤ newestSeq item (more ++ history) :=
      newestSeq_le_append hrise.2
    have hthen : newestSeq item (more ++ history) ≤ newestSeq item (moment :: more ++ history) :=
      @newestSeq_le_append (more ++ history) [moment] item hrise
    intro moment' hmem update hevent
    rcases List.mem_cons.mp hmem with rfl | hmem
    · rintro rfl
      have hlt : newestSeq update.item (more ++ history) < update.seq := (hrise.1 update hevent).1
      have hhere : newestSeq update.item (moment' :: more ++ history) = update.seq := by
        simp [newestSeq, newest, hevent]
      omega
    · exact ih hrise.2 (by omega) moment' hmem update hevent

/-- Where it rose, something was. -/
theorem CommitsRise.commit_since (hrise : CommitsRise (more ++ history))
    (hnewest : newestSeq item history < newestSeq item (more ++ history)) :
    ∃ time value, (time, value) ∈ commits item (more ++ history) ∧ history.length ≤ time := by
  induction more with
  | nil => exact absurd hnewest (Nat.lt_irrefl _)
  | cons moment more ih =>
    by_cases hpast : newestSeq item history < newestSeq item (more ++ history)
    · obtain ⟨time, value, hmem, hle⟩ := ih hrise.2 hpast
      exact ⟨time, value, List.mem_append_right _ hmem, hle⟩
    -- The last moment is the commit.
    have hhere : ∃ update, moment.event = .committed update ∧ update.item = item := by
      by_contra hnot
      apply hpast
      have hsame : newest item (moment :: more ++ history) = newest item (more ++ history) := by
        rw [List.cons_append, newest]
        split
        next update hevent => rw [if_neg fun hitem => hnot ⟨update, hevent, hitem⟩]
        next => rfl
      simp only [newestSeq, hsame] at hnewest ⊢
      exact hnewest
    obtain ⟨update, hevent, rfl⟩ := hhere
    obtain ⟨-, -, -, entry, hstored⟩ := hrise.1 update hevent
    obtain ⟨entry', hentry'⟩ : ∃ entry', storedEntry update.ref (more ++ history) = some entry' :=
      exists_storedEntry hstored
    refine ⟨(more ++ history).length, entry'.value, List.mem_append_left _ ?_, by simp⟩
    simp [commitAt, hevent, hentry']

theorem commits_append_none (hnone : ∀ moment ∈ more,
      (∀ doc writes, moment.event ≠ .swapped doc writes) ∧
        ∀ update, moment.event = .committed update → update.item ≠ item) :
    commits item (more ++ history) = commits item history := by
  induction more with
  | nil => rfl
  | cons moment more ih =>
    obtain ⟨hswap, hcommit⟩ := hnone moment (List.mem_cons_self ..)
    have hhere : commitAt item moment (more ++ history) = none := by
      rw [commitAt]
      split
      next update hevent => rw [if_neg (hcommit update hevent)]
      next doc writes hevent => exact absurd hevent (hswap doc writes)
      next => rfl
    rw [List.cons_append, commits, hhere, ih fun m hmem => hnone m (List.mem_cons_of_mem _ hmem)]
    rfl

end History

end Atlantide
