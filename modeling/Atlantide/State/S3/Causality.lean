import Atlantide.State.S3.BackendSafety

/-! # Which commits a cut has together

A commit that was complete before another's entry was put may be what the other depends on. A cut
is to have the first with the second. It lists again while a head names an entry the listing did not
show, but reads no head twice, and the pages of one listing are served at different moments: a
commit that lands after its item's head was read, or unseen, is left out while a later one, to an
item whose head is read after it, is taken in. -/

namespace Atlantide

open Interleaving History

/-- The sequence number the cut has of the item: its effective head's, else the snapshot's. -/
def Cut.seqOf (cut : Cut) (item : Item) : Nat :=
  (cut.effective[item]?.bind Head.seq).getD (watermark cut.doc item)

namespace History

/-- `next` was committed, and whenever its entry was put `update` had been. -/
def Before (history : History) (update next : HeadUpdate) : Prop :=
  Committed history next ∧ ∀ moment entry past, moment :: past <:+ history →
    moment.event = .stored next.ref entry → Committed past update

/-- Of any two commits to different items, the one complete before the other's entry was put: a cut
with the later has the earlier or a newer one. -/
def Causal (history : History) (cut : Cut) : Prop :=
  ∀ update next, Before history update next → update.item ≠ next.item →
    cut.seqOf next.item = next.seq → update.seq ≤ cut.seqOf update.item

/-- In the task's last attempt `update` landed after the snapshot was opened and after its item's
head was read, if it was, while the other item's head was read when `next` was its newest commit. -/
structure Outrun (task : Tid) (history : History) (update next : HeadUpdate) : Prop where
  opened : ∀ start, opening task history = some start → ¬ Committed start update
  missed : ∀ past, lastSince task (Event.reads update.item) history = some past →
    ¬ Committed past update
  seen : ∃ past, lastSince task (Event.reads next.item) history = some past ∧
    newest next.item past = some next

variable {history more past : History} {item : Item} {update next : HeadUpdate}

theorem Committed.suffix (hcommitted : Committed past update) (hsuffix : past <:+ history) :
    Committed history update := by
  obtain ⟨more, rfl⟩ := hsuffix
  exact hcommitted.append more

theorem Stored.suffix {key : EntryKey} {entry : JournalEntry} (hstored : Stored past key entry)
    (hsuffix : past <:+ history) : Stored history key entry := by
  obtain ⟨more, rfl⟩ := hsuffix
  exact hstored.append more

theorem stored_suffix {key : EntryKey} {entry : JournalEntry} (hstored : Stored history key entry) :
    ∃ moment past, moment :: past <:+ history ∧ moment.event = .stored key entry := by
  obtain ⟨moment, hmem, hevent⟩ := hstored
  obtain ⟨later, past, rfl⟩ := List.append_of_mem hmem
  exact ⟨moment, past, List.suffix_append later _, hevent⟩

/-- What had been committed by the time an entry was put had been whenever the entry is there. -/
theorem Before.of_stored (hbefore : Before history update next) (hsuffix : past <:+ history)
    {entry : JournalEntry} (hstored : Stored past next.ref entry) : Committed past update := by
  obtain ⟨moment, earlier, hearlier, hevent⟩ := stored_suffix hstored
  have hcommitted := hbefore.2 moment entry earlier (hearlier.trans hsuffix) hevent
  exact hcommitted.suffix ((List.suffix_cons moment earlier).trans hearlier)

theorem Before.of_committed (hbefore : Before history update next) (hrise : CommitsRise past)
    (hsuffix : past <:+ history) (hcommitted : Committed past next) : Committed past update := by
  obtain ⟨-, -, entry, hentry⟩ := hrise.ref hcommitted
  exact hbefore.of_stored hsuffix hentry

theorem CommitsRise.suffix (hrise : CommitsRise history) (hsuffix : past <:+ history) :
    CommitsRise past := by
  obtain ⟨more, rfl⟩ := hsuffix
  exact hrise.of_append

/-- What was committed since is above all that was committed before. -/
theorem CommitsRise.newestSeq_lt (hrise : CommitsRise history) (hsuffix : past <:+ history)
    (hcommitted : Committed history update) (hnew : ¬ Committed past update) :
    newestSeq update.item past < update.seq := by
  obtain ⟨more, rfl⟩ := hsuffix
  induction more with
  | nil => exact absurd hcommitted hnew
  | cons moment more ih =>
    rcases committed_cons.mp hcommitted with hevent | hearlier
    · calc newestSeq update.item past
          ≤ newestSeq update.item (more ++ past) := newestSeq_le_append hrise.2
        _ < update.seq := (hrise.1 update hevent).1
    · exact ih hrise.2 hearlier

end History

/-! ## The sequence number of an item read -/

namespace Cut

variable {cut : Cut} {item : Item}

theorem seqOf_eq (cut : Cut) (item : Item) :
    cut.seqOf item = max (watermark cut.doc item) ((cut.heads[item]?.bind Head.seq).getD 0) := by
  unfold seqOf effective
  rw [Std.ExtTreeMap.getElem?_filter']
  cases cut.heads[item]? with
  | none => simp
  | some head =>
    rw [Option.filter_some]
    cases hseq : head.seq with
    | none => simp [past, hseq]
    | some seq =>
      by_cases hlt : watermark cut.doc item < seq
      · simp [past, hseq, hlt, Nat.max_eq_right (Nat.le_of_lt hlt)]
      · simp [past, hseq, hlt, Nat.max_eq_left (Nat.le_of_not_gt hlt)]

theorem seqOf_unread (hnone : cut.heads[item]? = none) :
    cut.seqOf item = watermark cut.doc item := by
  rw [seqOf_eq, hnone]
  exact Nat.max_eq_left (Nat.zero_le _)

theorem seqOf_read {past : History} (hat : HeadAt cut.heads[item]? item past) :
    cut.seqOf item = max (watermark cut.doc item) (newestSeq item past) := by
  rw [seqOf_eq, hat.seq, newestSeq]
  cases newest item past <;> rfl

end Cut

/-! ## What a read has together -/

section

variable {tid : Tid} {cut : Cut} {start world : World} {update next : HeadUpdate}

/-- What a read saw stands while others act. -/
theorem CutSeen.keeps {world' : World} (hseen : CutSeen tid cut start world)
    (hkeeps : Keeps tid (fun _ => False) world world') : CutSeen tid cut start world' := by
  obtain ⟨more, hgrows⟩ := hkeeps.evolves
  have hlast : ∀ kind, lastSince tid kind world'.history = lastSince tid kind world.history :=
    fun kind => hkeeps.lastSince_eq fun _ h => h.elim
  refine ⟨⟨hseen.inv, hseen.snapshot, hseen.evolves.trans hkeeps.evolves, ?_, ?_,
    hseen.entries_effective, hseen.own⟩, ?_, fun item => ?_, fun key => ?_⟩
  · intro item head seq hhead hseq
    obtain ⟨update, hcommitted, hrest⟩ := hseen.committed item head seq hhead hseq
    exact ⟨update, hgrows.history ▸ hcommitted.append more, hrest⟩
  · intro item head hhead
    obtain ⟨ref, entry, href, hentry, hstored⟩ := hseen.fetched item head hhead
    exact ⟨ref, entry, href, hentry, hgrows.history ▸ hstored.append more⟩
  · exact (hkeeps.opening_eq fun _ h => h.elim).trans hseen.opening
  · rw [HeadSeen, hlast]
    exact hseen.heads item
  · rw [hlast, hlast]
    exact hseen.pages key

/-- The mark of the snapshot that was read is behind every commit since. -/
theorem CutSeen.mark_lt (hseen : CutSeen tid cut start world) (hrise : CommitsRise world.history)
    (hcommitted : Committed world.history update) (hnew : ¬ Committed start.history update) :
    watermark cut.doc update.item < update.seq := by
  have hdoc : start.store.doc = cut.doc := by rw [Store.doc, hseen.snapshot]; rfl
  have hmark := hseen.inv.journal.marks update.item
  rw [hdoc] at hmark
  have hlt := hrise.newestSeq_lt (opening_suffix hseen.opening) hcommitted hnew
  omega

/-- A commit that was there when the item's head was read is in the cut. -/
theorem CutSeen.of_read (hseen : CutSeen tid cut start world) (hrise : CommitsRise world.history)
    {past : History} (hread : lastSince tid (Event.reads update.item) world.history = some past)
    (hcommitted : Committed past update) : update.seq ≤ cut.seqOf update.item := by
  rcases hseen.heads update.item with ⟨past', hread', -, hat⟩ | ⟨hnone, -⟩
  · obtain rfl : past = past' := Option.some.inj (hread.symm.trans hread')
    obtain ⟨moment, hsuffix, -, -⟩ := lastSince_suffix hread
    have hpast := hrise.suffix ((List.suffix_cons moment past).trans hsuffix)
    rw [Cut.seqOf_read hat]
    exact Nat.le_trans (hpast.seq_le hcommitted) (Nat.le_max_right _ _)
  · rw [hread] at hnone
    cases hnone

/-- A commit that was there when the snapshot was opened is in the cut. -/
theorem CutSeen.of_opened (hseen : CutSeen tid cut start world) (hrise : CommitsRise world.history)
    (hcommitted : Committed start.history update) : update.seq ≤ cut.seqOf update.item := by
  have hstart := hrise.suffix (opening_suffix hseen.opening)
  obtain ⟨hitem, hseq, entry, hentry⟩ := hstart.ref hcommitted
  obtain ⟨shown, hshown, hpage⟩ := hseen.pages update.ref
  have hlater : start.history <:+ shown := opening_suffix_lastSince hshown hseen.opening
  rcases hpage entry (hentry.suffix hlater) with hread | hfolded
  · rw [hitem] at hread
    obtain ⟨past, hpast⟩ := Option.ne_none_iff_exists'.mp hread
    exact hseen.of_read hrise hpast (hcommitted.suffix (opening_suffix_lastSince hpast hseen.opening))
  · rw [hitem, hseq] at hfolded
    rw [Cut.seqOf_eq]
    exact Nat.le_trans hfolded (Nat.le_max_left _ _)

/-- A commit that the cut lacks landed after the snapshot was opened and its item's head read. -/
theorem CutSeen.missed (hseen : CutSeen tid cut start world) (hrise : CommitsRise world.history)
    (hlacks : cut.seqOf update.item < update.seq) :
    ¬ Committed start.history update ∧
      ∀ past, lastSince tid (Event.reads update.item) world.history = some past →
        ¬ Committed past update := by
  constructor
  · intro hcommitted
    exact absurd (hseen.of_opened hrise hcommitted) (Nat.not_le_of_lt hlacks)
  · intro past hread hcommitted
    exact absurd (hseen.of_read hrise hread hcommitted) (Nat.not_le_of_lt hlacks)

/-- A commit since the snapshot was opened whose value the cut has was its item's newest when the
head was read. -/
theorem CutSeen.seen (hseen : CutSeen tid cut start world) (hrise : CommitsRise world.history)
    (hcommitted : Committed world.history next) (hnew : ¬ Committed start.history next)
    (hholds : cut.seqOf next.item = next.seq) :
    ∃ past, lastSince tid (Event.reads next.item) world.history = some past ∧
      newest next.item past = some next := by
  have hmark := hseen.mark_lt hrise hcommitted hnew
  rcases hseen.heads next.item with ⟨past, hread, -, hat⟩ | ⟨-, hnone⟩
  · refine ⟨past, hread, ?_⟩
    rw [Cut.seqOf_read hat] at hholds
    have hseq : newestSeq next.item past = next.seq := by omega
    cases hnewest : newest next.item past with
    | none =>
      rw [newestSeq, hnewest, Option.elim_none] at hseq
      omega
    | some found =>
      obtain ⟨hfound, hitem⟩ := committed_of_newest hnewest
      obtain ⟨moment, hsuffix, -, -⟩ := lastSince_suffix hread
      have hthere := hfound.suffix ((List.suffix_cons moment past).trans hsuffix)
      rw [newestSeq, hnewest, Option.elim_some] at hseq
      rw [hrise.unique hthere hcommitted hitem hseq]
  · rw [Cut.seqOf_unread hnone] at hholds
    omega

/-- A cut has a commit without one it may depend on exactly when the read was outrun by the two. -/
theorem CutSeen.causal_iff (hseen : CutSeen tid cut start world)
    (hrise : CommitsRise world.history) :
    Causal world.history cut ↔ ∀ update next, Before world.history update next →
      update.item ≠ next.item → ¬ Outrun tid world.history update next := by
  have hopening := opening_suffix hseen.opening
  constructor
  · intro hcausal update next hbefore hne hover
    have hnew := hover.opened start.history hseen.opening
    have hnext : ¬ Committed start.history next := fun hthere =>
      hnew (hbefore.of_committed (hrise.suffix hopening) hopening hthere)
    have hupdate : Committed world.history update := by
      exact hbefore.of_committed hrise (List.suffix_refl _) hbefore.1
    -- The cut has `next`: its head was read at it.
    obtain ⟨past, hread, hnewest⟩ := hover.seen
    have hholds : cut.seqOf next.item = next.seq := by
      have hmark := hseen.mark_lt hrise hbefore.1 hnext
      rcases hseen.heads next.item with ⟨past', hread', -, hat⟩ | ⟨hnone, -⟩
      · obtain rfl : past = past' := Option.some.inj (hread.symm.trans hread')
        rw [Cut.seqOf_read hat, newestSeq, hnewest, Option.elim_some]
        omega
      · rw [hread] at hnone
        cases hnone
    -- And it lacks `update`.
    have hmark := hseen.mark_lt hrise hupdate hnew
    have hlacks : cut.seqOf update.item < update.seq := by
      rcases hseen.heads update.item with ⟨past', hread', -, hat⟩ | ⟨-, hnone⟩
      · obtain ⟨moment, hsuffix, -, -⟩ := lastSince_suffix hread'
        have hlt := hrise.newestSeq_lt ((List.suffix_cons moment past').trans hsuffix) hupdate
          (hover.missed past' hread')
        rw [Cut.seqOf_read hat]
        omega
      · rw [Cut.seqOf_unread hnone]
        exact hmark
    exact absurd (hcausal update next hbefore hne hholds) (Nat.not_le_of_lt hlacks)
  · intro hnone update next hbefore hne hholds
    by_contra hlacks
    obtain ⟨hnew, hmissed⟩ := hseen.missed hrise (Nat.lt_of_not_le hlacks)
    have hnext : ¬ Committed start.history next := fun hthere =>
      hnew (hbefore.of_committed (hrise.suffix hopening) hopening hthere)
    refine hnone update next hbefore hne ⟨fun opened hopened => ?_, hmissed,
      hseen.seen hrise hbefore.1 hnext hholds⟩
    obtain rfl : start.history = opened := Option.some.inj (hseen.opening.symm.trans hopened)
    exact hnew

end

/-- **A read has every commit with what it may depend on, unless two commits outrun it.** -/
theorem causal_iff_not_outrun (ctx : S3Context)
    {acts : List (System.Act Tid Choice Surroundings Call)} {config : Backends}
    (hrun : (backends ctx).run acts (System.initial {}) = some config) {tid : Tid} {cut : Cut}
    (htask : config.tasks tid = some ⟨.read, .ret (.cut (some cut))⟩) :
    Causal config.world.history cut ↔ ∀ update next, Before config.world.history update next →
      update.item ≠ next.item → ¬ Outrun tid config.world.history update next := by
  have hheld := (protocol ctx).reachable WorldInv.initial hrun
  obtain ⟨ended, hrely, hpost⟩ := hheld.2 tid _ htask
  obtain ⟨start, hseen⟩ : ∃ start, CutSeen tid cut start ended := hpost rfl
  exact (hseen.keeps (.of_rely hrely)).causal_iff hheld.1.journal.rise

/-! ## A read that is outrun -/

namespace History

def commitsIn (history : History) : List HeadUpdate :=
  history.filterMap fun moment =>
    match moment.event with
    | .committed update => some update
    | _ => none

theorem mem_commitsIn {history : History} {update : HeadUpdate} :
    update ∈ commitsIn history ↔ Committed history update := by
  simp only [commitsIn, Committed, List.mem_filterMap]
  refine exists_congr fun moment => and_congr_right fun _ => ?_
  cases moment.event <;> simp

/-- Whenever the entry of `next` was put, `update` had been committed. -/
def putAfter (update next : HeadUpdate) : History → Bool
  | [] => true
  | moment :: past =>
    (match moment.event with
      | .stored key _ => key ≠ next.ref ∨ update ∈ commitsIn past
      | _ => true) && putAfter update next past

theorem committed_of_putAfter {history past : History} {update next : HeadUpdate} {moment : Moment}
    {entry : JournalEntry} (hput : putAfter update next history = true)
    (hsuffix : moment :: past <:+ history) (hevent : moment.event = .stored next.ref entry) :
    Committed past update := by
  induction history with
  | nil => cases List.suffix_nil.mp hsuffix
  | cons newest earlier ih =>
    rw [putAfter, Bool.and_eq_true] at hput
    rcases List.suffix_cons_iff.mp hsuffix with hhere | hlater
    · obtain ⟨rfl, rfl⟩ := List.cons.inj hhere
      have hstored := hput.1
      rw [hevent] at hstored
      simpa [mem_commitsIn] using hstored
    · exact ih hput.2 hlater

/-- The cut has a commit without one it may depend on. -/
def torn (history : History) (cut : Cut) : Bool :=
  (commitsIn history).any fun update => (commitsIn history).any fun next =>
    putAfter update next history && update.item ≠ next.item &&
      cut.seqOf next.item = next.seq && cut.seqOf update.item < update.seq

theorem not_causal_of_torn {history : History} {cut : Cut} (htorn : torn history cut = true) :
    ¬ Causal history cut := by
  intro hcausal
  obtain ⟨update, -, hupdate⟩ := List.any_eq_true.mp htorn
  obtain ⟨next, hnext, hpair⟩ := List.any_eq_true.mp hupdate
  simp only [Bool.and_eq_true, decide_eq_true_eq] at hpair
  obtain ⟨⟨⟨hput, hne⟩, hholds⟩, hlacks⟩ := hpair
  have hbefore : Before history update next :=
    ⟨mem_commitsIn.mp hnext, fun _ _ _ => committed_of_putAfter hput⟩
  exact absurd (hcausal update next hbefore hne hholds) (Nat.not_le_of_lt hlacks)

end History

def vpcRow (id hash : String) : StateNode :=
  { id, type := "Vpc", provider := "aws", providerVersion := "1", inputHash := hash }

/-- The cut that the first process's read returned. -/
def readCut (config : Backends) : Option Cut :=
  match config.tasks ⟨0, 0⟩ with
  | some ⟨.read, .ret (.cut (some cut))⟩ => some cut
  | _ => none

theorem readCut_eq_some {config : Backends} {cut : Cut} (hcut : readCut config = some cut) :
    config.tasks ⟨0, 0⟩ = some ⟨.read, .ret (.cut (some cut))⟩ := by
  unfold readCut at hcut
  split at hcut
  next htask =>
    cases hcut
    exact htask
  next => cases hcut

/-- Two nodes are written, then a read has the first one's head when both are written again. -/
def outrunRead : List (System.Act Tid Choice Surroundings Call) :=
  .start ⟨1, 0⟩ (.put (vpcRow "net:x" "a")) :: served ⟨1, 0⟩ 18 ++
  .start ⟨1, 0⟩ (.put (vpcRow "net:y" "a")) :: served ⟨1, 0⟩ 6 ++
  .start ⟨0, 0⟩ .read :: served ⟨0, 0⟩ 4 ++
  .start ⟨1, 0⟩ (.put (vpcRow "net:x" "b")) :: served ⟨1, 0⟩ 6 ++
  .start ⟨1, 0⟩ (.put (vpcRow "net:y" "b")) :: served ⟨1, 0⟩ 6 ++ served ⟨0, 0⟩ 6

/-- A read beside no writes. -/
def quietRead : List (System.Act Tid Choice Surroundings Call) :=
  .start ⟨1, 0⟩ (.put (vpcRow "net:x" "a")) :: served ⟨1, 0⟩ 18 ++ .start ⟨0, 0⟩ .read :: served ⟨0, 0⟩ 6

theorem causal_iff_not_outrun_quiet : ∃ config cut,
    (backends {}).run quietRead (System.initial {}) = some config ∧ readCut config = some cut ∧
      (Causal config.world.history cut ↔
        ∀ update next, Before config.world.history update next → update.item ≠ next.item →
          ¬ Outrun ⟨0, 0⟩ config.world.history update next) := by
  have hruns : (((backends {}).run quietRead (System.initial {})).bind readCut).isSome = true := by
    decide +kernel
  obtain ⟨cut, hread⟩ := Option.isSome_iff_exists.mp hruns
  obtain ⟨config, hrun, hcut⟩ := Option.bind_eq_some_iff.mp hread
  exact ⟨config, cut, hrun, hcut, causal_iff_not_outrun {} hrun (readCut_eq_some hcut)⟩

/-- The read returns the second node's new row and the first one's old row. -/
theorem outrun_read_not_causal : ∃ config cut,
    (backends {}).run outrunRead (System.initial {}) = some config ∧
      config.tasks ⟨0, 0⟩ = some ⟨.read, .ret (.cut (some cut))⟩ ∧
      ¬ Causal config.world.history cut := by
  have hruns : (((backends {}).run outrunRead (System.initial {})).bind fun config =>
      (readCut config).filter (torn config.world.history)).isSome = true := by
    decide +kernel
  obtain ⟨cut, hread⟩ := Option.isSome_iff_exists.mp hruns
  obtain ⟨config, hrun, hfiltered⟩ := Option.bind_eq_some_iff.mp hread
  obtain ⟨hcut, htorn⟩ := Option.filter_eq_some_iff.mp hfiltered
  exact ⟨config, cut, hrun, readCut_eq_some hcut, not_causal_of_torn htorn⟩

end Atlantide
