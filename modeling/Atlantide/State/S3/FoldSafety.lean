import Atlantide.State.S3.CutSafety

/-! # Folding a sound cut is a legitimate swap

As long as the snapshot is still the one the cut was read against, the fold's watermarks do not pass
what is committed, and where nothing was committed since, the folded value is the effective one. -/

namespace Atlantide

open Interleaving History

namespace CutSound

variable {cut : Cut} {start world world' : World}

theorem evolve (hsound : CutSound cut start world) (hevolves : Evolves world world') :
    CutSound cut start world' := by
  obtain ⟨more, hgrows⟩ := hevolves
  refine { hsound with
    evolves := hsound.evolves.trans ⟨more, hgrows⟩
    committed := fun item head seq hhead hseq => ?_
    fetched := fun item head hhead => ?_ }
  · obtain ⟨update, hupdate, hrest⟩ := hsound.committed item head seq hhead hseq
    exact ⟨update, hgrows.history ▸ hupdate.append more, hrest⟩
  · obtain ⟨ref, entry, href, hentry, hstored⟩ := hsound.fetched item head hhead
    exact ⟨ref, entry, href, hentry, hgrows.history ▸ hstored.append more⟩

/-- An effective head is a commit past the snapshot, and the cut has its entry. -/
theorem effective (hsound : CutSound cut start world) {item : Item} {head : Head}
    (hhead : cut.effective[item]? = some head) :
    ∃ update entry, Committed world.history update ∧ update.item = item ∧
      head.seq = some update.seq ∧ watermark cut.doc item < update.seq ∧
      cut.entries[item]? = some entry ∧ Stored world.history update.ref entry := by
  obtain ⟨hfound, seq, hseq, hlt⟩ := Cut.effective_eq_some_iff.mp hhead
  obtain ⟨update, hupdate, hitem, rfl, href⟩ := hsound.committed item head seq hfound hseq
  obtain ⟨ref, entry, href', hentry, hstored⟩ := hsound.fetched item head hhead
  rw [href, Option.some.injEq] at href'
  exact ⟨update, entry, hupdate, hitem, hseq, hlt, hentry, href' ▸ hstored⟩

theorem entriesOwn (hsound : CutSound cut start world) (hinv : WorldInv world) :
    cut.EntriesOwn := by
  intro item entry hentry
  obtain ⟨head, hhead⟩ := hsound.entries_effective item entry hentry
  obtain ⟨update, entry', hupdate, hitem, -, -, hentry', hstored⟩ := hsound.effective hhead
  obtain rfl : entry' = entry := Option.some.inj (hentry'.symm.trans hentry)
  obtain ⟨hown, hwithin, -⟩ := hinv.journal.stored_own _ _ hstored
  exact ⟨hown.trans ((hinv.journal.rise.ref hupdate).1.trans hitem), hwithin⟩

/-- While the ETag is the cut's, the snapshot is. -/
theorem current (hsound : CutSound cut start world)
    (hetag : world.store.snapshot.map Snapshot.etag = some cut.etag) :
    world.store.snapshot = some ⟨cut.doc, cut.etag⟩ ∧
      ∃ more, world.history = more ++ start.history ∧ ∀ moment ∈ more, moment.event.swap = false := by
  obtain ⟨more, hgrows⟩ := hsound.evolves
  obtain ⟨found, hfound, hsame⟩ := Option.map_eq_some_iff.mp hetag
  obtain ⟨rfl, hswap⟩ := hgrows.same_snapshot hsound.inv hsound.snapshot hfound hsame
  exact ⟨hfound, more, hgrows.history, hswap⟩

theorem start_mark_le (hsound : CutSound cut start world) (item : Item) :
    watermark cut.doc item ≤ newestSeq item start.history := by
  have hmark := hsound.inv.journal.marks item
  rwa [Store.doc, hsound.snapshot] at hmark

variable (maxFence : Nat)

theorem mark_le (item : Item) : watermark cut.doc item ≤ watermark (cut.fold maxFence) item := by
  rw [Cut.fold_watermark]
  cases hhead : cut.effective[item]? with
  | none => exact Nat.le_refl _
  | some head =>
    obtain ⟨-, seq, hseq, hlt⟩ := Cut.effective_eq_some_iff.mp hhead
    simp only [Option.map_some, hseq, Option.getD_some]
    exact Nat.le_of_lt hlt

/-- The folded watermark does not pass what was committed when the cut was complete. -/
theorem mark_newest (hsound : CutSound cut start world) (hinv : WorldInv world) (item : Item) :
    watermark (cut.fold maxFence) item ≤ newestSeq item world.history := by
  rw [Cut.fold_watermark]
  cases hhead : cut.effective[item]? with
  | none =>
    obtain ⟨more, hgrows⟩ := hsound.evolves
    refine Nat.le_trans (hsound.start_mark_le item) ?_
    have hrise := hinv.journal.rise
    rw [hgrows.history] at hrise ⊢
    exact newestSeq_le_append hrise
  | some head =>
    obtain ⟨update, -, hupdate, rfl, hseq, -⟩ := hsound.effective hhead
    simp only [Option.map_some, hseq, Option.getD_some]
    exact hinv.journal.rise.seq_le hupdate

/-- Where nothing was committed past the fold, the folded value is the effective one. -/
theorem value_kept (hsound : CutSound cut start world) (hinv : WorldInv world)
    (hcurrent : world.store.snapshot = some ⟨cut.doc, cut.etag⟩) {item : Item}
    (hnewest : newestSeq item world.history = watermark (cut.fold maxFence) item) :
    world.store.effective item = some ((cut.fold maxFence).value item) := by
  have hdoc : world.store.doc = cut.doc := by rw [Store.doc, hcurrent]; rfl
  rw [Cut.fold_watermark] at hnewest
  rw [Cut.fold_value (hsound.entriesOwn hinv)]
  cases hhead : cut.effective[item]? with
  | none =>
    have hentry : cut.entries[item]? = none := by
      cases hentry : cut.entries[item]? with
      | none => rfl
      | some entry =>
        obtain ⟨head, hhead'⟩ := hsound.entries_effective item entry hentry
        rw [hhead] at hhead'
        cases hhead'
    rw [hhead, Option.map_none, Option.getD_none, ← hdoc] at hnewest
    rw [hentry, hinv.journal.effective_of_eq hnewest, hdoc]
    rfl
  | some head =>
    obtain ⟨update, entry, hupdate, hitem, hseq, hlt, hentry, hstored⟩ := hsound.effective hhead
    rw [hhead, Option.map_some, hseq, Option.getD_some, Option.getD_some] at hnewest
    obtain ⟨update', entry', hnewest', hstored', -, heffective⟩ :=
      @JournalInv.effective_of_lt _ _ hinv.journal item (by rw [hdoc, hnewest]; exact hlt)
    -- Both are the newest commit of the item.
    obtain ⟨hcommitted', hitem'⟩ := committed_of_newest hnewest'
    have hsame : update' = update := by
      refine hinv.journal.rise.unique hcommitted' hupdate (hitem'.trans hitem.symm) ?_
      rwa [newestSeq, hnewest', Option.elim_some] at hnewest
    subst hsame
    obtain rfl := hinv.journal.stored_once _ _ _ hstored hstored'
    rw [heffective, hentry]
    rfl

/-- **Compacting is legitimate**: a sound cut's fold may replace the snapshot the cut was read
against. -/
theorem fold_ok (hsound : CutSound cut start world) (hinv : WorldInv world) (tid : Tid)
    (hetag : world.store.snapshot.map Snapshot.etag = some cut.etag) :
    SwapOk tid world.store world.history (cut.fold maxFence) [] := by
  obtain ⟨hcurrent, -⟩ := hsound.current hetag
  have hdoc : world.store.doc = cut.doc := by rw [Store.doc, hcurrent]; rfl
  have hnone : ∀ item, bulkCommit tid [] item world.history = none := by
    intro item
    unfold bulkCommit
    cases item.kind with
    | output => rfl
    | node => cases lastRead tid item world.history <;> rfl
  constructor
  · intro item
    rw [hdoc]
    exact mark_le maxFence item
  · exact hsound.mark_newest maxFence hinv
  · exact fun item _ hnewest => hsound.value_kept maxFence hinv hcurrent hnewest
  · intro item time value hbulk
    rw [hnone] at hbulk
    cases hbulk
  · intro item time value hbulk
    rw [hnone] at hbulk
    cases hbulk

/-- The pre-check of a bulk write: the task has read the node's head since the cut, and found it where
the fold left it. -/
def Checked (tid : Tid) (folded : StateDocument) (start world : World) (node : String) : Prop :=
  ∃ past, lastSince tid (Event.reads ⟨.node, node⟩) world.history = some past ∧
    start.history <:+ past ∧ newestSeq ⟨.node, node⟩ past = folded.wm.getD node 0

/-- **A bulk write is legitimate** once its pre-check has passed: it counts from there, and a commit
it did not see keeps its own value. -/
theorem bulk_ok (hsound : CutSound cut start world) (hinv : WorldInv world) {tid : Tid}
    (hetag : world.store.snapshot.map Snapshot.etag = some cut.etag) {touched : List String}
    {updated : StateDocument} {nodes : Dict String StateNode}
    (hupdated : updated =
      { cut.fold maxFence with serial := (cut.fold maxFence).serial + 1, nodes })
    (huntouched : ∀ node ∉ touched, nodes[node]? = (cut.fold maxFence).nodes[node]?)
    (hchecked : ∀ node ∈ touched, Checked tid (cut.fold maxFence) start world node) :
    SwapOk tid world.store world.history updated (touched.map fun node => (node, nodes[node]?)) := by
  obtain ⟨hcurrent, since, hsince, hswap⟩ := hsound.current hetag
  have hdoc : world.store.doc = cut.doc := by rw [Store.doc, hcurrent]; rfl
  have hmark : ∀ item, watermark updated item = watermark (cut.fold maxFence) item := by
    rintro ⟨kind, name⟩
    rw [hupdated]
    cases kind <;> rfl
  have hlookup : ∀ node, node ∈ touched →
      (touched.map fun node => (node, nodes[node]?)).lookup node = some nodes[node]? := by
    intro node hnode
    clear hchecked huntouched
    induction touched with
    | nil => cases hnode
    | cons first touched ih =>
      rw [List.map_cons, List.lookup_cons]
      by_cases hfirst : node = first
      · rw [hfirst, beq_self_eq_true]
      · rw [beq_false_of_ne hfirst]
        exact ih ((List.mem_cons.mp hnode).resolve_left hfirst)
  have hlookup_none : ∀ node, node ∉ touched →
      (touched.map fun node => (node, nodes[node]?)).lookup node = none := by
    intro node hnode
    rw [List.lookup_eq_none_iff]
    rintro ⟨other, record⟩ hmem
    obtain ⟨other, hother, hpair⟩ := List.mem_map.mp hmem
    cases hpair
    exact bne_iff_ne.mpr fun h => hnode (h ▸ hother)
  -- The write to a touched node, and what happened since its head was read.
  have hbulk : ∀ item time value,
      bulkCommit tid (touched.map fun node => (node, nodes[node]?)) item world.history =
        some (time, value) →
      ∃ node ∈ touched, item = ⟨.node, node⟩ ∧ value = .node nodes[node]? ∧
        ∃ past later moment, time = past.length ∧ world.history = later ++ moment :: past ∧
          moment.event.neutral = true ∧ newestSeq item past = watermark (cut.fold maxFence) item ∧
          (∀ m ∈ later, m.event.swap = false) := by
    rintro ⟨kind, node⟩ time value hwrite
    cases kind with
    | output => cases hwrite
    | node =>
      simp only [bulkCommit] at hwrite
      by_cases hnode : node ∈ touched
      · obtain ⟨past, hpast, hstart, hle⟩ := hchecked node hnode
        rw [lastRead_of_lastSince hpast, hlookup node hnode] at hwrite
        cases hwrite
        obtain ⟨moment, ⟨later, hlater⟩, -, hreads⟩ := lastSince_suffix hpast
        refine ⟨node, hnode, rfl, rfl, past, later, moment, rfl, hlater.symm, ?_, hle, ?_⟩
        · cases hevent : moment.event <;> rw [hevent] at hreads <;> first | rfl | cases hreads
        · intro m hmem
          obtain ⟨between, hbetween⟩ := hstart
          apply hswap m
          have hsplit : since ++ start.history =
              (later ++ moment :: between) ++ start.history := by
            rw [← hsince, ← hlater, ← hbetween]
            simp
          rw [List.append_cancel_right hsplit]
          exact List.mem_append_left _ hmem
      · rw [hlookup_none node hnode] at hwrite
        split at hwrite
        next h => cases h
        next => cases hwrite
  constructor
  · intro item
    rw [hdoc, hmark]
    exact mark_le maxFence item
  · intro item
    rw [hmark]
    exact hsound.mark_newest maxFence hinv item
  · rintro ⟨kind, node⟩ hnone hnewest
    rw [hmark] at hnewest
    rw [hsound.value_kept maxFence hinv hcurrent hnewest, hupdated]
    cases kind with
    | output => rfl
    | node =>
      have hnode : node ∉ touched := by
        intro hnode
        obtain ⟨past, hpast, -⟩ := hchecked node hnode
        simp only [bulkCommit, lastRead_of_lastSince hpast, hlookup node hnode] at hnone
        cases hnone
      rw [value_node, value_node, huntouched node hnode]
  · intro item time value hwrite hnewest
    obtain ⟨node, -, rfl, rfl, past, later, moment, rfl, hhistory, hneutral, hle, hlater⟩ :=
      hbulk item time value hwrite
    refine ⟨by rw [hupdated]; rfl, ?_⟩
    have hhere : newestSeq ⟨.node, node⟩ (moment :: past) = newestSeq ⟨.node, node⟩ past := by
      rw [newestSeq, newest_cons_neutral hneutral, newestSeq]
    have hrise := hinv.journal.rise
    rw [hmark] at hnewest
    rw [hhistory] at hnewest hrise
    have hgrown : newestSeq ⟨.node, node⟩ (moment :: past) ≤
        newestSeq ⟨.node, node⟩ (later ++ moment :: past) := newestSeq_le_append hrise
    have hnone := @CommitsRise.none_since _ _ ⟨.node, node⟩ hrise (by omega)
    intro time' value' hcommit
    rw [hhistory, commits_append_none, commits_cons_neutral hneutral] at hcommit
    · exact commits_time_lt hcommit
    · intro m hmem
      refine ⟨fun doc writes hevent => ?_, hnone m hmem⟩
      have := hlater m hmem
      rw [hevent] at this
      cases this
  · intro item time value hwrite hnewest
    obtain ⟨node, -, rfl, rfl, past, later, moment, rfl, hhistory, hneutral, hle, hlater⟩ :=
      hbulk item time value hwrite
    have hhere : newestSeq ⟨.node, node⟩ (moment :: past) = newestSeq ⟨.node, node⟩ past := by
      rw [newestSeq, newest_cons_neutral hneutral, newestSeq]
    have hrise := hinv.journal.rise
    rw [hmark] at hnewest
    rw [hhistory] at hnewest hrise ⊢
    obtain ⟨time', value', hcommit, htime⟩ :=
      @CommitsRise.commit_since _ _ ⟨.node, node⟩ hrise (by omega)
    exact ⟨time', value', hcommit, htime⟩

end CutSound

end Atlantide
