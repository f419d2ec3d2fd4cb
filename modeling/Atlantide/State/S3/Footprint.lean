import Atlantide.State.S3.Safety

/-! # What each call asks for

A journal call takes no lock and raises no fence; a lock call stores, commits and folds nothing,
but for creating a first, empty snapshot. Each half of the protocol can so be checked against the
other half's footprint alone. -/

namespace Atlantide

open Interleaving

def AwsRequest.Unlocked : AwsRequest → Prop
  | .transact items => ∀ item ∈ items, item.claimed = none ∧ item.raised = none
  | .putLease .. | .extendLease .. | .revokeLease .. | .deleteLease .. | .deleteRow .. |
      .unlockRow _ | .bumpFence .. => False
  | _ => True

/-- What a journal call asks for. -/
def Request.Journal : Request → Prop
  | .aws request => request.Unlocked
  | .memory (.grantScope ..) | .memory (.openTakeover _) | .memory (.kill ..) |
      .memory (.allow ..) | .memory (.abort _) => False
  | _ => True

/-- What an output commit asks for once it has a view. -/
def Request.Output : Request → Prop
  | .memory .dropView | .memory (.dropViewIf _) | .memory .resetViews => False
  | request => request.Journal

/-- What a lock call asks for. Its transactions claim each node once, and it moves the fence counter
only up. -/
def Request.Locking : Request → Prop
  | .aws (.transact items) => items.filterMap TransactItem.updated = [] ∧
      (items.filterMap TransactItem.claimed).Nodup ∧ (items.filterMap TransactItem.raised).Nodup
  | .aws (.bumpFence amount _) => 0 < amount
  | .aws (.putSnapshot ..) | .aws (.putEntry _) | .aws (.deleteEntry _) | .aws (.updateHead _) =>
    False
  | .memory (.installView _) | .memory .dropView | .memory (.dropViewIf _) |
      .memory (.record ..) | .memory (.absorb ..) | .memory (.setBehind ..) => False
  | _ => True

/-- What a read asks for: it stores no entry and commits to no head. -/
def Request.Reading : Request → Prop
  | .aws (.putEntry _) | .aws (.updateHead _) | .aws (.transact _) => False
  | request => request.Journal

theorem Request.Output.journal {request : Request} (h : request.Output) : request.Journal := by
  match request, h with
  | .aws _, h => exact h
  | .memory op, h => cases op <;> first | exact h | exact h.elim
  | .uuid, h => exact h
  | .schedule, h => exact h
  | .paging, h => exact h

theorem journal_of_output {α : Type} {program : Backend α} (h : program.Only Request.Output) :
    program.Only Request.Journal :=
  h.mono fun _ => Request.Output.journal

theorem Request.Reading.journal {request : Request} (h : request.Reading) : request.Journal := by
  match request, h with
  | .aws request, h => cases request <;> first | exact h | exact h.elim
  | .memory _, h => exact h
  | .uuid, h => exact h
  | .schedule, h => exact h
  | .paging, h => exact h

theorem journal_of_reading {α : Type} {program : Backend α} (h : program.Only Request.Reading) :
    program.Only Request.Journal :=
  h.mono fun _ => Request.Reading.journal

namespace Snapshots

theorem reading_ensure : ensure.Only Request.Reading := by
  unfold ensure
  generalize limits.casAttempts = attempts
  induction attempts with
  | zero => trivial
  | succ attempts ih =>
    refine Prog.Only.bind (only_send trivial) fun found => ?_
    cases found with
    | some snapshot => trivial
    | none =>
      refine ⟨trivial, fun epoch => ?_⟩
      change (Prog.bind (send _) _).Only _
      refine Prog.Only.bind (only_send trivial) fun created => ?_
      cases created with
      | some snapshot => trivial
      | none => exact ih

theorem journal_put (doc : StateDocument) (ifMatch : Option Nat)
    (writes : List (String × Option StateNode)) : (put doc ifMatch writes).Only Request.Journal :=
  Prog.Only.bind (only_send trivial) fun found => by cases found <;> trivial

end Snapshots

namespace Reads

theorem output_getHead (item : Item) : (getHead item).Only Request.Output :=
  Prog.Only.bind (only_send ⟨⟩) fun _ => trivial

theorem output_getEntry (key : EntryKey) : (getEntry key).Only Request.Output :=
  Prog.Only.bind (only_send ⟨⟩) fun entry => by cases entry <;> trivial

theorem reading_getEntry (key : EntryKey) : (getEntry key).Only Request.Reading :=
  Prog.Only.bind (only_send trivial) fun entry => by cases entry <;> trivial

theorem output_readHeads (items : List Item) : (readHeads items).Only Request.Output :=
  Prog.Only.bind (only_parallel ⟨⟩ fun _ _ => only_send ⟨⟩) fun _ => trivial

theorem reading_readHeads (items : List Item) : (readHeads items).Only Request.Reading :=
  Prog.Only.bind (only_parallel ⟨⟩ fun _ _ => only_send ⟨⟩) fun _ => trivial

theorem reading_listPages (after : Option EntryKey) (bounds : List EntryKey) :
    (listPages after bounds).Only Request.Reading := by
  induction bounds generalizing after with
  | nil => exact only_send trivial
  | cons bound bounds ih =>
    exact Prog.Only.bind (only_send trivial) fun _ => Prog.Only.bind (ih _) fun _ => trivial

theorem reading_listEntries : listEntries.Only Request.Reading :=
  ⟨trivial, fun bounds => reading_listPages none bounds⟩

theorem reading_relist (snap : Snapshot) (attempts : Nat) (listed : Dict Item (List EntryKey))
    (heads : Dict Item Head) : (relist snap attempts listed heads).Only Request.Reading := by
  induction attempts generalizing listed heads with
  | zero => trivial
  | succ attempts ih =>
    unfold relist
    dsimp only
    split
    · trivial
    · exact Prog.Only.bind reading_listEntries fun _ =>
        Prog.Only.bind (reading_readHeads _) fun _ => ih _ _

theorem reading_fetch (cut : Cut) : (fetch cut).Only Request.Reading := by
  refine Prog.Only.bind (only_parallel trivial fun pair _ => ?_) fun _ => trivial
  split
  · exact reading_getEntry _
  · trivial

theorem reading_readJournal (snap : Snapshot) : (readJournal snap).Only Request.Reading :=
  Prog.Only.bind reading_listEntries fun _ => Prog.Only.bind (reading_readHeads _) fun _ =>
    Prog.Only.bind (reading_relist _ _ _ _) fun _ => reading_fetch _

theorem reading_attempt (snap : Snapshot) : (attempt snap).Only Request.Reading := by
  refine Prog.Only.bind (Prog.Only.outcome (reading_readJournal snap)) fun read => ?_
  cases read with
  | ok cut => exact Prog.Only.bind (only_send trivial) fun _ => trivial
  | error error => cases error <;> trivial

theorem reading_cut : cut.Only Request.Reading := by
  unfold cut
  generalize limits.readAttempts = attempts
  induction attempts with
  | zero => trivial
  | succ attempts ih =>
    refine Prog.Only.bind (only_send trivial) fun found => ?_
    cases found with
    | none => trivial
    | some snap =>
      refine Prog.Only.bind (reading_attempt snap) fun read => ?_
      cases read with
      | some cut => trivial
      | none => exact ih

end Reads

namespace Views

theorem reading_ensure : ensure.Only Request.Reading := by
  refine Prog.Only.bind (only_memory trivial) fun found => ?_
  cases found with
  | some view => trivial
  | none => exact Prog.Only.bind Reads.reading_cut fun _ => only_memory trivial

theorem reading_writable : writable.Only Request.Reading := by
  have hend : ∀ view : View, Prog.Only Request.Reading (existing view) := by
    intro view
    unfold existing
    cases view.epoch <;> trivial
  refine Prog.Only.bind reading_ensure fun view => ?_
  dsimp only
  split
  · exact hend view
  · exact Prog.Only.bind Snapshots.reading_ensure fun _ => Prog.Only.bind (only_memory trivial)
      fun _ => Prog.Only.bind reading_ensure hend

end Views

namespace Maintenance

theorem journal_delete (keys : List EntryKey) : (delete keys).Only Request.Journal :=
  Prog.Only.bind (only_parallel trivial fun _ _ => ⟨trivial, fun _ => trivial⟩) fun _ => trivial

theorem journal_compact : compact.Only Request.Journal := by
  refine Prog.Only.bind (journal_of_reading Reads.reading_cut) fun read => ?_
  cases read with
  | none => trivial
  | some cut =>
    refine Prog.Only.bind (Prog.Only.catching
      (Prog.Only.bind (only_send trivial) fun _ => trivial) fun _ => trivial) fun counter => ?_
    dsimp only
    split
    · trivial
    split
    · refine Prog.Only.bind (Prog.Only.outcome (Snapshots.journal_put _ _ _)) fun swapped => ?_
      cases swapped with
      | ok snapshot => exact Prog.Only.bind (journal_delete _) fun _ => trivial
      | error error => cases error <;> trivial
    · exact Prog.Only.bind (journal_delete _) fun _ => trivial

end Maintenance

namespace Writes

theorem only_putEntry (entry : JournalEntry) :
    (putEntry entry).Only fun request => request = .aws (.putEntry entry) := by
  unfold putEntry
  generalize limits.casAttempts = attempts
  induction attempts with
  | zero => trivial
  | succ attempts ih =>
    refine Prog.Only.bind (only_send rfl) fun key => ?_
    cases key with
    | some key => trivial
    | none => exact ih

theorem output_putEntry (entry : JournalEntry) : (putEntry entry).Only Request.Output :=
  (only_putEntry entry).mono fun _ h => h ▸ trivial

theorem journal_checkScope (touched : List String) : (checkScope touched).Only Request.Journal := by
  refine Prog.Only.bind (only_memory trivial) fun lease => ?_
  cases lease with
  | none => trivial
  | some lease =>
    dsimp only
    split <;> trivial

theorem journal_commit (entry : JournalEntry) (ref : EntryKey) (expect : Nat)
    (lease : Option Lease) : (commit entry ref expect lease).Only Request.Journal := by
  have hend : ∀ head : Head, Prog.Only Request.Journal (commitRefused entry ref lease head) := by
    intro head
    unfold commitRefused
    split
    · trivial
    cases lease with
    | none => trivial
    | some lease =>
      dsimp only
      split <;> trivial
  refine Prog.Only.bind (only_send trivial) fun answer => ?_
  rcases answer with _ | (_ | head)
  · trivial
  · exact Prog.Only.bind (journal_of_output (Reads.output_getHead _)) fun head => hend head
  · exact hend head

theorem journal_writeNode (node : String) (record : Option StateNode) :
    (writeNode node record).Only Request.Journal := by
  refine Prog.Only.bind (journal_of_reading Views.reading_writable) fun view => ?_
  dsimp only
  split
  · trivial
  refine Prog.Only.bind (journal_checkScope _) fun _ => Prog.Only.bind (only_memory trivial)
    fun lease => Prog.Only.bind ?_ fun _ => only_memory trivial
  generalize limits.casAttempts = attempts
  generalize view.nodeSeq.getD node 0 = known
  generalize known + 1 = seq
  suffices hupTo : ∀ expect,
      (writeNodeUpTo node record known lease attempts expect seq).Only Request.Journal from hupTo _
  induction attempts generalizing seq with
  | zero => exact fun _ => trivial
  | succ attempts ih =>
    refine fun expect => Prog.Only.bind (journal_of_output (output_putEntry _)) fun ref =>
      Prog.Only.bind (journal_commit _ _ _ _) fun moved => ?_
    cases moved with
    | none => trivial
    | some moved => exact ih _ _

theorem only_unmoved {asks : Request → Prop} (heads : Dict Item Head) (folded : StateDocument)
    (lease : Option Lease) (nodes : List String) : (unmoved heads folded lease nodes).Only asks := by
  induction nodes with
  | nil => trivial
  | cons node nodes ih =>
    unfold unmoved
    dsimp only
    cases lease with
    | none =>
      dsimp only
      split
      · trivial
      · exact ih
    | some held =>
      dsimp only
      split
      · trivial
      split
      · trivial
      · exact ih

theorem journal_bulk (dropped : List String) (fresh : Dict String StateNode) :
    (bulk dropped fresh).Only Request.Journal := by
  refine Prog.Only.bind (journal_checkScope _) fun _ => Prog.Only.bind (only_memory trivial)
    fun lease => ?_
  generalize limits.casAttempts = attempts
  induction attempts with
  | zero => trivial
  | succ attempts ih =>
    refine Prog.Only.bind (journal_of_reading Snapshots.reading_ensure) fun _ =>
      Prog.Only.bind (journal_of_reading Reads.reading_cut) fun read => ?_
    cases read with
    | none => exact ih
    | some cut =>
      refine Prog.Only.ite (only_memory trivial) ?_
      refine Prog.Only.bind (Prog.Only.bind (journal_of_reading (Reads.reading_readHeads _)) fun _ =>
        only_unmoved _ _ _ _) fun still => ?_
      dsimp only
      split
      · refine Prog.Only.bind (Prog.Only.outcome (Snapshots.journal_put _ _ _)) fun swapped => ?_
        cases swapped with
        | ok snapshot =>
          exact Prog.Only.bind (only_memory trivial) fun _ =>
            Prog.Only.bind (Maintenance.journal_delete _) fun _ => trivial
        | error error => cases error <;> trivial
      · exact ih

theorem journal_replaceMany (deleteIds : List String) (nodes : List StateNode) :
    (replaceMany deleteIds nodes).Only Request.Journal := by
  refine Prog.Only.bind (journal_of_reading Views.reading_writable) fun view => ?_
  dsimp only
  split
  · trivial
  · exact Prog.Only.bind (journal_checkScope _) fun _ => journal_writeNode _ _
  · exact journal_bulk _ _

end Writes

namespace OutputWrites

/-- What committing the changes asks for: entries and heads of the stacks changed, and no others. -/
def AsksCommit (changes : List StackChange) : Request → Prop
  | .aws (.transact items) =>
    ∀ item ∈ items, (item.claimed = none ∧ item.raised = none) ∧
      ∀ update, item = .update update → ∃ change ∈ changes, update.item = ⟨.output, change.stack⟩
  | .aws (.putEntry entry) => ∃ change ∈ changes, entry.item = ⟨.output, change.stack⟩
  | .aws (.getHead _) | .memory (.record ..) | .schedule => True
  | _ => False

theorem AsksCommit.output {changes : List StackChange} {request : Request}
    (h : AsksCommit changes request) : request.Output := by
  match request, h with
  | .aws (.transact items), h => exact fun item hitem => (h item hitem).1
  | .aws (.putEntry _), _ | .aws (.getHead _), _ | .memory (.record ..), _ | .schedule, _ => trivial

theorem commit_updates {lease : Option Lease} {changes : List StackChange} {refs : List EntryKey}
    {item : TransactItem} (hitem : item ∈ (changes.zip refs).map fun (change, ref) =>
      outputUpdate change (outputEntry lease change) ref) :
    (item.claimed = none ∧ item.raised = none) ∧
      ∀ update, item = .update update → ∃ change ∈ changes, update.item = ⟨.output, change.stack⟩ := by
  obtain ⟨⟨change, ref⟩, hpair, rfl⟩ := List.mem_map.mp hitem
  refine ⟨⟨rfl, rfl⟩, ?_⟩
  rintro update heq
  cases heq
  exact ⟨change, (List.of_mem_zip hpair).1, rfl⟩

variable {changes : List StackChange}

theorem commit_putEntry (lease : Option Lease) {change : StackChange} (hchange : change ∈ changes) :
    (Writes.putEntry (outputEntry lease change)).Only (AsksCommit changes) :=
  (Writes.only_putEntry _).mono fun _ h => h ▸ ⟨change, hchange, rfl⟩

theorem commit_refusalFor (failed : List Nat) (chunk : List StackChange) (fenced : List String)
    (lease : Option Lease) : (refusalFor failed chunk fenced lease).Only (AsksCommit changes) := by
  unfold refusalFor
  split
  · exact Prog.Only.bind (Prog.Only.bind (only_send ⟨⟩) fun _ => trivial) fun _ => trivial
  · trivial

theorem commit_transactOutputs {items : List TransactItem} (chunk : List StackChange)
    (fenced : List String) (lease : Option Lease)
    (hitems : AsksCommit changes (.aws (.transact items))) :
    (transactOutputs items chunk fenced lease).Only (AsksCommit changes) := by
  refine Prog.Only.bind (only_transact hitems _) fun answer => ?_
  match answer with
  | (none, _) => trivial
  | (some failed, _) => exact commit_refusalFor failed chunk fenced lease

theorem commit_committed (chunk : List StackChange) :
    (committed chunk).Only (AsksCommit changes) := by
  induction chunk with
  | nil => trivial
  | cons change chunk ih => exact Prog.Only.bind (only_memory ⟨⟩) fun _ => ih

theorem commit_precheckFences (fenced : List String) (lease : Lease) :
    (precheckFences fenced lease).Only (AsksCommit changes) := by
  refine Prog.Only.bind (Prog.Only.bind (only_parallel ⟨⟩ fun _ _ => only_send ⟨⟩) fun _ => trivial)
    fun heads => ?_
  split <;> trivial

theorem commit_commitChunks (lease : Option Lease) (chunks : List (List (StackChange × TransactItem)))
    (hchunks : ∀ chunk ∈ chunks, AsksCommit changes (.aws (.transact (chunk.map Prod.snd)))) :
    (commitChunks lease chunks).Only (AsksCommit changes) := by
  induction chunks with
  | nil => trivial
  | cons chunk chunks ih =>
    have hrest := ih fun other hmem => hchunks other (List.mem_cons_of_mem _ hmem)
    refine Prog.Only.bind (commit_transactOutputs _ _ _ (hchunks chunk (List.mem_cons_self ..)))
      fun moved => ?_
    dsimp only
    split
    · exact Prog.Only.bind (commit_committed _) fun _ => Prog.Only.bind hrest fun _ => trivial
    · exact Prog.Only.bind hrest fun _ => trivial

theorem only_commit (changes : List StackChange) (fenced : List String) (lease : Option Lease) :
    (commit changes fenced lease).Only (AsksCommit changes) := by
  refine Prog.Only.bind (only_parallel ⟨⟩ fun change => commit_putEntry lease) fun refs => ?_
  have hwhole : ∀ checks : List TransactItem, AsksCommit changes (.aws (.transact checks)) →
      Prog.Only (AsksCommit changes) (do
        let moved ← transactOutputs ((changes.zip refs).map (fun (change, ref) =>
          outputUpdate change (outputEntry lease change) ref) ++ checks) changes fenced lease
        if moved = [] then committed changes else pure ()
        pure moved) := by
    intro checks hchecks
    refine Prog.Only.bind (commit_transactOutputs _ _ _ fun item hitem =>
      (List.mem_append.mp hitem).elim commit_updates (hchecks item)) fun moved => ?_
    dsimp only
    split
    · exact Prog.Only.bind (commit_committed _) fun _ => trivial
    · trivial
  have hchunks := commit_commitChunks lease (batched limits.transactMax (changes.zip
      ((changes.zip refs).map fun (change, ref) =>
        outputUpdate change (outputEntry lease change) ref))) fun chunk hchunk item hitem => by
    obtain ⟨pair, hpair, rfl⟩ := List.mem_map.mp hitem
    exact commit_updates (List.of_mem_zip ((sublist_of_mem_batched hchunk).subset hpair)).2
  cases lease with
  | none => exact Prog.Only.ite (hwhole [] fun _ h => nomatch h) hchunks
  | some lease =>
    refine Prog.Only.ite (hwhole _ fun item hitem => ?_)
      (Prog.Only.bind (commit_precheckFences _ _) fun _ => hchunks)
    obtain ⟨node, -, rfl⟩ := List.mem_map.mp hitem
    exact ⟨⟨rfl, rfl⟩, fun update heq => nomatch heq⟩

theorem output_commit (changes : List StackChange) (fenced : List String) (lease : Option Lease) :
    (commit changes fenced lease).Only Request.Output :=
  (only_commit changes fenced lease).mono fun _ => AsksCommit.output

theorem reading_refreshEach (heads : Dict Item Head) (names : List String) :
    (refreshEach heads names).Only Request.Reading := by
  induction names with
  | nil => trivial
  | cons stack names ih =>
    refine Prog.Only.bind ?_ fun more => Prog.Only.ite ih trivial
    refine Prog.Only.bind (only_memory trivial) fun view => ?_
    dsimp only
    split
    · refine Prog.Only.ite (Prog.Only.bind (only_memory trivial) fun _ => trivial) ?_
      refine Prog.Only.bind (Prog.Only.outcome (Reads.reading_getEntry _))
        fun fetched => ?_
      split
      · exact Prog.Only.bind (only_memory trivial) fun _ => trivial
      · trivial
      · exact Prog.Only.bind (only_memory trivial) fun _ => trivial
    · exact Prog.Only.bind (only_memory trivial) fun _ => trivial

theorem journal_setOutputs (outputs : Dict String Value) (remove : List String) :
    (setOutputs outputs remove).Only Request.Journal := by
  refine Prog.Only.bind (only_memory trivial) fun lease => ?_
  generalize limits.casAttempts = attempts
  induction attempts with
  | zero => trivial
  | succ attempts ih =>
    refine Prog.Only.bind (journal_of_reading Views.reading_writable) fun view => ?_
    dsimp only
    split
    · trivial
    refine Prog.Only.bind (journal_of_output (output_commit _ _ _)) fun moved => ?_
    cases moved with
    | nil => trivial
    | cons stack moved =>
      exact Prog.Only.bind (Prog.Only.bind (journal_of_reading (Reads.reading_readHeads _)) fun _ =>
        journal_of_reading (reading_refreshEach _ _)) fun _ => ih

end OutputWrites

end Atlantide
