import Atlantide.State.S3.WriteSafety

/-! # Views and node writes keep to the protocol -/

namespace Atlantide

open Interleaving History

variable {tid : Tid} {world : World}

/-- The process's view, once it knows the snapshot, is still there, with the same output sequence
numbers. Only the main thread may count on it. -/
def ViewHeld (tid : Tid) (view : View) (world : World) : Prop :=
  tid.thread = 0 → view.epoch ≠ none → ∃ current, (world.memory tid.process).view = some current ∧
    current.epoch ≠ none ∧ current.outSeq = view.outSeq

theorem ViewHeld.rely {view : View} {world' : World} (hheld : ViewHeld tid view world)
    (hrely : Rely tid world world') : ViewHeld tid view world' := by
  intro hmain hepoch
  obtain ⟨current, hcurrent, hknown, hseq⟩ := hheld hmain hepoch
  obtain ⟨later, hlater, hknown', hseq'⟩ := hrely.2 hmain current hcurrent hknown
  exact ⟨later, hlater, hknown', hseq'.trans hseq⟩

theorem ViewHeld.of_view {view : View} (hview : (world.memory tid.process).view = some view) :
    ViewHeld tid view world :=
  fun _ hepoch => ⟨view, hview, hepoch, rfl⟩

theorem memory_serve (tid : Tid) (choice : Choice) (world : World) (op : MemoryOp) :
    ((world.serve tid choice (.memory op)).2.memory tid.process) =
      ((world.memory tid.process).serve op).2.1 := by
  simp only [World.serve, World.serveMemory, Function.update_self]

/-- One operation on the process's memory. -/
theorem safe_memory {op : MemoryOp} {post : World → Except Error op.Result → Prop}
    (hlegit : ∀ a, Rely tid world a → WorldInv a → MemoryLegit tid (a.memory tid.process) op)
    (hpost : ∀ a choice, Rely tid world a → WorldInv a →
      WorldInv (a.serve tid choice (.memory op)).2 →
      post (a.serve tid choice (.memory op)).2 (.ok ((a.memory tid.process).serve op).1)) :
    SafeTask tid (memory op) world post :=
  fun a hrely hinv => ⟨hlegit a hrely hinv, fun choice hinv' => hpost a choice hrely hinv hinv'⟩

theorem safe_memory_any {op : MemoryOp}
    (hlegit : ∀ a, Rely tid world a → WorldInv a → MemoryLegit tid (a.memory tid.process) op) :
    SafeTask tid (memory op) world anyway :=
  safe_memory hlegit fun _ _ _ _ _ => trivial

namespace Views

theorem safe_ensure (hinv : WorldInv world) :
    SafeTask tid ensure world (onOk fun world' view =>
      view.BehindOk ∧ ViewHeld tid view world') := by
  have hread : SafeTask tid (memory .view) world (onOk fun a found =>
      ∀ view, found = some view → view.BehindOk ∧ ViewHeld tid view a) := by
    refine safe_memory (fun _ _ _ => trivial) ?_
    intro a choice _ hinva hinva' view hview
    have hsame := memory_serve tid choice a .view
    refine ⟨hinva.behind tid.process view hview, .of_view ?_⟩
    rw [hsame]
    exact hview
  refine SafeTask.andThen hread hinv ?_ fun _ _ => trivial
  rintro world' found - hinv' hfound
  cases found with
  | some view => exact hfound view rfl
  | none =>
    refine SafeTask.andThen (Reads.safe_cut hinv') hinv' ?_ fun _ _ => trivial
    intro world'' cut _ hinv'' _
    refine safe_memory (fun _ _ _ => View.behindOk_of cut) ?_
    intro a choice _ hinva hinva'
    have hinstalled : ((a.serve tid choice (.memory (.installView (View.of cut)))).2.memory
        tid.process).view = some ((a.memory tid.process).serve (.installView (View.of cut))).1 := by
      rw [memory_serve]
      simp only [Memory.serve]
      split
      next view hview => exact hview
      next => rfl
    exact ⟨hinva'.behind tid.process _ hinstalled, .of_view hinstalled⟩

theorem safe_writable (hinv : WorldInv world) :
    SafeTask tid writable world (onOk fun world' view =>
      view.BehindOk ∧ view.epoch ≠ none ∧ ViewHeld tid view world') := by
  have hlast : ∀ world' view, view.BehindOk ∧ ViewHeld tid view world' →
      SafeTask tid (existing view) world' (onOk fun world' view =>
        view.BehindOk ∧ view.epoch ≠ none ∧ ViewHeld tid view world') := by
    rintro world' view ⟨hbehind, hheld⟩
    unfold existing
    cases hepoch : view.epoch with
    | none => trivial
    | some epoch => exact ⟨hbehind, by rw [hepoch]; exact Option.some_ne_none epoch, hheld⟩
  refine SafeTask.andThen (safe_ensure hinv) hinv ?_ fun _ _ => trivial
  intro world' view _ hinv' hview
  dsimp only
  split
  next epoch hepoch => exact hlast world' view hview
  next hepoch =>
    refine SafeTask.andThen Snapshots.safe_ensure hinv' ?_ fun _ _ => trivial
    intro a _ _ hinva _
    refine SafeTask.andThen (safe_memory_any fun _ _ _ => .inr hepoch) hinva ?_ fun _ _ => trivial
    intro b _ _ hinvb _
    refine SafeTask.andThen (safe_ensure hinvb) hinvb ?_ fun _ _ => trivial
    exact fun c view' _ _ hview' => hlast c view' hview'

end Views

namespace Writes

/-- A stored entry's key is the entry's, under a nonce of its own. -/
theorem safe_putEntry {may : Event → Prop} {entry : JournalEntry} (hwithin : entry.WithinStack) :
    SafeThread tid may (fun request => request = .aws (.putEntry entry)) (putEntry entry) world
      (onOk fun world' key => Stored world'.history key entry ∧ key.item = entry.item ∧
        key.seq = entry.seq) := by
  unfold putEntry
  generalize limits.casAttempts = attempts
  induction attempts generalizing world with
  | zero => trivial
  | succ attempts ih =>
    refine Safe.bind (safe_send_any (fun _ => True) (fun _ _ _ _ _ => trivial)
      (fun _ _ _ => ⟨rfl, hwithin⟩) ?_ (fun _ _ h => nomatch h) (fun _ _ => trivial) trivial)
    refine fun a _ _ _ => ⟨trivial, ?_, fun answer hlost => ?_⟩
    · exact ⟨⟨_, List.mem_cons_self .., rfl⟩, rfl, rfl⟩
    · cases hlost
      exact ih

/-- The entry is committed where its update was applied, and where the head it was refused for is the
entry's own. -/
def Answered (ref : EntryKey) (history : History) : Conditional Head → Prop
  | .applied => ∃ update, Committed history update ∧ update.ref = ref
  | .refused old => ∀ head, old = some head → head.ref = some ref →
    ∃ update, Committed history update ∧ update.ref = ref

/-- A committed entry's head update; a repeated one that finds its own entry committed is done too. -/
theorem safe_commit {entry : JournalEntry} {ref : EntryKey} {expect : Nat} {lease : Option Lease}
    (hexpect : expect < entry.seq) (hitem : ref.item = entry.item) (hseq : ref.seq = entry.seq)
    (hstored : Stored world.history ref entry) (hinv : WorldInv world) :
    SafeTask tid (commit entry ref expect lease) world (onOk fun world' moved =>
      moved = none → ∃ update, Committed world'.history update ∧ update.ref = ref) := by
  have hend : ∀ (a : World) (head : Head),
      (head.ref = some ref → ∃ update, Committed a.history update ∧ update.ref = ref) →
      SafeTask tid (commitRefused entry ref lease head) a (onOk fun world' moved =>
        moved = none → ∃ update, Committed world'.history update ∧ update.ref = ref) := by
    intro a head hcommitted
    unfold commitRefused
    split
    next href => exact fun _ => hcommitted href
    next =>
      cases lease with
      | none => rintro ⟨⟩
      | some lease =>
        dsimp only
        split
        · rintro ⟨⟩
        · trivial
  have hupdated : ∀ update : HeadUpdate, update = { item := entry.item, seq := entry.seq, ref
                                                    op := entry.op, expect := some expect
                                                    fence := lease.map Lease.fence } →
      SafeTask tid (send (.updateHead update)) world
        (onOk fun a answer => Answered ref a.history answer) := by
    rintro update hupdate
    refine safe_send (fun a => Stored a.history ref entry) ⟨fun _ => rfl, rfl⟩ ?_ ?_ ?_
      (fun _ _ => trivial) hstored
    · intro a b hknown hrely _
      obtain ⟨more, hgrows⟩ := Rely.evolves hrely
      exact hgrows.history ▸ hknown.append more
    · intro a hknown _
      rw [hupdate]
      exact ⟨rfl, ⟨expect, rfl, hexpect⟩, hitem, hseq, entry, hknown⟩
    · intro a hknown hinva _
      by_cases hallowed : update.allowed (a.store.head update.item) = true
      · simp only [World.after, World.record, Store.serve, if_pos hallowed]
        refine ⟨hknown.append [_], update, ⟨_, List.mem_cons_self .., rfl⟩, by rw [hupdate]⟩
      · simp only [World.after, World.record, Store.serve, if_neg hallowed]
        refine ⟨hknown, fun head hhead href => ?_⟩
        have hat := hinva.journal.headAt update.item
        rw [hhead] at hat
        exact hat.committed href
  refine SafeTask.andThen (hupdated _ rfl) hinv ?_ fun _ _ => trivial
  rintro a (_ | old) - hinva hanswer
  · exact fun _ => hanswer
  cases old with
  | some head => exact hend a head (hanswer head rfl)
  | none =>
    refine SafeTask.andThen (Reads.safe_getHead entry.item) hinva ?_ fun _ _ => trivial
    exact fun b head _ _ hcommitted => hend b head (hcommitted ref)

theorem withinStack_nodeEntry (node : String) (record : Option StateNode) (seq : Nat)
    (lease : Option Lease) : (nodeEntry node record seq lease).WithinStack :=
  fun _ hkind => nomatch hkind

theorem safe_writeNodeUpTo {node : String} {record : Option StateNode} {known expect seq : Nat}
    {lease : Option Lease} (hexpect : expect < seq) (hinv : WorldInv world) (attempts : Nat) :
    SafeTask tid (writeNodeUpTo node record known lease attempts expect seq) world anyway := by
  induction attempts generalizing world expect seq with
  | zero => trivial
  | succ attempts ih =>
    let entry := nodeEntry node record seq lease
    have hput : SafeThread tid (fun _ => True) _ (putEntry entry) world _ :=
      safe_putEntry (withinStack_nodeEntry node record seq lease)
    refine SafeTask.andThen hput.task hinv ?_ fun _ _ => trivial
    rintro a ref - hinva ⟨hstored, hitem, hseq⟩
    have hcommit : SafeTask tid (commit entry ref expect lease) a _ :=
      safe_commit hexpect hitem hseq hstored hinva
    refine SafeTask.andThen hcommit hinva ?_ fun _ _ => trivial
    rintro b moved - hinvb -
    cases moved with
    | none => trivial
    | some moved => exact ih (by omega) hinvb

theorem only_checkScope (touched : List String) :
    (checkScope touched).Only fun request => request = .memory .boundLease := by
  refine Prog.Only.bind (only_memory rfl) fun lease => ?_
  cases lease with
  | none => trivial
  | some lease =>
    dsimp only
    split <;> trivial

theorem safe_checkScope (touched : List String) : SafeTask tid (checkScope touched) world anyway :=
  SafeTask.of_only (only_checkScope touched) fun _ _ _ h => by subst h; trivial

theorem safe_writeNode (node : String) (record : Option StateNode) (hinv : WorldInv world) :
    SafeTask tid (writeNode node record) world anyway := by
  refine SafeTask.andThen (Views.safe_writable hinv) hinv ?_ fun _ _ => trivial
  rintro a view - hinva -
  dsimp only
  split
  · trivial
  refine SafeTask.andThen (safe_checkScope [node]) hinva ?_ fun _ _ => trivial
  intro b _ _ hinvb _
  refine SafeTask.andThen (safe_memory_any fun _ _ _ => trivial) hinvb ?_ fun _ _ => trivial
  intro c lease _ hinvc _
  refine SafeTask.andThen (safe_writeNodeUpTo (Nat.lt_succ_self _) hinvc _) hinvc ?_
    fun _ _ => trivial
  exact fun d seq _ _ _ => safe_memory_any fun _ _ _ => .inr rfl

/-! ## Bulk writes -/

theorem safe_unmoved (heads : Dict Item Head) (folded : StateDocument) (lease : Option Lease)
    (nodes : List String) :
    SafeTask tid (unmoved heads folded lease nodes) world (onOk fun world' still =>
      world' = world ∧ (still = true → ∀ node ∈ nodes,
        (heads.getD ⟨.node, node⟩ {}).seq.getD 0 ≤ folded.wm.getD node 0)) := by
  induction nodes with
  | nil => exact ⟨rfl, fun _ _ h => nomatch h⟩
  | cons node nodes ih =>
    have hrest : SafeTask tid (if folded.wm.getD node 0 < (heads.getD ⟨.node, node⟩ {}).seq.getD 0
          then pure false else unmoved heads folded lease nodes) world (onOk fun world' still =>
        world' = world ∧ (still = true → ∀ other ∈ node :: nodes,
          (heads.getD ⟨.node, other⟩ {}).seq.getD 0 ≤ folded.wm.getD other 0)) := by
      split
      · exact ⟨rfl, fun h => nomatch h⟩
      next hle =>
        refine ih.mono ?_
        rintro world' (error | still) hpost
        · trivial
        · refine ⟨hpost.1, fun hstill other hmem => ?_⟩
          rcases List.mem_cons.mp hmem with rfl | hmem
          · exact Nat.le_of_not_lt hle
          · exact hpost.2 hstill other hmem
    unfold unmoved
    dsimp only
    cases lease with
    | none => exact hrest
    | some held =>
      dsimp only
      split
      · trivial
      · exact hrest

/-- A passed pre-check: every node's head was read, and is where the fold left it. -/
theorem safe_headsUnmoved (touched : List String) (folded : StateDocument) (lease : Option Lease)
    (hinv : WorldInv world) :
    SafeTask tid (headsUnmoved touched folded lease) world (onOk fun world' still =>
      Keeps tid (fun event => event.opens = false) world world' ∧ (still = true → ∀ node ∈ touched,
        ∃ past, lastSince tid (Event.reads ⟨.node, node⟩) world'.history = some past ∧
          world.history <:+ past ∧ newestSeq ⟨.node, node⟩ past ≤ folded.wm.getD node 0)) := by
  have hreads : ∀ request event, AsksHeads (touched.map fun node => ⟨.node, node⟩) request →
      request.Leaves event → event.opens = false := by
    intro request event hasks hleaves
    obtain ⟨item, -, head, rfl⟩ := leaves_asksHeads hasks hleaves
    rfl
  refine Safe.bind (Safe.mono (SafeTask.keeps (Reads.safe_readHeads _ hinv)
    (Reads.only_readHeads _) hreads hinv) ?_)
  rintro a (error | heads) ⟨hkeeps, hinva, hseen⟩
  · trivial
  refine Safe.mono (safe_unmoved heads folded lease touched) ?_
  rintro b (error | still) hpost
  · trivial
  obtain ⟨rfl, hstill⟩ := hpost
  refine ⟨hkeeps, fun h node hnode => ?_⟩
  obtain ⟨past, hlast, hsince, hat⟩ :=
    (hseen ⟨.node, node⟩).1 (List.mem_map.mpr ⟨node, hnode, rfl⟩)
  refine ⟨past, hlast, hsince, ?_⟩
  have hle := hstill h node hnode
  rw [Std.ExtTreeMap.getD_eq_getD_getElem?] at hle
  have hnewest : newestSeq ⟨.node, node⟩ past =
      ((heads[(⟨.node, node⟩ : Item)]?).getD {}).seq.getD 0 := by
    have hseq := hat.seq
    rw [newestSeq]
    cases hhead : heads[(⟨.node, node⟩ : Item)]? <;> rw [hhead] at hseq <;>
      cases hn : newest ⟨.node, node⟩ past <;> rw [hn] at hseq <;> simp_all
  omega

theorem getElem?_bulkNodes {dropped : List String} {fresh nodes : Dict String StateNode}
    {node : String} (hdropped : node ∉ dropped) (hfresh : node ∉ fresh) :
    (bulkNodes dropped fresh nodes)[node]? = nodes[node]? := by
  rw [bulkNodes, Std.ExtTreeMap.getElem?_union, Std.ExtTreeMap.getElem?_eq_none hfresh,
    Option.none_or, Std.ExtTreeMap.getElem?_filter']
  cases nodes[node]? <;> simp [hdropped]

theorem safe_bulkUpTo {dropped : List String} {fresh : Dict String StateNode}
    {touched : List String} {lease : Option Lease} (hmain : tid.thread = 0)
    (htouched : ∀ node, node ∈ dropped ∨ node ∈ fresh → node ∈ touched) (hinv : WorldInv world)
    (attempts : Nat) :
    SafeTask tid (bulkUpTo dropped fresh touched lease attempts) world anyway := by
  induction attempts generalizing world with
  | zero => trivial
  | succ attempts ih =>
    refine SafeTask.andThen Snapshots.safe_ensure hinv ?_ fun _ _ => trivial
    intro a _ _ hinva _
    refine SafeTask.andThen (Reads.safe_cut hinva) hinva ?_ fun _ _ => trivial
    rintro b read - hinvb ⟨-, hread⟩
    cases read with
    | none => exact ih hinvb
    | some cut =>
      obtain ⟨start, -, hseen⟩ := hread cut rfl
      have hsound := hseen.toCutSound
      refine SafeTask.ite (fun _ => safe_memory_any fun _ _ _ => hmain) fun _ => ?_
      refine SafeTask.andThen (safe_headsUnmoved touched _ lease hinvb) hinvb ?_ fun _ _ => trivial
      rintro c still - hinvc ⟨hkeeps, hstill⟩
      dsimp only
      split
      next hpassed =>
        -- The heads were read after the cut was complete, so none is behind the fold.
        have hchecked : ∀ node ∈ touched, CutSound.Checked tid (cut.fold 0) start c node := by
          intro node hnode
          obtain ⟨past, hlast, hsince, hle⟩ := hstill hpassed node hnode
          refine ⟨past, hlast, hsound.evolves.suffix.trans hsince, Nat.le_antisymm hle ?_⟩
          obtain ⟨moment, ⟨later, hlater⟩, -⟩ := lastSince_suffix hlast
          obtain ⟨between, hbetween⟩ := hsince
          have hrise := hinvc.journal.rise
          rw [← hlater, ← hbetween] at hrise
          have hrise' : CommitsRise (between ++ b.history) :=
            @CommitsRise.of_append _ (later ++ [moment]) (by simpa using hrise)
          have hmark := hsound.mark_newest 0 hinvb ⟨.node, node⟩
          rw [watermark_node] at hmark
          rw [← hbetween]
          exact Nat.le_trans hmark (newestSeq_le_append hrise')
        refine SafeTask.andThen (Snapshots.safe_tryPut
          (fun d => CutSound cut start d ∧
            ∀ node ∈ touched, CutSound.Checked tid (cut.fold 0) start d node)
          ?_ ?_ ⟨hsound.evolve hkeeps.evolves, hchecked⟩) hinvc ?_ fun _ _ => trivial
        · rintro d e ⟨hsoundd, hcheckedd⟩ hkeeps'
          refine ⟨hsoundd.evolve hkeeps'.evolves, fun node hnode => ?_⟩
          obtain ⟨past, hlast, hrest⟩ := hcheckedd node hnode
          refine ⟨past, (hkeeps'.lastSince_eq ?_).trans hlast, hrest⟩
          intro event hswap
          cases event <;> first | exact ⟨rfl, rfl⟩ | cases hswap
        · rintro d ⟨hsoundd, hcheckedd⟩ hinvd hetag
          refine hsoundd.bulk_ok 0 hinvd hetag rfl (fun node hnode => ?_) hcheckedd
          exact getElem?_bulkNodes (fun h => hnode (htouched node (.inl h)))
            fun h => hnode (htouched node (.inr h))
        rintro d (error | snapshot) - hinvd hmarks
        · cases error <;> first | trivial | exact ih hinvd
        refine SafeTask.andThen (safe_memory_any fun _ _ _ => hmain) hinvd ?_ fun _ _ => trivial
        rintro e _ ⟨more, hgrows⟩ hinve -
        refine SafeTask.andThen (Maintenance.safe_delete hinve fun key hkey => ?_) hinve
          (fun _ _ _ _ _ => trivial) fun _ _ => trivial
        exact Nat.le_trans (Maintenance.mem_garbage hseen.own hkey)
          (Nat.le_trans (hmarks snapshot rfl key.item) (hgrows.marks key.item))
      next => exact ih hinvc

theorem safe_bulk (dropped : List String) (fresh : Dict String StateNode) (hmain : tid.thread = 0)
    (hinv : WorldInv world) : SafeTask tid (bulk dropped fresh) world anyway := by
  refine SafeTask.andThen (safe_checkScope _) hinv ?_ fun _ _ => trivial
  intro a _ _ hinva _
  refine SafeTask.andThen (safe_memory_any fun _ _ _ => trivial) hinva ?_ fun _ _ => trivial
  intro b lease _ hinvb _
  refine safe_bulkUpTo hmain (fun node hnode => ?_) hinvb _
  rw [mem_sortedSet, List.mem_append, Std.ExtTreeMap.mem_keys]
  exact hnode

theorem safe_replaceMany (deleteIds : List String) (nodes : List StateNode)
    (hmain : tid.thread = 0) (hinv : WorldInv world) :
    SafeTask tid (replaceMany deleteIds nodes) world anyway := by
  refine SafeTask.andThen (Views.safe_writable hinv) hinv ?_ fun _ _ => trivial
  rintro a view - hinva -
  dsimp only
  split
  · trivial
  · refine SafeTask.andThen (safe_checkScope _) hinva ?_ fun _ _ => trivial
    exact fun b _ _ hinvb _ => safe_writeNode _ _ hinvb
  · exact safe_bulk _ _ hmain hinva

end Writes

end Atlantide
