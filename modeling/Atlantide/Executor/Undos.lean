import Mathlib.Tactic.SplitIfs
import Atlantide.Executor.Trace

/-! # Which undos a run records

A node records at most one undo in each of the first two passes: in phase 0 that of its delete
half, in the forward pass that of what its change did. -/

namespace Atlantide.Executor

open Interleaving

/-- The request records no undo. -/
def Request.Quiet : Request → Prop
  | .memory (.record _ _) => False
  | _ => True

theorem Request.Quiet.recorded {event : Event} (hquiet : event.request.Quiet) :
    event.recorded = none := by
  obtain ⟨stage, nodeId, request, reply, landed⟩ := event
  cases request with
  | memory update =>
    cases update with
    | record other undo => exact hquiet.elim
    | _ => rfl
  | _ => rfl

theorem quiet_forget (nodeId : String) : (forget nodeId).Only Request.Quiet :=
  forget_only trivial trivial (fun _ => trivial) trivial

namespace RunContext

variable (run : RunContext)

theorem quiet_writeAhead (nodeId : String) (res : Resource) :
    (run.writeAhead nodeId res).Only Request.Quiet :=
  run.writeAhead_only trivial fun _ => trivial

theorem quiet_deleteNode (nodeId : String) : (run.deleteNode nodeId).Only Request.Quiet :=
  run.deleteNode_only trivial trivial (fun _ => trivial) (quiet_forget nodeId)

theorem quiet_cbdCleanup (nodeId : String) (old : Resource) :
    (run.cbdCleanup nodeId old).Only Request.Quiet := by
  refine Prog.Only.bind (catchException_only ?_ fun failure => ?_) fun _ => Step.erase_only trivial
  · exact (Step.compute_only _).bind fun _ => Step.delete_only trivial
  · exact (Step.memory_only trivial).bind fun _ => trivial

theorem quiet_destroyNode (nodeId : String) : (run.destroyNode nodeId).Only Request.Quiet := by
  refine (Step.look_only trivial).bind fun memory => ?_
  split
  · exact run.quiet_cbdCleanup nodeId _
  · exact run.quiet_deleteNode nodeId

theorem quiet_undo (nodeId : String) (undo : Undo) : (run.undo nodeId undo).Only Request.Quiet := by
  cases undo with
  | create res => exact (Step.delete_only trivial).bind fun _ => Step.drop_only trivial
  | update old prior priorOutputs => exact (Step.update_only trivial).bind fun _ => Step.put_only trivial
  | replace new old prior =>
    exact (Step.delete_only trivial).bind fun _ => (Step.create_only trivial).bind fun _ => Step.put_only trivial
  | delete old prior => exact (Step.create_only trivial).bind fun _ => Step.put_only trivial
  | cbdCreate new prior =>
    exact (Step.delete_only trivial).bind fun _ => (Step.put_only trivial).bind fun _ => Step.drop_only trivial
  | restoreRow prior => exact Step.put_only trivial

theorem quiet_compensate (rows : Except Failure StateGraph) (nodeId : String) (undo : Undo) :
    (run.compensate rows nodeId undo).Only Request.Quiet := by
  refine (Step.leaseLost_only trivial).bind fun lost => .ite (Step.memory_only trivial) ?_
  refine (Step.memory_only trivial).bind fun _ => Prog.Only.bind ?_ fun _ =>
    catchException_only (run.quiet_undo nodeId undo) fun _ => Step.memory_only trivial
  cases rows with
  | ok rows => exact markStale_only (some rows) trivial (fun _ => trivial) trivial
  | error failure => exact Step.memory_only trivial

theorem quiet_compensateAll (rows : Except Failure StateGraph)
    (compensations : List (String × Undo)) :
    (run.compensateAll rows compensations).Only Request.Quiet := by
  induction compensations with
  | nil => trivial
  | cons compensation compensations ih =>
    exact (run.quiet_compensate rows _ _).bind fun _ => ih

theorem quiet_rollBack : run.rollBack.Only Request.Quiet := by
  refine (Step.leaseLost_only trivial).bind fun lost => .ite trivial ?_
  refine (Step.look_only trivial).bind fun memory => Prog.Only.bind ?_ fun rows => run.quiet_compensateAll _ _
  cases memory.compensations with
  | nil => trivial
  | cons compensation compensations => exact (Step.load_only trivial).outcome

/-! ## One undo a pass -/

section

variable {α : Type} {stage : Stage} {nodeId : String} {kind : Undo → Prop} {past : List Event}

/-- So far the node has recorded no undo, or one of the kind. -/
def RecordsOne (nodeId : String) (kind : Undo → Prop) (past : List Event) : Prop :=
  undosOf past = [] ∨ ∃ undo, undosOf past = [(nodeId, undo)] ∧ kind undo

/-- The program, from where nothing has been recorded, records at most one undo of the kind. -/
def Records (stage : Stage) (nodeId : String) (kind : Undo → Prop) (program : Step α) : Prop :=
  ∀ past, undosOf past = [] →
    Along stage nodeId Event.Sound (RecordsOne nodeId kind) program past fun past _ =>
      RecordsOne nodeId kind past

theorem undosOf_cons_quiet {event : Event} (hquiet : event.request.Quiet) :
    undosOf (event :: past) = undosOf past := by
  rw [undosOf, List.filterMap_cons, hquiet.recorded]
  rfl

/-- A program that records nothing leaves the record as it is. -/
theorem along_quiet {program : Step α} (hquiet : program.Only Request.Quiet)
    (hpast : RecordsOne nodeId kind past) :
    Along stage nodeId Event.Sound (RecordsOne nodeId kind) program past fun past' _ =>
      undosOf past' = undosOf past := by
  refine Along.of_only hquiet (fun event _ _ _ hrequest _ hsame => ?_) (fun _ hsame => ?_) rfl
  · rw [undosOf_cons_quiet hrequest, hsame]
  · unfold RecordsOne at hpast ⊢
    rw [hsame]
    exact hpast

theorem Records.of_quiet {program : Step α} (hquiet : program.Only Request.Quiet) :
    Records stage nodeId kind program := by
  intro past hpast
  exact (along_quiet hquiet (.inl hpast)).mono fun _ _ hsame => .inl (hsame.trans hpast)

/-- What goes before the record. -/
theorem Records.after_quiet {β : Type} {program : Step α} {next : α → Step β}
    (hquiet : program.Only Request.Quiet) (hnext : ∀ value, Records stage nodeId kind (next value)) :
    Records stage nodeId kind (program.bind next) := by
  intro past hpast
  refine Along.bind ((along_quiet hquiet (.inl hpast)).mono fun past' outcome hsame => ?_)
  cases outcome with
  | ok value => exact hnext value past' (hsame.trans hpast)
  | error failure => exact .inl (hsame.trans hpast)

/-- What goes after the record. -/
theorem Records.then_quiet {β : Type} {program : Step α} {next : α → Step β}
    (hrecords : Records stage nodeId kind program) (hquiet : ∀ value, (next value).Only Request.Quiet) :
    Records stage nodeId kind (program.bind next) := by
  intro past hpast
  refine Along.bind ((hrecords past hpast).mono fun past' outcome hone => ?_)
  cases outcome with
  | error failure => exact hone
  | ok value =>
    refine (along_quiet (hquiet value) hone).mono fun past'' _ hsame => ?_
    unfold RecordsOne at hone ⊢
    rw [hsame]
    exact hone

/-- What a computation yields may be taken for granted after it. -/
theorem Records.compute {β : Type} {computed : Except Fault α} {next : α → Step β}
    (hnext : ∀ value, computed = .ok value → Records stage nodeId kind (next value)) :
    Records stage nodeId kind ((Step.compute computed).bind next) := by
  cases computed with
  | ok value => exact hnext value rfl
  | error fault => exact fun past hpast => .inl hpast

theorem records_record {undo : Undo} (hkind : kind undo) :
    Records stage nodeId kind (run.record nodeId undo) := by
  intro past hpast
  unfold record
  split
  · intro reply landed hsound
    have hone : RecordsOne nodeId kind
        (⟨stage, nodeId, .memory (.record nodeId undo), reply, landed⟩ :: past) :=
      .inr ⟨undo, congrArg ((nodeId, undo) :: ·) hpast, hkind⟩
    exact ⟨hone, hone⟩
  · exact .inl hpast

/-- A node whose row was built is one of the config's. -/
theorem mem_of_stateNode {live : LiveOutputs} {res : Resource} {outputs : Dict String Value}
    {status : NodeStatus} {row : StateNode}
    (hrow : run.stateNode live nodeId res outputs status = .ok row) :
    nodeId ∈ run.desired.ir.byId := by
  unfold stateNode irNode at hrow
  split at hrow
  next node hnode =>
    rw [Std.ExtTreeMap.mem_iff_isSome_getElem?, hnode]
    rfl
  next => cases hrow

theorem Records.writeAhead {res : Resource} {next : Unit → Step α}
    (hnext : nodeId ∈ run.desired.ir.byId → ∀ value, Records stage nodeId kind (next value)) :
    Records stage nodeId kind ((run.writeAhead nodeId res).bind next) := by
  unfold RunContext.writeAhead
  simp only [Prog.bind_eq, Prog.bind_assoc]
  refine Records.after_quiet (Step.look_only trivial) fun memory => Records.compute fun row hrow => ?_
  exact Records.after_quiet (Step.put_only trivial) fun value => hnext (run.mem_of_stateNode hrow) value

/-- The undo of the delete half of a recorded node of the config. -/
def Predelete (nodeId : String) (undo : Undo) : Prop :=
  nodeId ∈ run.desired.ir.byId ∧ ∃ old prior, undo = .delete old prior ∧
    run.prior[nodeId]? = some prior

theorem records_predeleteNode :
    Records .predelete nodeId (run.Predelete nodeId) (run.predeleteNode nodeId) := by
  unfold predeleteNode
  split_ifs
  · exact Records.of_quiet (run.quiet_deleteNode nodeId)
  · unfold predestroy
    split
    · exact Records.of_quiet trivial
    next prior hprior =>
      refine Records.after_quiet (Step.look_only trivial) fun memory => ?_
      refine Records.after_quiet (Step.compute_only _) fun old => ?_
      refine Records.after_quiet (Step.compute_only _) fun _ => ?_
      refine Records.after_quiet (Step.compute_only _) fun res => ?_
      refine Records.writeAhead run fun hmem _ => ?_
      refine Records.after_quiet (Step.delete_only trivial) fun _ => ?_
      exact run.records_record ⟨hmem, old, prior, rfl, hprior⟩
  · exact Records.of_quiet trivial

/-- An undo the forward pass records for a node of the config. -/
def ForwardUndo (nodeId : String) (undo : Undo) : Prop :=
  nodeId ∈ run.desired.ir.byId ∧
    match undo with
    | .create _ => True
    | .update _ prior _ | .cbdCreate _ prior | .restoreRow prior =>
      run.prior[nodeId]? = some prior
    | .replace _ _ row => ∃ prior refDigests, run.prior[nodeId]? = some prior ∧
      row = { prior with refDigests := refDigests }
    | .delete _ _ => False

theorem records_create (res : Resource) (hmem : nodeId ∈ run.desired.ir.byId) :
    Records .forward nodeId (run.ForwardUndo nodeId) (run.create nodeId res) := by
  refine Records.after_quiet (run.quiet_writeAhead nodeId res) fun _ => ?_
  refine Records.after_quiet (Step.create_only trivial) fun created => ?_
  refine Records.after_quiet (Step.memory_only trivial) fun _ => ?_
  exact run.records_record ⟨hmem, trivial⟩

theorem records_update (res : Resource) (hmem : nodeId ∈ run.desired.ir.byId) :
    Records .forward nodeId (run.ForwardUndo nodeId) (run.update nodeId res) := by
  refine Records.after_quiet (Step.look_only trivial) fun memory => ?_
  refine Records.after_quiet (Step.update_only trivial) fun updated => ?_
  refine Records.after_quiet (Step.memory_only trivial) fun _ => ?_
  split
  · exact Records.of_quiet trivial
  next prior hprior =>
    refine Records.after_quiet (Step.compute_only _) fun old => ?_
    refine Records.after_quiet (Step.compute_only _) fun priorOutputs => ?_
    exact run.records_record ⟨hmem, hprior⟩

theorem quiet_clearCompanion (companion : String) :
    (run.clearCompanion companion).Only Request.Quiet :=
  (Step.look_only trivial).bind fun _ => .ite (run.quiet_deleteNode companion) (.ite trivial trivial)

theorem records_replaceCbd (res old : Resource) {prior : StateNode}
    (hmem : nodeId ∈ run.desired.ir.byId) (hprior : run.prior[nodeId]? = some prior) :
    Records .forward nodeId (run.ForwardUndo nodeId) (run.replaceCbd nodeId res old prior) := by
  refine Records.after_quiet (run.quiet_clearCompanion _) fun _ => ?_
  refine Records.after_quiet (Step.put_only trivial) fun _ => ?_
  refine Records.after_quiet (run.quiet_writeAhead nodeId res) fun _ => ?_
  refine Records.after_quiet (Step.create_only trivial) fun created => ?_
  refine Records.after_quiet (Step.memory_only trivial) fun _ => ?_
  refine Records.after_quiet (Step.memory_only trivial) fun _ => ?_
  exact run.records_record ⟨hmem, hprior⟩

theorem quiet_destroyOld (res old : Resource) :
    (run.destroyOld nodeId res old).Only Request.Quiet :=
  .ite trivial ((run.quiet_writeAhead nodeId res).bind fun _ => Step.delete_only trivial)

theorem records_replaceDbc (res old : Resource) {prior : Option StateNode}
    (hmem : nodeId ∈ run.desired.ir.byId)
    (hprior : ∀ row ∈ prior, run.prior[nodeId]? = some row) :
    Records .forward nodeId (run.ForwardUndo nodeId) (run.replaceDbc nodeId res old prior) := by
  refine Records.after_quiet (run.quiet_destroyOld res old) fun _ => ?_
  refine Records.after_quiet (Step.create_only trivial) fun created => ?_
  refine Records.after_quiet (Step.memory_only trivial) fun _ => ?_
  unfold recordReplaced
  split
  · exact run.records_record ⟨hmem, trivial⟩
  · split
    · exact Records.of_quiet trivial
    next row =>
      exact Records.after_quiet (Step.look_only trivial) fun memory => run.records_record
        ⟨hmem, row, _, hprior row rfl, rfl⟩

theorem records_replace (change : Change) (res : Resource) (hmem : nodeId ∈ run.desired.ir.byId) :
    Records .forward nodeId (run.ForwardUndo nodeId) (run.replace nodeId change res) := by
  unfold replace
  split
  · exact run.records_replaceDbc res res hmem nofun
  next prior hprior =>
    refine Records.after_quiet (Step.look_only trivial) fun memory => ?_
    refine Records.after_quiet (Step.compute_only _) fun old => ?_
    split
    · exact run.records_replaceCbd res old hmem hprior
    · exact run.records_replaceDbc res old hmem fun row hrow => by cases hrow; exact hprior

theorem records_rewriteRow {prior row : StateNode} (hmem : nodeId ∈ run.desired.ir.byId)
    (hprior : run.prior[nodeId]? = some prior) :
    Records .forward nodeId (run.ForwardUndo nodeId) (run.rewriteRow prior row) := by
  obtain rfl : prior.id = nodeId := run.keyed nodeId prior hprior
  exact Records.then_quiet (run.records_record ⟨hmem, hprior⟩) fun _ => Step.put_only trivial

theorem records_applyChange (change : Change) (res : Resource)
    (hmem : nodeId ∈ run.desired.ir.byId) :
    Records .forward nodeId (run.ForwardUndo nodeId) (run.applyChange nodeId change res) := by
  unfold applyChange
  split
  · exact run.records_create res hmem
  · exact run.records_update res hmem
  · exact run.records_replace change res hmem
  all_goals exact Records.of_quiet trivial

theorem records_applyOne (change : Change) (hmem : nodeId ∈ run.desired.ir.byId) :
    Records .forward nodeId (run.ForwardUndo nodeId) (run.applyOne nodeId change) := by
  unfold applyOne recordStateOnly recordCollapsed
  split
  · split
    · split
      next prior desired hprior hdesired =>
        exact run.records_rewriteRow hmem hprior
      next => exact Records.of_quiet trivial
    · split
      next => exact Records.of_quiet trivial
      next prior hprior =>
        refine Records.after_quiet (Step.look_only trivial) fun memory => ?_
        refine Records.after_quiet (Step.compute_only _) fun row => ?_
        exact run.records_rewriteRow hmem hprior
  · refine Records.after_quiet (Step.compute_only _) fun wanted => ?_
    refine Records.after_quiet (Step.look_only trivial) fun memory => ?_
    refine Records.after_quiet (Step.compute_only _) fun res => ?_
    refine Records.after_quiet (Step.compute_only _) fun _ => ?_
    exact Records.then_quiet (run.records_applyChange change res hmem) fun _ =>
      run.persist_only trivial fun _ => trivial

theorem records_applyNode (hmem : nodeId ∈ run.desired.ir.byId) :
    Records .forward nodeId (run.ForwardUndo nodeId) (run.applyNode nodeId) := by
  unfold applyNode
  split
  · exact Records.of_quiet trivial
  · split
    · exact Records.of_quiet trivial
    · split
      · refine Records.after_quiet (Step.look_only trivial) fun memory => ?_
        split
        · exact run.records_applyOne _ hmem
        · exact Records.of_quiet trivial
      · exact run.records_applyOne _ hmem

end

/-! ## The undos of a run -/

variable {run} {cloud : Cloud} {state : RunState}

theorem Logged.recordsOne (hlogged : run.Logged cloud state) {stage : Stage} {nodeId : String}
    {kind : Undo → Prop} (hwork : nodeId ∈ run.nodesOf stage →
      Records stage nodeId kind (run.workOf stage nodeId)) :
    RecordsOne nodeId kind (entries stage nodeId state.world.log) := by
  refine hlogged.always (fun hmem => hwork hmem [] rfl) (.inl rfl) fun event hmem => ?_
  exact hlogged.sound event (mem_entries.mp hmem).1

/-- Where an undo can have been recorded, and which. -/
theorem Logged.recorded (hlogged : run.Logged cloud state) {event : Event} {nodeId : String}
    {undo : Undo} (hmem : event ∈ state.world.log) (hrecorded : event.recorded = some (nodeId, undo)) :
    event.node = nodeId ∧
      undosOf (entries event.stage nodeId state.world.log) = [(nodeId, undo)] ∧
      (event.stage = .predelete ∧ run.Predelete nodeId undo ∨
        event.stage = .forward ∧ run.ForwardUndo nodeId undo) := by
  have hrecord : (nodeId, undo) ∈ undosOf (entries event.stage event.node state.world.log) :=
    List.mem_filterMap.mpr ⟨event, mem_entries.mpr ⟨hmem, rfl, rfl⟩, hrecorded⟩
  have hone : ∀ kind : Undo → Prop,
      RecordsOne event.node kind (entries event.stage event.node state.world.log) →
        event.node = nodeId ∧
          undosOf (entries event.stage nodeId state.world.log) = [(nodeId, undo)] ∧
          kind undo := by
    intro kind hrecords
    rcases hrecords with hnone | ⟨other, hother, hkind⟩
    · rw [hnone] at hrecord
      cases hrecord
    · have hsame := hrecord
      rw [hother, List.mem_singleton, Prod.mk.injEq] at hsame
      obtain ⟨rfl, rfl⟩ := hsame
      exact ⟨rfl, hother, hkind⟩
  have hquiet : (∀ node, (run.workOf event.stage node).Only Request.Quiet) → False := by
    intro hquiet
    obtain ⟨-, -, hnever⟩ := hone (fun _ => False)
      (hlogged.recordsOne fun _ => Records.of_quiet (hquiet _))
    exact hnever
  cases hstage : event.stage with
  | predelete =>
    obtain ⟨hnode, hundos, hkind⟩ := hone (run.Predelete event.node) (by
      rw [hstage]
      exact hlogged.recordsOne fun _ => run.records_predeleteNode)
    rw [hstage] at hundos
    exact ⟨hnode, hundos, .inl ⟨rfl, hnode ▸ hkind⟩⟩
  | forward =>
    obtain ⟨hnode, hundos, hkind⟩ := hone (run.ForwardUndo event.node) (by
      rw [hstage]
      exact hlogged.recordsOne fun hnode =>
        run.records_applyNode (Std.ExtTreeMap.mem_keys.mp hnode))
    rw [hstage] at hundos
    exact ⟨hnode, hundos, .inr ⟨rfl, hnode ▸ hkind⟩⟩
  | destroy =>
    refine (hquiet fun node => ?_).elim
    rw [hstage]
    exact run.quiet_destroyNode node
  | rolling =>
    refine (hquiet fun node => ?_).elim
    rw [hstage]
    exact run.quiet_rollBack
  | ended =>
    refine (hquiet fun node => ?_).elim
    rw [hstage]
    trivial

/-- The undo is one a pass records for the node. -/
def Recordable (nodeId : String) (undo : Undo) : Prop :=
  run.Predelete nodeId undo ∨ run.ForwardUndo nodeId undo

/-- What may be taken for granted of an event of the run: a memory that is read holds undos the
passes record. -/
def Known (event : Event) : Prop :=
  event.Sound ∧
    match event.request, event.reply with
    | .look, found => ∀ compensation ∈ found.1.compensations,
        run.Recordable compensation.1 compensation.2
    | _, _ => True

theorem Logged.recordable (hlogged : run.Logged cloud state) {compensation : String × Undo}
    {log : List Event} (hlog : ∀ event ∈ log, event ∈ state.world.log)
    (hmem : compensation ∈ undosOf log) : run.Recordable compensation.1 compensation.2 := by
  obtain ⟨event, hevent, hrecorded⟩ := List.mem_filterMap.mp hmem
  obtain ⟨-, -, hkind⟩ := hlogged.recorded (hlog event hevent) hrecorded
  exact hkind.imp (·.2) (·.2)

/-- A memory that was read is the one the older requests made. -/
theorem Logged.look (hlogged : run.Logged cloud state) {newer older : List Event} {stage : Stage}
    {nodeId : String} {found : RunMemory × Bool} {landed : Bool}
    (hlog : state.world.log = newer ++ ⟨stage, nodeId, .look, found, landed⟩ :: older) :
    (replay run.env.types (run.startWorld cloud) older).memory = found.1 := by
  obtain ⟨choice, lost, log, after, hanswer⟩ := hlogged.fits _ _ _ hlog
  exact congrArg (fun answered => answered.1.1) hanswer

theorem Logged.known (hlogged : run.Logged cloud state) {event : Event}
    (hmem : event ∈ state.world.log) : run.Known event := by
  refine ⟨hlogged.sound event hmem, ?_⟩
  obtain ⟨newer, older, hlog⟩ := List.append_of_mem hmem
  obtain ⟨stage, nodeId, request, reply, landed⟩ := event
  cases request with
  | look =>
    intro compensation hcompensation
    have holder : ∀ event ∈ older, event ∈ state.world.log := fun event hevent => by
      rw [hlog]
      simp [hevent]
    rw [← hlogged.look hlog,
      replay_compensations fun event hevent => hlogged.sound event (holder event hevent)]
      at hcompensation
    exact hlogged.recordable holder (by simpa [startWorld, RunContext.memory] using hcompensation)
  | _ => trivial

/-- **What a node's undos look like.** An undo recorded before another of the same node is that of
the node's delete half. -/
theorem Logged.shape (hlogged : run.Logged cloud state) {newer older : List (String × Undo)}
    {nodeId : String} {undo earlier : Undo}
    (hundos : undosOf state.world.log = newer ++ (nodeId, undo) :: older)
    (hearlier : (nodeId, earlier) ∈ older) :
    run.ForwardUndo nodeId undo ∧ run.Predelete nodeId earlier := by
  obtain ⟨before, after, hlog, -, hafter⟩ := List.filterMap_eq_append_iff.mp hundos
  obtain ⟨skipped, event, rest, rfl, hskipped, hrecorded, hrest⟩ := List.filterMap_eq_cons_iff.mp hafter
  rw [← hrest] at hearlier
  obtain ⟨first, hfirst, hfirstrecorded⟩ := List.mem_filterMap.mp hearlier
  have hmem : event ∈ state.world.log := by simp [hlog]
  have hmemfirst : first ∈ state.world.log := by simp [hlog, hfirst]
  obtain ⟨hnode, hone, hkind⟩ := hlogged.recorded hmem hrecorded
  obtain ⟨hnodefirst, -, hkindfirst⟩ := hlogged.recorded hmemfirst hfirstrecorded
  have hstages : event.stage ≠ first.stage := by
    intro hsame
    have hlength := congrArg List.length hone
    rw [hlog, entries_append, entries_append, entries_cons_self ⟨rfl, hnode⟩] at hlength
    have hin : (nodeId, earlier) ∈ undosOf (entries event.stage nodeId rest) :=
      List.mem_filterMap.mpr ⟨first, mem_entries.mpr ⟨hfirst, hsame.symm, hnodefirst⟩,
        hfirstrecorded⟩
    have hpos := List.length_pos_of_mem hin
    simp only [undosOf, List.filterMap_append, List.filterMap_cons, hrecorded, List.length_append,
      List.length_cons, List.length_nil] at hlength hpos
    omega
  rcases hkind with ⟨hstage, -⟩ | ⟨hstage, hforward⟩ <;>
    rcases hkindfirst with ⟨hstagefirst, hpredelete⟩ | ⟨hstagefirst, -⟩
  · exact absurd (hstage.trans hstagefirst.symm) hstages
  · -- The forward pass comes after phase 0.
    have hsorted := hlogged.sorted
    rw [hlog, List.pairwise_append] at hsorted
    have hafter := (List.pairwise_append.mp hsorted.2.1).2.1
    have hrank := (List.pairwise_cons.mp hafter).1 first hfirst
    rw [hstage, hstagefirst] at hrank
    exact absurd hrank (by decide)
  · exact ⟨hforward, hpredelete⟩
  · exact absurd (hstage.trans hstagefirst.symm) hstages

/-! ## A rollback and what came before it -/

/-- A list whose elements satisfying `holds` come first is those, then the others. -/
theorem filter_append_filter_not {α : Type} {holds : α → Bool} {items : List α}
    (hfirst : items.Pairwise fun earlier later => holds later → holds earlier) :
    items = items.filter holds ++ items.filter fun item => !holds item := by
  induction items with
  | nil => rfl
  | cons item items ih =>
    obtain ⟨hitem, hrest⟩ := List.pairwise_cons.mp hfirst
    cases hholds : holds item with
    | true =>
      rw [List.filter_cons_of_pos hholds, List.filter_cons_of_neg (by simp [hholds]),
        List.cons_append, ← ih hrest]
    | false =>
      have hnone : items.filter holds = [] := by
        rw [List.filter_eq_nil_iff]
        intro later hmem hlater
        exact nomatch hholds.symm.trans (hitem later hmem hlater)
      have hall : items.filter (fun item => !holds item) = items := by
        rw [List.filter_eq_self]
        intro later hmem
        rw [Bool.not_eq_true']
        by_contra hlater
        exact nomatch hholds.symm.trans (hitem later hmem (Bool.not_eq_false _ ▸ hlater))
      rw [List.filter_cons_of_neg (by simp [hholds]), List.filter_cons_of_pos (by simp [hholds]),
        hnone, hall]
      rfl

/-- No entry is of a node its stage does not work on. -/
theorem Logged.mem_nodesOf (hlogged : run.Logged cloud state) {event : Event}
    (hmem : event ∈ state.world.log) : event.node ∈ run.nodesOf event.stage := by
  by_contra hnode
  obtain ⟨last, hresidual⟩ := hlogged.residual event.stage event.node
  have hwork : (run.schedule event.stage).work event.node = .ret () := if_neg hnode
  rw [hwork] at hresidual
  have hentry : event ∈ entries event.stage event.node state.world.log :=
    mem_entries.mpr ⟨hmem, rfl, rfl⟩
  rw [hresidual.of_ret.1] at hentry
  cases hentry

/-- The log of a rollback is the saga's entries over what came before. -/
theorem Logged.rolling (hlogged : run.Logged cloud state) : ∃ before,
    state.world.log = entries .rolling "" state.world.log ++ before ∧
      ∀ event ∈ before, event.stage ≠ .rolling := by
  have hnode : ∀ event ∈ state.world.log, event.stage ≠ .ended ∧
      (event.stage = .rolling → event.node = "") := by
    intro event hmem
    have hnode := hlogged.mem_nodesOf hmem
    refine ⟨fun hstage => ?_, fun hstage => ?_⟩
    · rw [hstage] at hnode
      cases hnode
    · rw [hstage] at hnode
      exact List.mem_singleton.mp hnode
  have hsorted : state.world.log.Pairwise fun newer older =>
      decide (Stage.rolling.rank ≤ older.stage.rank) →
        decide (Stage.rolling.rank ≤ newer.stage.rank) := by
    refine hlogged.sorted.imp fun horder holder => ?_
    rw [decide_eq_true_eq] at holder ⊢
    exact Nat.le_trans holder horder
  have hfirst : state.world.log.filter (fun event => Stage.rolling.rank ≤ event.stage.rank) =
      entries .rolling "" state.world.log := by
    refine List.filter_congr fun event hmem => ?_
    obtain ⟨hended, hsaga⟩ := hnode event hmem
    cases hstage : event.stage with
    | rolling => simp [hsaga hstage]
    | ended => exact (hended hstage).elim
    | _ => simp [Stage.rank]
  refine ⟨_, hfirst ▸ filter_append_filter_not hsorted, fun event hmem hstage => ?_⟩
  have hlow := (List.mem_filter.mp hmem).2
  rw [hstage] at hlow
  cases hlow

end RunContext

end Atlantide.Executor
