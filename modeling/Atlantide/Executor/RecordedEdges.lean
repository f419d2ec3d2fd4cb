import Atlantide.Engine.Coverage
import Atlantide.Executor.Scope

/-! # The edges an apply of the whole config records

A run that ends well has written every row it planned to, and dropped the rest. What it plans to
leave alone keeps its row, edges included. -/

namespace Atlantide.Executor

open Interleaving

/-- A request of a pass that goes well: it neither reads the rows back nor undoes a create. -/
def Request.InPass : Request → Prop
  | .load | .drop _ => False
  | _ => True

/-- The event is the taking of the node's planned delete. -/
def Event.Takes (nodeId : String) : Event → Prop
  | ⟨_, _, .takeDelete other, taken, _⟩ => other = nodeId ∧ taken = true
  | _ => False

namespace RunContext

section

variable (run : RunContext)

/-- The run applies the plan of the whole config over the rows it starts from. -/
def Untargeted : Prop :=
  ∃ (planner : Planner) (compiled : Compiled) (stackOutputs : Dict String Value)
    (replace : List String) (plan : Plan),
    compiled.ir = run.desired.ir ∧ compiled.hashes = run.desired.hashes ∧
      planner.build compiled run.prior stackOutputs none replace = .ok plan ∧
        plan.changeset = run.changeset

/-- Every pass of the run has ended well. -/
def Succeeded (state : RunState) : Prop :=
  state.stage = .destroy ∧ run.finished .destroy state.tasks

/-- The row has the edges the config's node has, by kind. -/
def RecordsEdges (nodeId : String) (row : StateNode) : Prop :=
  ∃ node, run.desired.ir.byId[nodeId]? = some node ∧ row.dependencies = node.dependencies ∧
    row.dependsOn = node.dependsOn

/-- The rows are of the config's nodes, with their edges, and so is the graph a destroy goes by. -/
structure RecordsConfig (rows : StateGraph) : Prop where
  row : ∀ (nodeId : String) (row : StateNode), rows[nodeId]? = some row → run.RecordsEdges nodeId row
  graph : ∀ nodeId ∈ rows, ∀ dep, dep ∈ (irFromState rows).edgesOf nodeId ↔
    dep ∈ run.declaredEdges nodeId ∧ dep ∈ rows

/-- What the plan leaves alone was recorded with the edges it now has. -/
def KeepsEdges : Prop :=
  ∀ (nodeId : String) (row : StateNode), run.prior[nodeId]? = some row → run.kept nodeId →
    run.RecordsEdges nodeId row

end

/-! ## What work that ends well leaves behind -/

/-- What a program has yet to do before it may end: to drop the row whose delete it took, and to note
the old resource whose row it copied. -/
structure Debts where
  drop : Option String := none
  cleanup : Bool := false

structure Clean (nodeId : String) (debts : Debts) (past : List Event) : Prop where
  passes : ∀ event ∈ past, event.request.InPass
  dropped : ∀ event ∈ past, ∀ other, event.Takes other →
    debts.drop = some other ∨ ∃ drop ∈ past, drop.written other = some none
  noted : ∀ event ∈ past, ∀ row, event.request = .put row →
    row.id = nodeId ∨ debts.cleanup ∨
      ∃ note ∈ past, ∃ old, note.request = .memory (.deferCleanup nodeId old)

section

variable {run : RunContext} {α β : Type} {stage : Stage} {nodeId other : String}
  {debts debts' debts'' : Debts} {past : List Event} {event : Event}

theorem Clean.nil : Clean nodeId debts [] :=
  ⟨List.forall_mem_nil _, List.forall_mem_nil _, List.forall_mem_nil _⟩

/-- An event that incurs nothing. -/
theorem Clean.cons (hclean : Clean nodeId debts past) (hpass : event.request.InPass)
    (htakes : ∀ other, event.Takes other →
      debts.drop = some other ∨ ∃ drop ∈ event :: past, drop.written other = some none)
    (hput : ∀ row, event.request = .put row → row.id = nodeId ∨ debts.cleanup) :
    Clean nodeId debts (event :: past) := by
  refine ⟨List.forall_mem_cons.mpr ⟨hpass, hclean.passes⟩, List.forall_mem_cons.mpr ⟨htakes, ?_⟩,
    List.forall_mem_cons.mpr ⟨fun row hrow => (hput row hrow).imp_right .inl, ?_⟩⟩
  · intro earlier hmem other htake
    refine (hclean.dropped earlier hmem other htake).imp_right ?_
    rintro ⟨drop, hdrop, hwritten⟩
    exact ⟨drop, List.mem_cons_of_mem _ hdrop, hwritten⟩
  · intro earlier hmem row hrow
    refine (hclean.noted earlier hmem row hrow).imp_right (Or.imp_right ?_)
    rintro ⟨note, hnote, old, hrequest⟩
    exact ⟨note, List.mem_cons_of_mem _ hnote, old, hrequest⟩

/-- The request neither takes a delete nor writes a row but the node's. -/
def Plain (nodeId : String) : Request → Prop
  | .put row => row.id = nodeId
  | .load | .drop _ | .takeDelete _ => False
  | _ => True

theorem Clean.plain (hclean : Clean nodeId debts past) (hplain : Plain nodeId event.request) :
    Clean nodeId debts (event :: past) := by
  refine hclean.cons ?_ (fun other htakes => ?_) fun row hrow => ?_
  · cases hrequest : event.request with
    | load => exact (hrequest ▸ hplain : Plain nodeId .load).elim
    | drop other => exact (hrequest ▸ hplain : Plain nodeId (.drop other)).elim
    | _ => trivial
  · obtain ⟨stage, node, request, reply, landed⟩ := event
    cases request with
    | takeDelete other => exact hplain.elim
    | _ => exact htakes.elim
  · rw [hrow] at hplain
    exact .inl hplain

/-- From one state of its debts, the program ends well only in the other. -/
def Settling (stage : Stage) (nodeId : String) (debts debts' : Debts) (program : Step α) : Prop :=
  ∀ past, Clean nodeId debts past → Along stage nodeId Event.Sound (fun _ => True) program past
    fun past' outcome => (∃ value, outcome = .ok value) → Clean nodeId debts' past'

theorem Settling.bind {program : Step α} {next : α → Step β}
    (hfirst : Settling stage nodeId debts debts' program)
    (hnext : ∀ value, Settling stage nodeId debts' debts'' (next value)) :
    Settling stage nodeId debts debts'' (program.bind next) := by
  intro past hpast
  refine Along.bind ((hfirst past hpast).mono fun past' outcome hpast' => ?_)
  cases outcome with
  | ok value => exact hnext value past' (hpast' ⟨value, rfl⟩)
  | error failure => exact fun ⟨_, hok⟩ => nomatch hok

theorem Settling.plain {program : Step α} (honly : program.Only (Plain nodeId)) :
    Settling stage nodeId debts debts program := by
  intro past hpast
  exact (Along.of_only honly (fun _ _ _ _ hplain _ hclean => hclean.plain hplain)
    (fun _ _ => trivial) hpast).mono fun _ _ hclean _ => hclean

theorem Settling.raise {failure : Failure} :
    Settling stage nodeId debts debts' (.raise failure : Step α) :=
  fun _ _ ⟨_, hok⟩ => nomatch hok

theorem Settling.compute {computed : Except Fault α} {next : α → Step β}
    (hnext : ∀ value, computed = .ok value → Settling stage nodeId debts debts' (next value)) :
    Settling stage nodeId debts debts' ((Step.compute computed).bind next) := by
  cases computed with
  | ok value => exact hnext value rfl
  | error fault => exact .raise

theorem Settling.ite {condition : Prop} [Decidable condition] {program program' : Step α}
    (hprogram : Settling stage nodeId debts debts' program)
    (hprogram' : Settling stage nodeId debts debts' program') :
    Settling stage nodeId debts debts' (if condition then program else program') := by
  split
  · exact hprogram
  · exact hprogram'

/-- The drop that was owed. -/
theorem settling_forget {cleanup : Bool} :
    Settling stage nodeId ⟨some other, cleanup⟩ ⟨none, cleanup⟩ (forget other) := by
  intro past hpast
  refine Along.catching ?_
  intro reply landed hsound
  refine ⟨trivial, ?_⟩
  cases reply with
  | error failure =>
    dsimp only [Step.reply, Along]
    split
    · refine Along.bind (Along.anything.mono fun _ outcome _ => ?_)
      cases outcome with
      | ok value => exact fun ⟨_, hok⟩ => nomatch hok
      | error failure => exact fun ⟨_, hok⟩ => nomatch hok
    · exact fun ⟨_, hok⟩ => nomatch hok
  | ok value =>
    rintro -
    have hlanded : landed = true := hsound.1
    have hwritten : Event.written ⟨stage, nodeId, .erase other, .ok value, landed⟩ other =
        some none := by
      rw [Event.written, if_pos hlanded, Request.written, if_pos rfl]
    have hafter : Clean nodeId _ (⟨stage, nodeId, .erase other, .ok value, landed⟩ :: _) :=
      hpast.plain trivial
    refine ⟨hafter.passes, fun event hmem taken htakes => ?_, hafter.noted⟩
    rcases hafter.dropped event hmem taken htakes with howed | hdropped
    · cases howed
      exact .inr ⟨_, List.mem_cons_self .., hwritten⟩
    · exact .inr hdropped

theorem settling_deleteNode {cleanup : Bool} :
    Settling stage nodeId ⟨none, cleanup⟩ ⟨none, cleanup⟩ (run.deleteNode other) := by
  intro past hpast taken landed _
  refine ⟨trivial, ?_⟩
  change Along stage nodeId Event.Sound _ (if taken then _ else _) _ _
  split
  next htaken =>
    have hrest : Settling stage nodeId ⟨some other, cleanup⟩ ⟨none, cleanup⟩
        (run.deleteTaken other) := by
      unfold deleteTaken
      split
      · exact .raise
      · refine Settling.bind (.plain (Step.look_only trivial)) fun memory => ?_
        refine .compute fun res _ => .ite settling_forget (.compute fun _ _ => ?_)
        exact Settling.bind (.plain (Step.delete_only trivial)) fun _ => settling_forget
    refine hrest _ ⟨?_, ?_, ?_⟩
    · exact List.forall_mem_cons.mpr ⟨trivial, hpast.passes⟩
    · refine List.forall_mem_cons.mpr ⟨fun taken htakes => .inl (congrArg some htakes.1), ?_⟩
      intro event hmem taken htakes
      rcases hpast.dropped event hmem taken htakes with hnone | ⟨drop, hdrop, hwritten⟩
      · cases hnone
      · exact .inr ⟨drop, List.mem_cons_of_mem _ hdrop, hwritten⟩
    · refine List.forall_mem_cons.mpr ⟨fun row hrow => (by cases hrow), fun event hmem row hrow => ?_⟩
      refine (hpast.noted event hmem row hrow).imp_right (Or.imp_right ?_)
      rintro ⟨note, hnote, old, hrequest⟩
      exact ⟨note, List.mem_cons_of_mem _ hnote, old, hrequest⟩
  next htaken =>
    rintro -
    refine hpast.cons trivial (fun other htakes => ?_) fun row hrow => (by cases hrow)
    exact (htaken htakes.2).elim

theorem recordsEdges_of_stateNode {live : LiveOutputs} {res : Resource}
    {outputs : Dict String Value} {status : NodeStatus} {row : StateNode}
    (hbuilt : run.stateNode live nodeId res outputs status = .ok row) :
    row.id = nodeId ∧ run.RecordsEdges nodeId row := by
  unfold stateNode irNode at hbuilt
  cases hnode : run.desired.ir.byId[nodeId]? with
  | none =>
    rw [hnode] at hbuilt
    cases hbuilt
  | some node =>
    rw [hnode] at hbuilt
    cases hdigests : secretDigests run.env res nodeId with
    | error fault =>
      rw [hdigests] at hbuilt
      cases hbuilt
    | ok digests =>
      rw [hdigests] at hbuilt
      cases hbuilt
      exact ⟨rfl, node, hnode, rfl, rfl⟩

theorem recordsEdges_of_collapsedRow {live : LiveOutputs} {prior row : StateNode}
    (hbuilt : run.collapsedRow live prior = .ok row) :
    row.id = prior.id ∧ run.RecordsEdges prior.id row := by
  unfold collapsedRow irNode at hbuilt
  cases hnode : run.desired.ir.byId[prior.id]? with
  | none =>
    rw [hnode] at hbuilt
    cases hbuilt
  | some node =>
    rw [hnode] at hbuilt
    cases hbuilt
    exact ⟨rfl, node, hnode, rfl, rfl⟩

theorem settling_writeAhead {res : Resource} :
    Settling stage nodeId debts debts (run.writeAhead nodeId res) := by
  refine Settling.bind (.plain (Step.look_only trivial)) fun memory => .compute fun row hrow => ?_
  exact .plain (Step.put_only (recordsEdges_of_stateNode hrow).1)

theorem settling_persist {res : Resource} :
    Settling stage nodeId debts debts (run.persist nodeId res) := by
  refine Settling.bind (.plain (Step.look_only trivial)) fun memory => .compute fun row hrow => ?_
  exact .plain (Step.put_only (recordsEdges_of_stateNode hrow).1)

theorem plain_record {undo : Undo} : (run.record other undo).Only (Plain nodeId) :=
  run.record_only trivial

theorem settling_predeleteNode :
    Settling stage nodeId {} {} (run.predeleteNode nodeId) := by
  refine .ite (.plain trivial) (.ite settling_deleteNode ?_)
  unfold predestroy
  split
  · exact .raise
  · refine Settling.bind (.plain (Step.look_only trivial)) fun memory => .compute fun old _ =>
      .compute fun _ _ => .compute fun res _ => ?_
    refine settling_writeAhead.bind fun _ => .plain ?_
    exact (Step.delete_only trivial).bind fun _ => plain_record

theorem settling_rewriteRow {prior row : StateNode} (hrow : row.id = nodeId) :
    Settling stage nodeId debts debts (run.rewriteRow prior row) :=
  .plain (plain_record.bind fun _ => Step.put_only hrow)

theorem settling_replaceDbc {res old : Resource} {prior : Option StateNode} :
    Settling stage nodeId debts debts (run.replaceDbc nodeId res old prior) := by
  refine Settling.bind (.ite (.plain trivial) ?_) fun _ => .plain ?_
  · exact settling_writeAhead.bind fun _ => .plain (Step.delete_only trivial)
  · refine (Step.create_only trivial).bind fun created => (Step.memory_only trivial).bind fun _ => ?_
    unfold recordReplaced
    split
    · exact plain_record
    · split
      · trivial
      · exact (Step.look_only trivial).bind fun _ => plain_record

/-- The cleanup that was owed. -/
theorem settling_defer {old : Resource} :
    Settling stage nodeId ⟨none, true⟩ {} (Step.memory (.deferCleanup nodeId old)) := by
  intro past hpast reply landed _
  refine ⟨trivial, fun _ => ?_⟩
  have hafter : Clean nodeId _
      (⟨stage, nodeId, .memory (.deferCleanup nodeId old), reply, landed⟩ :: _) :=
    hpast.plain trivial
  refine ⟨hafter.passes, hafter.dropped, fun event hmem row hrow => ?_⟩
  exact .inr (.inr ⟨_, List.mem_cons_self .., old, rfl⟩)

theorem settling_replaceCbd {res old : Resource} {prior : StateNode} :
    Settling stage nodeId {} {} (run.replaceCbd nodeId res old prior) := by
  refine @Settling.bind _ _ _ _ _ {} _ _ _ ?_ fun _ => ?_
  · refine Settling.bind (.plain (Step.look_only trivial)) fun memory => ?_
    exact .ite settling_deleteNode (.ite .raise (.plain trivial))
  have hcopy : Settling stage nodeId {} ⟨none, true⟩
      (Step.put { prior with id := cbdCompanionId nodeId }) := by
    intro past hpast
    refine Along.put fun reply landed _ => ⟨trivial, fun _ => ?_⟩
    refine Clean.cons ⟨hpast.passes, hpast.dropped, fun event hmem row hrow => ?_⟩ trivial
      (fun _ htakes => htakes.elim) fun row hrow => .inr rfl
    exact .inr (.inl rfl)
  refine hcopy.bind fun _ => settling_writeAhead.bind fun _ => ?_
  refine Settling.bind (.plain (Step.create_only trivial)) fun created => ?_
  refine Settling.bind (.plain (Step.memory_only trivial)) fun _ => ?_
  exact settling_defer.bind fun _ => .plain plain_record

theorem settling_applyOne {change : Change} :
    Settling stage nodeId {} {} (run.applyOne nodeId change) := by
  unfold applyOne recordStateOnly recordCollapsed
  split
  · split
    · split
      next prior desired hprior _ => exact settling_rewriteRow (run.keyed nodeId prior hprior)
      next => exact .raise
    · split
      · exact .raise
      next prior hprior =>
        refine Settling.bind (.plain (Step.look_only trivial)) fun memory => .compute fun row hrow => ?_
        exact settling_rewriteRow ((recordsEdges_of_collapsedRow hrow).1.trans
          (run.keyed nodeId prior hprior))
  · refine .compute fun wanted _ => Settling.bind (.plain (Step.look_only trivial)) fun memory => ?_
    refine .compute fun res _ => .compute fun _ _ => @Settling.bind _ _ _ _ _ {} _ _ _ ?_
      fun _ => settling_persist
    unfold applyChange
    split
    · refine settling_writeAhead.bind fun _ => .plain ((Step.create_only trivial).bind fun _ => ?_)
      exact (Step.memory_only trivial).bind fun _ => plain_record
    · refine .plain ((Step.look_only trivial).bind fun _ => (Step.update_only trivial).bind fun _ =>
        (Step.memory_only trivial).bind fun _ => ?_)
      split
      · trivial
      · exact (Step.compute_only _).bind fun _ => (Step.compute_only _).bind fun _ => plain_record
    · unfold replace
      split
      · exact settling_replaceDbc
      · refine Settling.bind (.plain (Step.look_only trivial)) fun memory => .compute fun old _ => ?_
        exact .ite settling_replaceCbd settling_replaceDbc
    all_goals exact .raise

theorem settling_applyNode : Settling stage nodeId {} {} (run.applyNode nodeId) := by
  unfold applyNode
  split
  · exact .raise
  · refine .ite (.plain trivial) (.ite (Settling.bind (.plain (Step.look_only trivial))
      fun memory => ?_) settling_applyOne)
    split
    · exact settling_applyOne
    · exact .raise

theorem settling_destroyNode : Settling stage nodeId {} {} (run.destroyNode nodeId) := by
  refine Settling.bind (.plain (Step.look_only trivial)) fun memory => ?_
  split
  · refine .plain (Prog.Only.bind (catchException_only ?_ fun failure => ?_) fun _ =>
      Step.erase_only trivial)
    · exact (Step.compute_only _).bind fun _ => Step.delete_only trivial
    · exact (Step.memory_only trivial).bind fun _ => trivial
  · exact settling_deleteNode

/-- What phase 2 asks of a node. -/
theorem along_destroyNode :
    Along stage nodeId Event.Sound (fun _ => True) (run.destroyNode nodeId) []
      fun past outcome => outcome = .ok () → ∃ found landed later,
        past = later ++ [⟨stage, nodeId, .look, found, landed⟩] ∧
          (nodeId ∈ found.1.cbdDeferred →
            ∃ drop ∈ later, drop.written (cbdCompanionId nodeId) = some none) ∧
          (nodeId ∉ found.1.cbdDeferred → ∃ take ∈ later, take.request = .takeDelete nodeId) := by
  intro found landed _
  refine ⟨trivial, ?_⟩
  change Along stage nodeId Event.Sound _ (run.destroyLooked nodeId found.1) _ _
  unfold destroyLooked
  split
  next old hold =>
    have hdeferred : nodeId ∈ found.1.cbdDeferred :=
      Std.ExtTreeMap.mem_iff_isSome_getElem?.mpr (by rw [hold]; rfl)
    have hends : Ends stage nodeId (fun event => event.written (cbdCompanionId nodeId) = some none)
        (run.cbdCleanup nodeId old) := by
      refine Ends.bind fun _ => Ends.erase fun reply landed hlanded => ?_
      rw [Event.written, if_pos hlanded, Request.written, if_pos rfl]
    refine ((hends _).and Along.suffix).mono fun past' outcome hpast' hok => ?_
    obtain ⟨event, earlier, rfl, hwritten⟩ := hpast'.1 ⟨(), hok⟩
    obtain ⟨later, hlater⟩ := hpast'.2
    refine ⟨found, landed, later, hlater.symm, fun _ => ⟨event, ?_, hwritten⟩, fun hnone =>
      (hnone hdeferred).elim⟩
    cases later with
    | nil =>
      cases hlater
      cases landed <;> cases hwritten
    | cons head later =>
      cases hlater
      exact List.mem_cons_self ..
  next hnone =>
    have hdeferred : nodeId ∉ found.1.cbdDeferred := by
      rw [Std.ExtTreeMap.mem_iff_isSome_getElem?, hnone]
      exact Bool.false_ne_true
    intro taken landed' _
    refine ⟨trivial, Along.suffix.mono fun past' outcome hpast' _ => ?_⟩
    obtain ⟨later, rfl⟩ := hpast'
    have htake : ⟨stage, nodeId, .takeDelete nodeId, taken, landed'⟩ ∈
        later ++ [⟨stage, nodeId, .takeDelete nodeId, taken, landed'⟩] :=
      List.mem_append_right _ (List.mem_singleton_self _)
    exact ⟨found, landed, _, (List.append_cons ..), fun hmem => (hdeferred hmem).elim,
      fun _ => ⟨_, htake, rfl⟩⟩

/-! ## Runs that end well -/

variable {cloud : Cloud} {state : RunState}

theorem Succeeded.complete (hreach : run.Reaches cloud state) (hdone : run.Succeeded state)
    (hpass : stage.rank ≤ Stage.destroy.rank) (hmem : nodeId ∈ run.nodesOf stage) :
    run.Complete stage nodeId state.world.log := by
  obtain ⟨hstage, hfinished⟩ := hdone
  by_cases hlast : stage = .destroy
  · subst hlast
    refine hreach.complete hstage ?_
    exact List.all_eq_true.mp hfinished nodeId hmem
  · refine hreach.logged.passed stage ?_ ?_ nodeId hmem
    · rw [hstage]
      revert hpass hlast
      cases stage <;> decide
    · rw [hstage]

theorem Succeeded.passes (hreach : run.Reaches cloud state) (hdone : run.Succeeded state)
    (hmem : event ∈ state.world.log) :
    event.stage = .predelete ∨ event.stage = .forward ∨ event.stage = .destroy := by
  have hrank := hreach.logged.ranked event hmem
  rw [hdone.1] at hrank
  revert hrank
  cases event.stage <;> decide

theorem settling_workOf (hpass : stage.rank ≤ Stage.destroy.rank) :
    Settling stage nodeId {} {} (run.workOf stage nodeId) := by
  cases stage with
  | predelete => exact settling_predeleteNode
  | forward => exact settling_applyNode
  | destroy => exact settling_destroyNode
  | rolling => exact absurd hpass (by decide)
  | ended => exact absurd hpass (by decide)

/-- What a node's work leaves behind. -/
theorem Succeeded.clean (hreach : run.Reaches cloud state) (hdone : run.Succeeded state)
    (hmem : event ∈ state.world.log) :
    Clean event.node {} (entries event.stage event.node state.world.log) := by
  have hlogged := hreach.logged
  have hnode := hlogged.mem_nodesOf hmem
  have hpass : event.stage.rank ≤ Stage.destroy.rank := by
    rcases hdone.passes hreach hmem with h | h | h <;> rw [h] <;> decide
  have hcomplete := hdone.complete hreach hpass hnode
  have hwork : (run.schedule event.stage).work event.node = run.workOf event.stage event.node :=
    if_pos hnode
  unfold Complete at hcomplete
  rw [hwork] at hcomplete
  exact ((settling_workOf hpass [] .nil).residual trivial hcomplete fun other hother =>
    hlogged.sound other (mem_entries.mp hother).1).2 ⟨(), rfl⟩

/-- Where the row a pass wrote comes from. -/
theorem Succeeded.put (hreach : run.Reaches cloud state) (hdone : run.Succeeded state)
    {row : StateNode} (hmem : event ∈ state.world.log) (hput : event.request = .put row) :
    (run.RecordsEdges row.id row ∧ run.kept row.id = false) ∨
    (run.kept row.id ∧ ∃ prior, run.prior[row.id]? = some prior ∧
      row.dependencies = prior.dependencies ∧ row.dependsOn = prior.dependsOn) ∨
    (event.stage = .forward ∧ event.node ∈ run.prior ∧ row.id = cbdCompanionId event.node) := by
  obtain ⟨newer, older, hlog⟩ := List.append_of_mem hmem
  rcases hreach.logged.source hlog hput with hsource | ⟨rows, landed, read, hload, -⟩
  · cases hsource with
    | built hpass hkept hbuilt =>
      obtain ⟨hid, hedges⟩ := recordsEdges_of_stateNode hbuilt
      rw [hid]
      exact .inl ⟨hedges, hkept⟩
    | collapsed hpass hkept hprior hbuilt =>
      obtain ⟨hid, hedges⟩ := recordsEdges_of_collapsedRow hbuilt
      rw [hid]
      exact .inl ⟨hedges, run.keyed _ _ hprior ▸ hkept⟩
    | @guarded prior flag hpass hkept hprior =>
      obtain hid := run.keyed _ prior hprior
      refine .inr (.inl ⟨?_, prior, ?_, rfl, rfl⟩)
      · exact (congrArg run.kept hid).trans hkept
      · exact (congrArg (run.prior[·]?) hid).trans hprior
    | @companion prior hpass hprior =>
      exact .inr (.inr ⟨hpass, StateGraph.mem_of_row hprior, rfl⟩)
    | restored hsaga hprior =>
      rcases hdone.passes hreach hmem with h | h | h <;> exact nomatch h.symm.trans hsaga
  · obtain ⟨hin, hstage, hnode⟩ := mem_entries.mp hload
    have hread : ⟨event.stage, event.node, .load, .ok rows, landed⟩ ∈
        entries event.stage event.node state.world.log := by
      refine mem_entries.mpr ⟨?_, rfl, rfl⟩
      rw [hlog]
      exact List.mem_append_right _ (List.mem_cons_of_mem _ hin)
    exact ((hdone.clean hreach hmem).passes _ hread).elim

/-- Nothing but what the passes may remove is dropped. -/
theorem Succeeded.drop (hreach : run.Reaches cloud state) (hdone : run.Succeeded state)
    (hmem : event ∈ state.world.log) (hdrop : event.written nodeId = some none) :
    run.Removes nodeId := by
  have hpass := (hdone.clean hreach hmem).passes event (mem_entries.mpr ⟨hmem, rfl, rfl⟩)
  have hproper := hreach.logged.proper event hmem
  rw [Event.written] at hdrop
  split at hdrop
  · cases hrequest : event.request with
    | erase other =>
      rw [hrequest] at hdrop hproper
      rw [Request.written] at hdrop
      split at hdrop
      next hsame => exact hsame ▸ hproper
      next => cases hdrop
    | drop other =>
      rw [hrequest] at hpass
      exact hpass.elim
    | put row =>
      rw [hrequest, Request.written] at hdrop
      split at hdrop <;> cases hdrop
    | _ =>
      rw [hrequest] at hdrop
      cases hdrop
  · cases hdrop

/-- The latest request that wrote or dropped a row, if there was one. -/
theorem rowAfter_cases (nodeId : String) (start : Option StateNode) (log : List Event) :
    (rowAfter nodeId start log = start ∧ Unwritten nodeId log) ∨
      ∃ newer event older, log = newer ++ event :: older ∧ Unwritten nodeId newer ∧
        event.written nodeId = some (rowAfter nodeId start log) := by
  induction log with
  | nil => exact .inl ⟨rfl, .nil⟩
  | cons event log ih =>
    rw [rowAfter]
    cases hwritten : event.written nodeId with
    | some written => exact .inr ⟨[], event, log, rfl, .nil, hwritten⟩
    | none =>
      rcases ih with ⟨hstart, hnone⟩ | ⟨newer, latest, older, rfl, hnewer, hlatest⟩
      · exact .inl ⟨hstart, hnone.silent hwritten⟩
      · exact .inr ⟨event :: newer, latest, older, rfl, hnewer.silent hwritten, hlatest⟩

/-! ### Rows that go -/

theorem mem_deferred_of_replay {types : Types} {start : World} {log : List Event} {old : Resource}
    (hmem : event ∈ log) (hlanded : event.landed)
    (hnote : event.request = .memory (.deferCleanup nodeId old)) :
    nodeId ∈ (replay types start log).memory.cbdDeferred := by
  induction log with
  | nil => cases hmem
  | cons head older ih =>
    have hkeep : nodeId ∈ (replay types start older).memory.cbdDeferred →
        nodeId ∈ (replay types start (head :: older)).memory.cbdDeferred := by
      intro hrest
      rw [replay]
      split
      · cases hrequest : head.request with
        | memory update =>
          cases update with
          | deferCleanup other old => exact Std.ExtTreeMap.mem_insert.mpr (.inr hrest)
          | _ => exact hrest
        | create res => rw [World.effect]; split <;> exact hrest
        | update prior res => rw [World.effect]; split <;> exact hrest
        | delete res => rw [World.effect]; split <;> exact hrest
        | _ => exact hrest
      · exact hrest
    rcases List.mem_cons.mp hmem with rfl | hmem
    · rw [replay, if_pos hlanded, hnote]
      exact Std.ExtTreeMap.mem_insert_self
    · exact hkeep (ih hmem)

/-- Once a planned delete has been asked for, it has been taken. -/
theorem Logged.taken (hlogged : run.Logged cloud state) (hdelete : nodeId ∈ run.deleteIds)
    (hasked : ∃ event ∈ state.world.log, event.request = .takeDelete nodeId) :
    ∃ event ∈ state.world.log, event.Takes nodeId := by
  suffices hall : ∀ older, older <:+ state.world.log →
      (∃ event ∈ older, event.request = .takeDelete nodeId) →
        ∃ event ∈ older, event.Takes nodeId from hall _ (List.suffix_refl _) hasked
  intro older
  induction older with
  | nil => exact fun _ ⟨_, hmem, _⟩ => nomatch hmem
  | cons event older ih =>
    intro hsuffix hasked
    have holder := ih ((List.suffix_cons event older).trans hsuffix)
    by_cases hbefore : ∃ earlier ∈ older, earlier.request = .takeDelete nodeId
    · exact (holder hbefore).imp fun earlier ⟨hmem, htakes⟩ =>
        ⟨List.mem_cons_of_mem _ hmem, htakes⟩
    · have hfirst : event.request = .takeDelete nodeId := by
        obtain ⟨asked, hmem, hrequest⟩ := hasked
        rcases List.mem_cons.mp hmem with rfl | hmem
        · exact hrequest
        · exact (hbefore ⟨asked, hmem, hrequest⟩).elim
      have hleft : nodeId ∈ (replay run.env.types (run.startWorld cloud) older).memory.deleteIds :=
        replay_deleteIds hdelete fun earlier hmem hrequest => hbefore ⟨earlier, hmem, hrequest⟩
      obtain ⟨newer, hlog⟩ := hsuffix
      obtain ⟨choice, lost, log, after, hanswer⟩ := hlogged.fits newer event older hlog.symm
      obtain ⟨stage, node, request, reply, landed⟩ := event
      cases hfirst
      have hreply : decide (nodeId ∈ (replay run.env.types (run.startWorld cloud) older).memory.deleteIds)
          = reply := congrArg Prod.fst hanswer
      exact ⟨_, List.mem_cons_self .., rfl, hreply.symm.trans (decide_eq_true hleft)⟩

/-- Events of a later stage are later in the log. -/
theorem Logged.mem_newer (hlogged : run.Logged cloud state) {newer older : List Event}
    {later : Event} (hlog : state.world.log = newer ++ event :: older)
    (hmem : later ∈ state.world.log) (hrank : event.stage.rank < later.stage.rank) :
    later ∈ newer := by
  have hsorted := hlogged.sorted
  rw [hlog] at hmem hsorted
  obtain ⟨-, hrest, -⟩ := List.pairwise_append.mp hsorted
  rcases List.mem_append.mp hmem with hnewer | holder
  · exact hnewer
  · rcases List.mem_cons.mp holder with rfl | holder
    · exact absurd hrank (Nat.lt_irrefl _)
    · exact absurd hrank (Nat.not_lt.mpr ((List.pairwise_cons.mp hrest).1 later holder))

theorem Logged.mem_older (hlogged : run.Logged cloud state) {newer older : List Event}
    {earlier : Event} (hlog : state.world.log = newer ++ event :: older)
    (hmem : earlier ∈ state.world.log) (hrank : earlier.stage.rank < event.stage.rank) :
    earlier ∈ older := by
  have hsorted := hlogged.sorted
  rw [hlog] at hmem hsorted
  obtain ⟨-, -, hcross⟩ := List.pairwise_append.mp hsorted
  rcases List.mem_append.mp hmem with hnewer | holder
  · exact absurd hrank (Nat.not_lt.mpr (hcross earlier hnewer event (List.mem_cons_self ..)))
  · rcases List.mem_cons.mp holder with rfl | holder
    · exact absurd hrank (Nat.lt_irrefl _)
    · exact holder

/-- What phase 2 did for a recorded node. -/
theorem Succeeded.destroyed (hreach : run.Reaches cloud state) (hdone : run.Succeeded state)
    (hprior : nodeId ∈ run.prior) : ∃ newer found landed older,
      state.world.log = newer ++ ⟨.destroy, nodeId, .look, found, landed⟩ :: older ∧
        (nodeId ∈ found.1.cbdDeferred → ∃ drop ∈ state.world.log, drop.stage = .destroy ∧
          drop.written (cbdCompanionId nodeId) = some none) ∧
        (nodeId ∉ found.1.cbdDeferred →
          ∃ take ∈ state.world.log, take.request = .takeDelete nodeId) := by
  have hlogged := hreach.logged
  have hnode : nodeId ∈ run.nodesOf .destroy := run.mem_priorGraph.mpr hprior
  have hcomplete := hdone.complete hreach (le_refl _) hnode
  have hwork : (run.schedule .destroy).work nodeId = run.destroyNode nodeId := if_pos hnode
  unfold Complete at hcomplete
  rw [hwork] at hcomplete
  obtain ⟨found, landed, later, hentries, hdeferred, htakes⟩ :=
    (along_destroyNode.residual trivial hcomplete fun other hother =>
      hlogged.sound other (mem_entries.mp hother).1).2 rfl
  have hlater : ∀ event ∈ later, event ∈ state.world.log ∧ event.stage = .destroy := by
    intro event hmem
    have hentry : event ∈ entries .destroy nodeId state.world.log := by
      rw [hentries]
      exact List.mem_append_left _ hmem
    exact ⟨(mem_entries.mp hentry).1, (mem_entries.mp hentry).2.1⟩
  obtain ⟨newer, older, hlog, -, -⟩ := entries_split hentries
  refine ⟨newer, found, landed, older, hlog, fun hmem => ?_, fun hnone => ?_⟩
  · obtain ⟨drop, hdrop, hwritten⟩ := hdeferred hmem
    exact ⟨drop, (hlater drop hdrop).1, (hlater drop hdrop).2, hwritten⟩
  · obtain ⟨take, htake, hrequest⟩ := htakes hnone
    exact ⟨take, (hlater take htake).1, hrequest⟩

/-- The companion's row of a node that copied its own is dropped in phase 2. -/
theorem Succeeded.cleaned (hreach : run.Reaches cloud state) (hdone : run.Succeeded state)
    {row : StateNode} (hmem : event ∈ state.world.log) (hput : event.request = .put row)
    (hstage : event.stage = .forward) (hprior : event.node ∈ run.prior)
    (hid : row.id = cbdCompanionId event.node) :
    ∃ drop ∈ state.world.log, drop.stage = .destroy ∧ drop.written row.id = some none := by
  have hlogged := hreach.logged
  have hnode := hlogged.mem_nodesOf hmem
  rw [hstage] at hnode
  have hname := run.named event.node (Std.ExtTreeMap.mem_keys.mp hnode)
  obtain ⟨note, hnote, old, hrequest⟩ : ∃ note ∈ entries event.stage event.node state.world.log,
      ∃ old, note.request = .memory (.deferCleanup event.node old) := by
    rcases (hdone.clean hreach hmem).noted event (mem_entries.mpr ⟨hmem, rfl, rfl⟩) row hput with
      hown | hdebt | hnoted
    · exact (companion_ne hname event.node (hid.symm.trans hown)).elim
    · cases hdebt
    · exact hnoted
  obtain ⟨hin, hforward, -⟩ := mem_entries.mp hnote
  obtain ⟨newer, found, landed, older, hlog, hdeferred, -⟩ := hdone.destroyed hreach hprior
  have hbefore : note ∈ older := by
    refine hlogged.mem_older hlog hin ?_
    rw [hforward, hstage]
    exact (by decide : Stage.forward.rank < Stage.destroy.rank)
  have hlanded : note.landed = true := by
    have hsound := (hlogged.sound note hin).1
    obtain ⟨stage, node, request, reply, landed⟩ := note
    cases hrequest
    exact hsound
  have hmemory := @mem_deferred_of_replay _ _ run.env.types (run.startWorld cloud) _ _
    hbefore hlanded hrequest
  rw [hlogged.look hlog] at hmemory
  rw [hid]
  exact hdeferred hmemory

/-! ### Plans of the whole config -/

theorem Untargeted.declared (hplan : run.Untargeted) (hkept : run.kept nodeId) :
    nodeId ∈ run.desired.ir.byId := by
  obtain ⟨planner, compiled, stackOutputs, replace, plan, hir, -, hbuild, hplanned⟩ := hplan
  obtain ⟨change, hchange, hnoop⟩ := (Option.any_eq_true _ _).mp hkept
  obtain ⟨hmem, rfl⟩ := run.changes_eq_some.mp hchange
  rw [← hplanned] at hmem
  rw [← hir]
  exact (Planner.build_noop hbuild hmem (of_decide_eq_true hnoop)).1

theorem Untargeted.deleted (hplan : run.Untargeted) (hprior : nodeId ∈ run.prior)
    (hundeclared : nodeId ∉ run.desired.ir.byId) : nodeId ∈ run.deleteIds := by
  obtain ⟨planner, compiled, stackOutputs, replace, plan, hir, -, hbuild, hplanned⟩ := hplan
  obtain ⟨change, hmem, rfl⟩ := Planner.build_covers hbuild (.inr hprior)
  have hnoop : change.action ≠ .noop := fun h =>
    hundeclared (hir ▸ (Planner.build_noop hbuild hmem h).1)
  rw [hplanned] at hmem
  have hdeclared := (run.planned.each change hmem).declared
  refine List.mem_map.mpr ⟨change, List.mem_filter.mpr ⟨hmem, ?_⟩, rfl⟩
  cases haction : change.action with
  | delete => rfl
  | noop => exact (hnoop haction).elim
  | create => exact (hundeclared (hdeclared (.inl haction))).elim
  | update => exact (hundeclared (hdeclared (.inr (.inl haction)))).elim
  | replace => exact (hundeclared (hdeclared (.inr (.inr haction)))).elim

/-- **An undeclared node has no row left.** -/
theorem Succeeded.undeclared (hplan : run.Untargeted) (hreach : run.Reaches cloud state)
    (hdone : run.Succeeded state) (hundeclared : nodeId ∉ run.desired.ir.byId) :
    state.world.rows[nodeId]? = none := by
  have hlogged := hreach.logged
  rw [hlogged.rows]
  rcases rowAfter_cases nodeId run.prior[nodeId]? state.world.log with
    ⟨hstart, hunwritten⟩ | ⟨newer, event, older, hlog, hnewer, hwritten⟩
  · rw [hstart]
    by_contra hsome
    have hprior : nodeId ∈ run.prior := by
      rw [Std.ExtTreeMap.mem_iff_isSome_getElem?]
      exact Option.isSome_iff_ne_none.mpr hsome
    obtain ⟨newer, found, landed, older, hlog, -, htakes⟩ := hdone.destroyed hreach hprior
    have hnone : nodeId ∉ found.1.cbdDeferred := by
      intro hdeferred
      have hanswered := hlogged.answered hlog fun earlier hmem =>
        hlogged.proper earlier (hlog ▸ List.mem_append_right _ (List.mem_cons_of_mem _ hmem))
      obtain ⟨change, hchange, haction, -⟩ := hanswered.1 nodeId hdeferred
      obtain ⟨hmem, rfl⟩ := run.changes_eq_some.mp hchange
      exact hundeclared ((run.planned.each change hmem).declared (.inr (.inr haction)))
    obtain ⟨take, htake, hown⟩ := hlogged.taken (hplan.deleted hprior hundeclared) (htakes hnone)
    rcases (hdone.clean hreach htake).dropped take (mem_entries.mpr ⟨htake, rfl, rfl⟩) nodeId hown
      with hdebt | ⟨drop, hdrop, hgone⟩
    · cases hdebt
    · exact nomatch (hunwritten drop (mem_entries.mp hdrop).1).symm.trans hgone
  · cases hrow : rowAfter nodeId run.prior[nodeId]? state.world.log with
    | none => rfl
    | some row =>
      rw [hrow] at hwritten
      obtain ⟨-, hput, rfl⟩ := Event.of_written hwritten
      have hmem : event ∈ state.world.log := by
        rw [hlog]
        simp
      rcases hdone.put hreach hmem hput with ⟨⟨node, hnode, -⟩, -⟩ | ⟨hkept, -⟩ |
        ⟨hstage, hprior, hid⟩
      · refine (hundeclared ?_).elim
        rw [Std.ExtTreeMap.mem_iff_isSome_getElem?, hnode]
        rfl
      · exact (hundeclared (hplan.declared hkept)).elim
      · obtain ⟨drop, hdrop, hlast, hgone⟩ := hdone.cleaned hreach hmem hput hstage hprior hid
        have hafter : drop ∈ newer := by
          refine hlogged.mem_newer hlog hdrop ?_
          rw [hstage, hlast]
          decide
        exact nomatch (hnewer drop hafter).symm.trans hgone

/-! ### Rows that stay -/

/-- A declared node that the plan acts on has its row from the config. -/
theorem Succeeded.written (hreach : run.Reaches cloud state) (hdone : run.Succeeded state)
    (hdeclared : nodeId ∈ run.desired.ir.byId) (hkept : run.kept nodeId = false) {row : StateNode}
    (hrow : state.world.rows[nodeId]? = some row) : run.RecordsEdges nodeId row := by
  have hlogged := hreach.logged
  rw [hlogged.rows] at hrow
  rcases rowAfter_cases nodeId run.prior[nodeId]? state.world.log with
    ⟨-, hunwritten⟩ | ⟨newer, event, older, hlog, -, hwritten⟩
  · have hnode : nodeId ∈ run.nodesOf .forward := Std.ExtTreeMap.mem_keys.mpr hdeclared
    have hcomplete := hdone.complete hreach (by decide : Stage.forward.rank ≤ _) hnode
    have hwork : (run.schedule .forward).work nodeId = run.applyNode nodeId := if_pos hnode
    unfold Complete at hcomplete
    rw [hwork] at hcomplete
    obtain ⟨event, earlier, hentries, found, hwrote, -⟩ :=
      ((ends_applyNode hkept []).residual trivial hcomplete fun other hother =>
        hlogged.sound other (mem_entries.mp hother).1).2 ⟨(), rfl⟩
    have hmem : event ∈ entries .forward nodeId state.world.log := by
      rw [hentries]
      exact List.mem_cons_self ..
    exact nomatch (hunwritten event (mem_entries.mp hmem).1).symm.trans hwrote
  · rw [hrow] at hwritten
    obtain ⟨-, hput, rfl⟩ := Event.of_written hwritten
    have hmem : event ∈ state.world.log := by
      rw [hlog]
      simp
    rcases hdone.put hreach hmem hput with ⟨hedges, -⟩ | ⟨hkept', -⟩ | ⟨-, -, hid⟩
    · exact hedges
    · exact nomatch hkept.symm.trans hkept'
    · exact (companion_ne (run.named row.id hdeclared) event.node hid.symm).elim

/-- A node that the plan leaves alone keeps its row, up to the flag. -/
theorem Succeeded.kept (hplan : run.Untargeted) (hreach : run.Reaches cloud state)
    (hdone : run.Succeeded state) (hkept : run.kept nodeId) {prior : StateNode}
    (hprior : run.prior[nodeId]? = some prior) :
    ∃ row, state.world.rows[nodeId]? = some row ∧ row.dependencies = prior.dependencies ∧
      row.dependsOn = prior.dependsOn := by
  have hlogged := hreach.logged
  have hname := run.named nodeId (hplan.declared hkept)
  rw [hlogged.rows]
  rcases rowAfter_cases nodeId run.prior[nodeId]? state.world.log with
    ⟨hstart, -⟩ | ⟨newer, event, older, hlog, -, hwritten⟩
  · exact ⟨prior, hstart.trans hprior, rfl, rfl⟩
  · have hmem : event ∈ state.world.log := by
      rw [hlog]
      simp
    cases hrow : rowAfter nodeId run.prior[nodeId]? state.world.log with
    | none =>
      rw [hrow] at hwritten
      rcases hdone.drop hreach hmem hwritten with hdelete | ⟨other, -, hcompanion⟩
      · obtain ⟨change, hchange, rfl⟩ := List.mem_map.mp hdelete
        obtain ⟨hin, haction⟩ := List.mem_filter.mp hchange
        obtain ⟨same, hsame, hnoop⟩ := (Option.any_eq_true _ _).mp hkept
        rw [run.changes_eq_some.mpr ⟨hin, rfl⟩, Option.some.injEq] at hsame
        subst hsame
        rw [of_decide_eq_true haction] at hnoop
        cases hnoop
      · exact (companion_ne hname other hcompanion).elim
    | some row =>
      rw [hrow] at hwritten
      obtain ⟨-, hput, rfl⟩ := Event.of_written hwritten
      rcases hdone.put hreach hmem hput with ⟨-, hkept'⟩ | ⟨-, found, hfound, hedges⟩ |
        ⟨-, -, hid⟩
      · exact nomatch hkept.symm.trans hkept'
      · obtain rfl : found = prior := Option.some.inj (hfound.symm.trans hprior)
        exact ⟨row, rfl, hedges⟩
      · exact (companion_ne hname event.node hid.symm).elim

/-- The rows settle the graph. -/
theorem recordsConfig_of_rows {rows : StateGraph} (hkeyed : rows.Keyed)
    (hrows : ∀ (nodeId : String) (row : StateNode), rows[nodeId]? = some row →
      run.RecordsEdges nodeId row) : run.RecordsConfig rows := by
  refine ⟨hrows, fun nodeId hmem dep => ?_⟩
  rw [Std.ExtTreeMap.mem_iff_isSome_getElem?] at hmem
  obtain ⟨row, hrow⟩ := Option.isSome_iff_exists.mp hmem
  obtain ⟨node, hnode, hdependencies, hdependsOn⟩ := hrows nodeId row hrow
  have hdeclares : run.Declares nodeId row := by
    refine ⟨node, hnode, ?_⟩
    rw [StateNode.edges, hdependencies, hdependsOn]
  rw [mem_edgesOf_irFromState hkeyed, ← hdeclares.mem dep]
  constructor
  · rintro ⟨found, hfound, hdep⟩
    obtain rfl : row = found := Option.some.inj (hrow.symm.trans hfound)
    exact hdep
  · exact fun hdep => ⟨row, hrow, hdep⟩

/-- **An apply of the whole config that ends well records the config's edges exactly when what its
plan leaves alone was recorded with them.** -/
theorem recordsConfig_iff (hplan : run.Untargeted) (hreach : run.Reaches cloud state)
    (hdone : run.Succeeded state) : run.RecordsConfig state.world.rows ↔ run.KeepsEdges := by
  constructor
  · intro hrecords nodeId prior hprior hkept
    obtain ⟨row, hrow, hdependencies, hdependsOn⟩ := hdone.kept hplan hreach hkept hprior
    obtain ⟨node, hnode, hedges⟩ := hrecords.row nodeId row hrow
    rw [hdependencies, hdependsOn] at hedges
    exact ⟨node, hnode, hedges⟩
  · intro hkeeps
    refine recordsConfig_of_rows hreach.logged.keyed fun nodeId row hrow => ?_
    by_cases hdeclared : nodeId ∈ run.desired.ir.byId
    · cases hkept : run.kept nodeId with
      | false => exact hdone.written hreach hdeclared hkept hrow
      | true =>
        have hprior : nodeId ∈ run.prior := by
          obtain ⟨planner, compiled, stackOutputs, replace, plan, -, -, hbuild, hplanned⟩ := hplan
          obtain ⟨change, hchange, hnoop⟩ := (Option.any_eq_true _ _).mp hkept
          obtain ⟨hmem, rfl⟩ := run.changes_eq_some.mp hchange
          rw [← hplanned] at hmem
          exact (Planner.build_noop hbuild hmem (of_decide_eq_true hnoop)).2
        rw [Std.ExtTreeMap.mem_iff_isSome_getElem?] at hprior
        obtain ⟨prior, hprior⟩ := Option.isSome_iff_exists.mp hprior
        obtain ⟨found, hfound, hdependencies, hdependsOn⟩ := hdone.kept hplan hreach hkept hprior
        obtain rfl : found = row := Option.some.inj (hfound.symm.trans hrow)
        obtain ⟨node, hnode, hedges⟩ := hkeeps nodeId prior hprior hkept
        rw [← hdependencies, ← hdependsOn] at hedges
        exact ⟨node, hnode, hedges⟩
    · rw [Succeeded.undeclared hplan hreach hdone hdeclared] at hrow
      cases hrow

end

end RunContext

/-! ## An edge that is let go -/

namespace Small

def planner : Planner where
  codec := codec
  types := env.types
  mutability := typeMutability env.types
  secrets := secrets
  policies _ := .ok []

/-- `a` no longer waits for `b`. -/
def loosened : Desired := config [node "a" [], node "b" []]

theorem plain_of_two {first second : IRNode} {desired : Desired}
    (hdesired : desired = config [first, second]) (hfirst : first.properties = ∅)
    (hsecond : second.properties = ∅) (nodeId : String) (node : IRNode)
    (hnode : desired.ir.byId[nodeId]? = some node) : node.properties = ∅ := by
  subst hdesired
  change (((∅ : Dict String IRNode).insert first.id first).insert second.id second)[nodeId]? =
    some node at hnode
  rw [Std.ExtTreeMap.getElem?_insert] at hnode
  split at hnode
  · cases hnode
    exact hsecond
  · rw [Std.ExtTreeMap.getElem?_insert] at hnode
    split at hnode
    · cases hnode
      exact hfirst
    · rw [Std.ExtTreeMap.getElem?_empty] at hnode
      cases hnode

/-- A config of nodes that set nothing. -/
def plain (desired : Desired) (hplain : ∀ (nodeId : String) (node : IRNode),
    desired.ir.byId[nodeId]? = some node → node.properties = ∅) : Compiled where
  ir := desired.ir
  hashes := desired.hashes
  resources := ∅
  lowered nodeId node hnode := by
    rw [hplain nodeId node hnode, Std.ExtTreeMap.getD_empty]
    rfl

def loosen : RunContext :=
  .wire env loosened (diff (diffInputs loosened created) []) created false (by decide +kernel)
    (diff_planned _ _)

/-- A plan that the diff makes alone. -/
theorem untargeted {run : RunContext}
    (hplain : ∀ (nodeId : String) (node : IRNode), run.desired.ir.byId[nodeId]? = some node →
      node.properties = ∅)
    (hbuilt : ((planner.build (plain run.desired hplain) run.prior ∅ none []).toOption.map
      (·.changeset)) = some run.changeset) : run.Untargeted := by
  obtain ⟨plan, hplan, hchanges⟩ := Option.map_eq_some_iff.mp hbuilt
  refine ⟨planner, plain run.desired hplain, ∅, [], plan, rfl, rfl, ?_, hchanges⟩
  cases hresult : planner.build (plain run.desired hplain) run.prior ∅ none [] with
  | error fault =>
    rw [hresult] at hplan
    cases hplan
  | ok found =>
    rw [hresult] at hplan
    cases hplan
    rfl

theorem create_succeeds : ∃ state, create.Reaches ⟨∅, 0⟩ state ∧ create.Succeeded state ∧
    state.world.rows = created := by
  have hrun : ((create.steps ([.next] ++ goes "s:t:b" 7 ++ goes "s:t:a" 7 ++ [.next])
      (create.start ⟨∅, 0⟩)).any fun state => decide (state.world.rows = created) &&
        decide (state.stage = .destroy) && create.finished .destroy state.tasks) = true := by
    decide +kernel
  obtain ⟨state, hsteps, hended⟩ := (Option.any_eq_true _ _).mp hrun
  simp only [Bool.and_eq_true, decide_eq_true_eq] at hended
  exact ⟨state, ⟨_, hsteps⟩, ⟨hended.1.2, hended.2⟩, hended.1.1⟩

theorem create_untargeted : create.Untargeted :=
  untargeted (plain_of_two rfl rfl rfl) (by decide +kernel)

end Small

/-- The first apply records its config's edges. -/
theorem recordsConfig_created : ∃ state, Small.create.Reaches ⟨∅, 0⟩ state ∧
    Small.create.RecordsConfig state.world.rows := by
  obtain ⟨state, hreach, hdone, -⟩ := Small.create_succeeds
  refine ⟨state, hreach,
    (RunContext.recordsConfig_iff Small.create_untargeted hreach hdone).mpr ?_⟩
  intro nodeId row hrow
  rw [show Small.create.prior = ∅ from rfl, Std.ExtTreeMap.getElem?_empty] at hrow
  cases hrow

/-- An edge that only orders its nodes outlives the config it was declared in: the plan has nothing
to do for its node, whose row then keeps it. -/
theorem outlived_edge : ∃ (first second : RunContext) (cloud cloud' : Cloud)
    (before after : RunState), first.prior = ∅ ∧ first.Untargeted ∧ first.Reaches cloud before ∧
      first.Succeeded before ∧ second.prior = before.world.rows ∧ second.Untargeted ∧
        second.Reaches cloud' after ∧ second.Succeeded after ∧
          ¬ second.RecordsConfig after.world.rows := by
  obtain ⟨before, hbefore, hdone, hcreated⟩ := Small.create_succeeds
  have hloosen : ((Small.loosen.steps ([.task (.start "s:t:a"), .task (.start "s:t:b"),
      .next] ++ Small.goes "s:t:b" 0 ++ Small.goes "s:t:a" 0 ++ [.next] ++ Small.goes "s:t:a" 2 ++
      Small.goes "s:t:b" 2) (Small.loosen.start Small.turnCloud)).any fun state =>
        decide ((state.world.rows["s:t:a"]?).map (·.dependsOn) = some ["s:t:b"]) &&
          decide (state.stage = .destroy) && Small.loosen.finished .destroy state.tasks) = true := by
    decide +kernel
  obtain ⟨after, hafter, hended⟩ := (Option.any_eq_true _ _).mp hloosen
  simp only [Bool.and_eq_true, decide_eq_true_eq] at hended
  refine ⟨Small.create, Small.loosen, ⟨∅, 0⟩, Small.turnCloud, before, after, rfl,
    Small.create_untargeted, hbefore, hdone, hcreated.symm, ?_, ⟨_, hafter⟩,
    ⟨hended.1.2, hended.2⟩, fun hrecords => ?_⟩
  · exact Small.untargeted (Small.plain_of_two rfl rfl rfl) (by decide +kernel)
  · obtain ⟨row, hrow, hedge⟩ := Option.map_eq_some_iff.mp hended.1.1
    obtain ⟨node, hnode, -, hdependsOn⟩ := hrecords.row "s:t:a" row hrow
    have hnone : (Small.loosened.ir.byId["s:t:a"]?).map (·.dependsOn) = some [] := by
      decide +kernel
    rw [show Small.loosened.ir.byId["s:t:a"]? = some node from hnode, Option.map_some,
      Option.some.injEq, ← hdependsOn, hedge] at hnone
    cases hnone

end Atlantide.Executor
