import Atlantide.Executor.Undos

/-! # Where the rows a run writes come from

Every row a run writes is built from the config, is the row the node had before the run, up to what
the executor changes of it, or is a row it has read, with its hash cleared. -/

namespace Atlantide.Executor

open Interleaving

namespace RunContext

variable (run : RunContext)

/-- Whether the forward pass leaves the node as it is recorded. -/
def kept (nodeId : String) : Bool := (run.changes[nodeId]?).any (·.action = .noop)

/-- A row the work of `nodeId` writes in the stage. -/
inductive Source (stage : Stage) (nodeId : String) : StateNode → Prop
  /-- The row the config describes, before or after the provider call. -/
  | built {live : LiveOutputs} {res : Resource} {outputs : Dict String Value}
      {status : NodeStatus} {row : StateNode}
      (hpass : stage = .predelete ∧ nodeId ∈ run.predeleted ∨ stage = .forward)
      (hkept : run.kept nodeId = false)
      (hbuilt : run.stateNode live nodeId res outputs status = .ok row) : Source stage nodeId row
  /-- The recorded row as the config describes it, for a replace that did nothing. -/
  | collapsed {live : LiveOutputs} {prior row : StateNode} (hpass : stage = .forward)
      (hkept : run.kept nodeId = false) (hprior : run.prior[nodeId]? = some prior)
      (hbuilt : run.collapsedRow live prior = .ok row) : Source stage nodeId row
  /-- The recorded row with the config's protection. -/
  | guarded {prior : StateNode} {preventDestroy : Bool} (hpass : stage = .forward)
      (hkept : run.kept nodeId) (hprior : run.prior[nodeId]? = some prior) :
      Source stage nodeId { prior with preventDestroy }
  /-- The companion of a create-before-destroy REPLACE. -/
  | companion {prior : StateNode} (hpass : stage = .forward)
      (hprior : run.prior[nodeId]? = some prior) :
      Source stage nodeId { prior with id := cbdCompanionId nodeId }
  /-- The recorded row, put back by an undo. -/
  | restored {other : String} {prior : StateNode} {outputs : Dict String Value}
      {refDigests : Dict String String} (hsaga : stage = .rolling)
      (hprior : run.prior[other]? = some prior) :
      Source stage nodeId { prior with outputs, refDigests }

/-- The row is one that was read, marked stale. -/
def Stale (stage : Stage) (nodeId : String) (past : List Event) (marked : StateNode) : Prop :=
  ∃ (rows : StateGraph) (landed : Bool) (row : StateNode),
    ⟨stage, nodeId, .load, .ok rows, landed⟩ ∈ past ∧ rows[row.id]? = some row ∧
    marked = { row with inputHash := noInputHash } ∧
    (stage = .rolling ∨ (stage ≠ .forward ∧ row.id = nodeId) ∨ row.id = cbdCompanionId nodeId)

/-- Every row the events write has a source. -/
def Sourced : List Event → Prop
  | [] => True
  | event :: past =>
    (∀ row, event.request = .put row →
      run.Source event.stage event.node row ∨ Stale event.stage event.node past row) ∧
    Sourced past

/-- Whatever came before, the rows the program writes have their sources. -/
def Sources {α : Type} (stage : Stage) (nodeId : String) (program : Step α) : Prop :=
  ∀ past, run.Sourced past →
    Along stage nodeId run.Known run.Sourced program past fun past' _ =>
      run.Sourced past' ∧ past <:+ past'

end RunContext

/-- The request writes no row. -/
def Request.Mute : Request → Prop
  | .put _ => False
  | _ => True

namespace RunContext

section

variable {run : RunContext} {α β : Type} {stage : Stage} {nodeId : String} {past : List Event}

theorem Sources.of_mute {program : Step α} (hmute : program.Only Request.Mute) :
    run.Sources stage nodeId program := by
  intro past hpast
  refine Along.of_only hmute (fun event before _ _ hrequest _ hbefore => ?_) (fun _ h => h.1)
    ⟨hpast, List.suffix_refl past⟩
  refine ⟨⟨fun row hput => ?_, hbefore.1⟩, hbefore.2.trans (List.suffix_cons event before)⟩
  rw [hput] at hrequest
  exact hrequest.elim

theorem Sources.bind {program : Step α} {next : α → Step β}
    (hsources : run.Sources stage nodeId program)
    (hnext : ∀ value, run.Sources stage nodeId (next value)) :
    run.Sources stage nodeId (program.bind next) := by
  intro past hpast
  refine Along.bind ((hsources past hpast).mono fun past' outcome hpast' => ?_)
  cases outcome with
  | error failure => exact hpast'
  | ok value =>
    refine (hnext value past' hpast'.1).mono fun past'' _ hpast'' => ?_
    exact ⟨hpast''.1, hpast'.2.trans hpast''.2⟩

theorem Sources.catching {program : Step α} {handler : Failure → Step α}
    (hsources : run.Sources stage nodeId program)
    (hhandler : ∀ failure, run.Sources stage nodeId (handler failure)) :
    run.Sources stage nodeId (program.catching handler) := by
  intro past hpast
  refine Along.catching ((hsources past hpast).mono fun past' outcome hpast' => ?_)
  cases outcome with
  | ok value => exact hpast'
  | error failure =>
    refine (hhandler failure past' hpast'.1).mono fun past'' _ hpast'' => ?_
    exact ⟨hpast''.1, hpast'.2.trans hpast''.2⟩

theorem Sources.ret (value : α) : run.Sources stage nodeId (.ret value) :=
  .of_mute trivial

theorem Sources.raise (failure : Failure) :
    run.Sources stage nodeId (.raise failure : Step α) :=
  .of_mute trivial

theorem Sources.catchException {program : Step α} {handler : Failure → Step α}
    (hsources : run.Sources stage nodeId program)
    (hhandler : ∀ failure, run.Sources stage nodeId (handler failure)) :
    run.Sources stage nodeId (catchException program handler) := by
  refine hsources.catching fun failure => ?_
  split
  · exact hhandler failure
  · exact .raise failure

/-- What a computation yields may be taken for granted after it. -/
theorem Sources.compute {computed : Except Fault α} {next : α → Step β}
    (hnext : ∀ value, computed = .ok value → run.Sources stage nodeId (next value)) :
    run.Sources stage nodeId ((Step.compute computed).bind next) := by
  cases computed with
  | ok value => exact hnext value rfl
  | error fault => exact .raise _

theorem Sources.put {row : StateNode} (hsource : run.Source stage nodeId row) :
    run.Sources stage nodeId (Step.put row) := by
  intro past hpast
  refine Along.put fun reply landed _ => ?_
  have hhere : run.Sourced (⟨stage, nodeId, .put row, reply, landed⟩ :: past) := by
    refine ⟨fun other hput => ?_, hpast⟩
    cases hput
    exact .inl hsource
  exact ⟨hhere, hhere, List.suffix_cons ..⟩

/-- A row that was read, marked stale. -/
theorem along_mark {rows : StateGraph} {other : String} {landed : Bool} (hkeyed : rows.Keyed)
    (hload : ⟨stage, nodeId, .load, .ok rows, landed⟩ ∈ past) (hpast : run.Sourced past)
    (hnode : stage = .rolling ∨ (stage ≠ .forward ∧ other = nodeId) ∨
      other = cbdCompanionId nodeId) :
    Along stage nodeId run.Known run.Sourced
      (match rows[other]? with
        | none => .ret ()
        | some row => Step.put { row with inputHash := noInputHash }) past fun past' _ =>
      run.Sourced past' ∧ past <:+ past' := by
  split
  · exact ⟨hpast, List.suffix_refl past⟩
  next row hrow =>
    refine Along.put fun reply landed' _ => ?_
    have hid : row.id = other := hkeyed other row hrow
    subst hid
    have hhere : run.Sourced
        (⟨stage, nodeId, .put { row with inputHash := noInputHash }, reply, landed'⟩ :: past) := by
      refine ⟨fun marked hput => ?_, hpast⟩
      cases hput
      exact .inr ⟨rows, landed, row, hload, hrow, rfl, hnode⟩
    exact ⟨hhere, hhere, List.suffix_cons ..⟩

theorem sources_markStale {other : String}
    (hnode : stage = .rolling ∨ (stage ≠ .forward ∧ other = nodeId) ∨
      other = cbdCompanionId nodeId) :
    run.Sources stage nodeId (markStale other none) := by
  refine Sources.catchException (fun past hpast => ?_) fun _ =>
    .of_mute (Step.memory_only trivial)
  intro reply landed hsound
  have hhere : run.Sourced (⟨stage, nodeId, .load, reply, landed⟩ :: past) := ⟨nofun, hpast⟩
  refine ⟨hhere, ?_⟩
  cases reply with
  | error failure => exact ⟨hhere, List.suffix_cons ..⟩
  | ok rows =>
    refine (along_mark hsound.1.2 (List.mem_cons_self ..) hhere hnode).mono fun past' _ hpast' => ?_
    exact ⟨hpast'.1, (List.suffix_cons ..).trans hpast'.2⟩

theorem sources_forget {other : String}
    (hnode : stage = .rolling ∨ (stage ≠ .forward ∧ other = nodeId) ∨
      other = cbdCompanionId nodeId) :
    run.Sources stage nodeId (forget other) :=
  Sources.catchException (.of_mute (Step.erase_only trivial)) fun _ =>
    (sources_markStale hnode).bind fun _ => .raise _

theorem sources_deleteNode {other : String}
    (hnode : stage = .rolling ∨ (stage ≠ .forward ∧ other = nodeId) ∨
      other = cbdCompanionId nodeId) :
    run.Sources stage nodeId (run.deleteNode other) := by
  refine Sources.bind (.of_mute (Step.takeDelete_only trivial)) fun taken => ?_
  split
  · split
    · exact .raise _
    next prior hprior =>
      refine Sources.bind (.of_mute (Step.look_only trivial)) fun memory => ?_
      refine Sources.compute fun res _ => ?_
      split
      · exact sources_forget hnode
      · refine Sources.compute fun _ _ => ?_
        exact Sources.bind (.of_mute (Step.delete_only trivial)) fun _ => sources_forget hnode
  · exact .ret _

theorem sources_writeAhead {res : Resource}
    (hpass : stage = .predelete ∧ nodeId ∈ run.predeleted ∨ stage = .forward)
    (hkept : run.kept nodeId = false) :
    run.Sources stage nodeId (run.writeAhead nodeId res) := by
  refine Sources.bind (.of_mute (Step.look_only trivial)) fun memory => ?_
  exact Sources.compute fun row hrow => Sources.put (.built hpass hkept hrow)

theorem sources_persist {res : Resource} (hkept : run.kept nodeId = false) :
    run.Sources .forward nodeId (run.persist nodeId res) := by
  refine Sources.bind (.of_mute (Step.look_only trivial)) fun memory => ?_
  exact Sources.compute fun row hrow => Sources.put (.built (.inr rfl) hkept hrow)

/-- A node destroyed ahead of the forward pass is one the changeset destroys. -/
theorem destroyed_of_predeleted (hmem : nodeId ∈ run.predeleted) :
    ∃ change, run.changes[nodeId]? = some change ∧ run.destroyed change := by
  obtain ⟨source, -, -, hreach⟩ := run.mem_predeleted.mp hmem
  obtain ⟨dep, -, hstep⟩ := Relation.TransGen.tail'_iff.mp hreach
  obtain ⟨-, hdestroyed⟩ := List.mem_filter.mp hstep
  exact (Option.any_eq_true _ _).mp hdestroyed

theorem kept_of_predeleted (hmem : nodeId ∈ run.predeleted) : run.kept nodeId = false := by
  obtain ⟨change, hchange, hdestroyed⟩ := destroyed_of_predeleted hmem
  rw [kept, hchange, Option.any_some, decide_eq_false_iff_not]
  intro hnoop
  simp [destroyed, destroyBeforeCreate, hnoop] at hdestroyed

theorem sources_predeleteNode : run.Sources .predelete nodeId (run.predeleteNode nodeId) := by
  unfold predeleteNode
  split_ifs with hmem hdelete
  · exact sources_deleteNode (.inr (.inl ⟨nofun, rfl⟩))
  · unfold predestroy
    split
    · exact .raise _
    next prior hprior =>
      refine Sources.bind (.of_mute (Step.look_only trivial)) fun memory => ?_
      refine Sources.compute fun old _ => Sources.compute fun _ _ => Sources.compute fun res _ => ?_
      refine (sources_writeAhead (.inl ⟨rfl, hmem⟩) (kept_of_predeleted hmem)).bind fun _ => ?_
      exact Sources.bind (.of_mute (Step.delete_only trivial)) fun _ => .of_mute (run.record_only trivial)
  · exact .ret _

theorem sources_create {res : Resource} (hkept : run.kept nodeId = false) :
    run.Sources .forward nodeId (run.create nodeId res) := by
  refine (sources_writeAhead (.inr rfl) hkept).bind fun _ => ?_
  refine Sources.bind (.of_mute (Step.create_only trivial)) fun created => ?_
  exact Sources.bind (.of_mute (Step.memory_only trivial)) fun _ => .of_mute (run.record_only trivial)

theorem sources_update {res : Resource} : run.Sources .forward nodeId (run.update nodeId res) := by
  refine Sources.bind (.of_mute (Step.look_only trivial)) fun memory => ?_
  refine Sources.bind (.of_mute (Step.update_only trivial)) fun updated => ?_
  refine Sources.bind (.of_mute (Step.memory_only trivial)) fun _ => ?_
  split
  · exact .ret _
  · exact Sources.compute fun old _ => Sources.compute fun outputs _ => .of_mute (run.record_only trivial)

theorem sources_replaceCbd {res old : Resource} {prior : StateNode}
    (hkept : run.kept nodeId = false) (hprior : run.prior[nodeId]? = some prior) :
    run.Sources .forward nodeId (run.replaceCbd nodeId res old prior) := by
  refine Sources.bind ?_ fun _ => ?_
  · refine Sources.bind (.of_mute (Step.look_only trivial)) fun memory => ?_
    split_ifs
    · exact sources_deleteNode (.inr (.inr rfl))
    · exact .raise _
    · exact .ret _
  refine Sources.bind (Sources.put (.companion rfl hprior)) fun _ => ?_
  refine (sources_writeAhead (.inr rfl) hkept).bind fun _ => ?_
  refine Sources.bind (.of_mute (Step.create_only trivial)) fun created => ?_
  refine Sources.bind (.of_mute (Step.memory_only trivial)) fun _ => ?_
  exact Sources.bind (.of_mute (Step.memory_only trivial)) fun _ => .of_mute (run.record_only trivial)

theorem sources_replaceDbc {res old : Resource} {prior : Option StateNode}
    (hkept : run.kept nodeId = false) :
    run.Sources .forward nodeId (run.replaceDbc nodeId res old prior) := by
  refine Sources.bind ?_ fun _ => ?_
  · unfold destroyOld
    split
    · exact .ret _
    · exact (sources_writeAhead (.inr rfl) hkept).bind fun _ =>
        .of_mute (Step.delete_only trivial)
  refine Sources.bind (.of_mute (Step.create_only trivial)) fun created => ?_
  refine Sources.bind (.of_mute (Step.memory_only trivial)) fun _ => ?_
  unfold recordReplaced
  split
  · exact .of_mute (run.record_only trivial)
  · split
    · exact .ret _
    · exact Sources.bind (.of_mute (Step.look_only trivial)) fun memory => .of_mute (run.record_only trivial)

theorem sources_replace {change : Change} {res : Resource} (hkept : run.kept nodeId = false) :
    run.Sources .forward nodeId (run.replace nodeId change res) := by
  unfold replace
  split
  · exact sources_replaceDbc hkept
  next prior hprior =>
    refine Sources.bind (.of_mute (Step.look_only trivial)) fun memory => ?_
    refine Sources.compute fun old _ => ?_
    split
    · exact sources_replaceCbd hkept hprior
    · exact sources_replaceDbc hkept

theorem sources_rewriteRow {prior row : StateNode}
    (hsource : run.Source stage nodeId row) :
    run.Sources stage nodeId (run.rewriteRow prior row) :=
  Sources.bind (.of_mute (run.record_only trivial)) fun _ => Sources.put hsource

theorem sources_applyOne {change : Change} (hkept : change.stateOnly = run.kept nodeId)
    (hstateOnly : change.stateOnly → change.action = .noop) :
    run.Sources .forward nodeId (run.applyOne nodeId change) := by
  unfold applyOne recordStateOnly recordCollapsed
  split
  · split
    next honly =>
      split
      next prior desired hprior hdesired =>
        exact sources_rewriteRow (.guarded rfl (hkept.symm.trans honly) hprior)
      next => exact .raise _
    next honly =>
      rw [Bool.not_eq_true] at honly
      split
      · exact .raise _
      next prior hprior =>
        refine Sources.bind (.of_mute (Step.look_only trivial)) fun memory => ?_
        refine Sources.compute fun row hrow => ?_
        exact sources_rewriteRow (.collapsed rfl (hkept.symm.trans honly) hprior hrow)
  next haction =>
    have honly : change.stateOnly = false := by
      rw [← Bool.not_eq_true]
      exact fun h => haction (hstateOnly h)
    have hkept := hkept.symm.trans honly
    refine Sources.compute fun wanted _ => ?_
    refine Sources.bind (.of_mute (Step.look_only trivial)) fun memory => ?_
    refine Sources.compute fun res _ => Sources.compute fun _ _ => ?_
    refine Sources.bind ?_ fun _ => sources_persist hkept
    unfold applyChange
    split
    · exact sources_create hkept
    · exact sources_update
    · exact sources_replace hkept
    all_goals exact .raise _

/-- The confirmation of a change does not make it a mere change of protection. -/
theorem confirmed_stateOnly {live : LiveOutputs} {change effective : Change}
    (hconfirmed : run.confirmed live nodeId change = .ok effective) :
    effective.stateOnly = change.stateOnly := by
  unfold confirmed at hconfirmed
  split at hconfirmed
  · split at hconfirmed
    · split at hconfirmed
      · cases hconfirmed
      · dsimp only at hconfirmed
        split at hconfirmed
        · cases hconfirmed
        · cases hconfirmed
          unfold reclassify
          dsimp only
          split <;> rfl
    · cases hconfirmed
    · cases hconfirmed
  · cases hconfirmed

theorem sources_applyNode : run.Sources .forward nodeId (run.applyNode nodeId) := by
  unfold applyNode
  split
  · exact .raise _
  next change hchange =>
    obtain ⟨hmem, -⟩ := run.changes_eq_some.mp hchange
    have hplanned := run.planned.each change hmem
    have hkept : run.kept nodeId = decide (change.action = .noop) := by
      rw [kept, hchange, Option.any_some]
    split
    · exact .ret _
    next hplain =>
      split
      next hconditional =>
        have haction := hplanned.conditional hconditional.1
        have honly : change.stateOnly = false := by
          rw [← Bool.not_eq_true]
          intro h
          rw [hplanned.stateOnly h] at haction
          cases haction
        refine Sources.bind (.of_mute (Step.look_only trivial)) fun memory => ?_
        split
        next effective hconfirmed =>
          have hsame := confirmed_stateOnly hconfirmed
          rw [honly] at hsame
          refine sources_applyOne ?_ fun h => nomatch hsame.symm.trans h
          rw [hsame, hkept, haction]
          rfl
        next => exact .raise _
      · refine sources_applyOne ?_ hplanned.stateOnly
        rw [hkept]
        cases honly : change.stateOnly with
        | true => exact (decide_eq_true (hplanned.stateOnly honly)).symm
        | false =>
          refine (decide_eq_false fun hnoop => hplain ⟨hnoop, ?_⟩).symm
          rw [honly]
          rfl

theorem sources_destroyNode : run.Sources .destroy nodeId (run.destroyNode nodeId) := by
  refine Sources.bind (.of_mute (Step.look_only trivial)) fun memory => ?_
  split
  next old hold =>
    refine Sources.bind (.of_mute ?_) fun _ => .of_mute (Step.erase_only trivial)
    refine Prog.Only.catching ?_ fun failure => .ite ?_ trivial
    · exact (Step.compute_only _).bind fun _ => Step.delete_only trivial
    · exact (Step.memory_only trivial).bind fun _ => trivial
  next => exact sources_deleteNode (.inr (.inl ⟨nofun, rfl⟩))

theorem sources_undo {other : String} {undo : Undo} (hundo : run.Recordable other undo) :
    run.Sources .rolling "" (run.undo other undo) := by
  have hput : ∀ {prior : StateNode}, run.prior[other]? = some prior →
      run.Sources .rolling "" (Step.put prior) := fun hprior =>
    Sources.put (.restored rfl hprior)
  have hdelete : ∀ {res : Resource}, run.Sources .rolling "" (Step.delete res) :=
    .of_mute (Step.delete_only trivial)
  have hcreate : ∀ {res : Resource}, run.Sources .rolling "" (Step.create res) :=
    .of_mute (Step.create_only trivial)
  rcases hundo with ⟨-, old, prior, rfl, hprior⟩ | ⟨-, hforward⟩
  · exact hcreate.bind fun recreated => Sources.put (.restored rfl hprior)
  · cases undo with
    | create res => exact hdelete.bind fun _ => .of_mute (Step.drop_only trivial)
    | update old prior priorOutputs =>
      exact Sources.bind (.of_mute (Step.update_only trivial)) fun _ => hput hforward
    | replace new old row =>
      obtain ⟨prior, refDigests, hprior, rfl⟩ := hforward
      refine hdelete.bind fun _ => hcreate.bind fun recreated => Sources.put ?_
      exact @Source.restored run .rolling "" other prior _ refDigests rfl hprior
    | delete old prior => exact hforward.elim
    | cbdCreate new prior =>
      refine hdelete.bind fun _ => (hput hforward).bind fun _ => ?_
      exact .of_mute (Step.drop_only trivial)
    | restoreRow prior => exact hput hforward

/-- The rows the marks are made from were read in the saga. -/
def ReadIn (rows : Except Failure StateGraph) (past : List Event) : Prop :=
  ∀ found, rows = .ok found → found.Keyed ∧
    (found = ∅ ∨ ∃ landed, ⟨.rolling, "", .load, .ok found, landed⟩ ∈ past)

theorem ReadIn.later {rows : Except Failure StateGraph} {later : List Event}
    (hread : ReadIn rows past) (hlater : past <:+ later) : ReadIn rows later := by
  intro found hfound
  obtain ⟨hkeyed, hcases⟩ := hread found hfound
  exact ⟨hkeyed, hcases.imp_right fun ⟨landed, hmem⟩ => ⟨landed, hlater.subset hmem⟩⟩

theorem along_markFrom {rows : Except Failure StateGraph} {other : String}
    (hread : ReadIn rows past) (hpast : run.Sourced past) :
    Along .rolling "" run.Known run.Sourced (markFrom rows other) past fun past' _ =>
      run.Sourced past' ∧ past <:+ past' := by
  have hnoted : run.Sources .rolling "" (Step.memory (.poisonFailed other)) :=
    .of_mute (Step.memory_only trivial)
  cases rows with
  | error failure => exact hnoted past hpast
  | ok rows =>
    rw [markFrom, markStale_some]
    obtain ⟨hkeyed, rfl | ⟨landed, hload⟩⟩ := hread rows rfl
    · have hnone : (∅ : StateGraph)[other]? = none := Std.ExtTreeMap.getElem?_empty
      rw [hnone]
      exact (Sources.catchException (.ret ()) fun _ => hnoted) past hpast
    · refine Along.catching ((along_mark hkeyed hload hpast (.inl rfl)).mono
        fun past' outcome hpast' => ?_)
      cases outcome with
      | ok value => exact hpast'
      | error failure =>
        dsimp only
        split
        · refine (hnoted past' hpast'.1).mono fun past'' _ hpast'' => ?_
          exact ⟨hpast''.1, hpast'.2.trans hpast''.2⟩
        · exact hpast'

theorem along_compensateAll {rows : Except Failure StateGraph}
    {compensations : List (String × Undo)}
    (hundos : ∀ compensation ∈ compensations, run.Recordable compensation.1 compensation.2)
    (hread : ReadIn rows past) (hpast : run.Sourced past) :
    Along .rolling "" run.Known run.Sourced (run.compensateAll rows compensations) past
      fun past' _ => run.Sourced past' ∧ past <:+ past' := by
  induction compensations generalizing past with
  | nil => exact ⟨hpast, List.suffix_refl past⟩
  | cons compensation compensations ih =>
    obtain ⟨other, undo⟩ := compensation
    have hnoted : ∀ {update : MemoryUpdate}, run.Sources .rolling "" (Step.memory update) :=
      .of_mute (Step.memory_only trivial)
    have hone : Along .rolling "" run.Known run.Sourced (run.compensate rows other undo) past
        fun past' _ => run.Sourced past' ∧ past <:+ past' := by
      have hlost : run.Sources .rolling "" Step.leaseLost := .of_mute (Step.leaseLost_only trivial)
      refine Along.bind ((hlost past hpast).mono fun middle outcome hmiddle => ?_)
      cases outcome with
      | error failure => exact hmiddle
      | ok lost =>
        dsimp only
        split
        · refine (hnoted middle hmiddle.1).mono fun last _ hlast => ?_
          exact ⟨hlast.1, hmiddle.2.trans hlast.2⟩
        refine Along.bind ((hnoted middle hmiddle.1).mono fun begun outcome hbegun => ?_)
        have hbegun' : past <:+ begun := hmiddle.2.trans hbegun.2
        cases outcome with
        | error failure => exact ⟨hbegun.1, hbegun'⟩
        | ok value =>
          refine Along.bind ((along_markFrom (hread.later hbegun') hbegun.1).mono
            fun marked outcome hmarked => ?_)
          have hmarked' : past <:+ marked := hbegun'.trans hmarked.2
          cases outcome with
          | error failure => exact ⟨hmarked.1, hmarked'⟩
          | ok value =>
            have hundo := sources_undo (hundos (other, undo) (List.mem_cons_self ..))
            refine ((hundo.catchException fun _ => hnoted) marked hmarked.1).mono
              fun last _ hlast => ?_
            exact ⟨hlast.1, hmarked'.trans hlast.2⟩
    refine Along.bind (hone.mono fun middle outcome hmiddle => ?_)
    cases outcome with
    | error failure => exact hmiddle
    | ok value =>
      refine (ih (fun other hmem => hundos other (List.mem_cons_of_mem _ hmem))
        (hread.later hmiddle.2) hmiddle.1).mono fun last _ hlast => ?_
      exact ⟨hlast.1, hmiddle.2.trans hlast.2⟩

theorem sources_rollBack : run.Sources .rolling "" run.rollBack := by
  intro past hpast
  refine Along.bind (Along.leaseLost fun found landed _ => ?_)
  have hfirst : run.Sourced (⟨.rolling, "", .look, found, landed⟩ :: past) := ⟨nofun, hpast⟩
  refine ⟨hfirst, ?_⟩
  dsimp only
  split
  · exact ⟨hfirst, List.suffix_cons ..⟩
  refine Along.bind (Along.look fun memory landed' hknown => ?_)
  have hsecond : run.Sourced (⟨.rolling, "", .look, memory, landed'⟩ ::
      ⟨.rolling, "", .look, found, landed⟩ :: past) := ⟨nofun, hfirst⟩
  refine ⟨hsecond, ?_⟩
  have hundos := hknown.2
  dsimp only at hundos ⊢
  have hafter : past <:+ ⟨.rolling, "", .look, memory, landed'⟩ ::
      ⟨.rolling, "", .look, found, landed⟩ :: past :=
    (List.suffix_cons ..).trans (List.suffix_cons ..)
  revert hundos
  generalize memory.1.compensations = compensations
  intro hundos
  cases compensations with
  | nil => exact ⟨hsecond, hafter⟩
  | cons compensation compensations =>
    intro reply landed'' hknown'
    have hthird : run.Sourced (⟨.rolling, "", .load, reply, landed''⟩ ::
        ⟨.rolling, "", .look, memory, landed'⟩ :: ⟨.rolling, "", .look, found, landed⟩ :: past) :=
      ⟨nofun, hsecond⟩
    refine ⟨hthird, ?_⟩
    have hread : ReadIn reply (⟨.rolling, "", .load, reply, landed''⟩ ::
        ⟨.rolling, "", .look, memory, landed'⟩ :: ⟨.rolling, "", .look, found, landed⟩ :: past) := by
      intro rows hrows
      subst hrows
      exact ⟨hknown'.1.2, .inr ⟨landed'', List.mem_cons_self ..⟩⟩
    have hrest := along_compensateAll hundos hread hthird
    cases reply <;>
      exact hrest.mono fun last _ hlast =>
        ⟨hlast.1, hafter.trans ((List.suffix_cons ..).trans hlast.2)⟩

/-- **Every row a run writes has a source.** -/
theorem Logged.sourced {cloud : Cloud} {state : RunState} (hlogged : run.Logged cloud state)
    (stage : Stage) (nodeId : String) : run.Sourced (entries stage nodeId state.world.log) := by
  have halong : nodeId ∈ run.nodesOf stage →
      run.Sources stage nodeId (run.workOf stage nodeId) := by
    intro hmem
    cases stage with
    | predelete => exact sources_predeleteNode
    | forward => exact sources_applyNode
    | destroy => exact sources_destroyNode
    | rolling =>
      obtain rfl := List.mem_singleton.mp hmem
      exact sources_rollBack
    | ended => exact .ret _
  exact hlogged.always (fun hmem => halong hmem [] trivial) trivial fun event hmem =>
    hlogged.known (mem_entries.mp hmem).1

theorem Sourced.of_append {newer : List Event} {event : Event}
    (hsourced : run.Sourced (newer ++ event :: past)) {row : StateNode}
    (hput : event.request = .put row) :
    run.Source event.stage event.node row ∨ Stale event.stage event.node past row := by
  induction newer with
  | nil => exact hsourced.1 row hput
  | cons head newer ih => exact ih hsourced.2

variable {cloud : Cloud} {state : RunState}

theorem Logged.source (hlogged : run.Logged cloud state) {newer older : List Event} {event : Event}
    (hlog : state.world.log = newer ++ event :: older) {row : StateNode}
    (hput : event.request = .put row) :
    run.Source event.stage event.node row ∨
      Stale event.stage event.node (entries event.stage event.node older) row := by
  have hsourced := hlogged.sourced event.stage event.node
  rw [hlog, entries_append, entries_cons_self ⟨rfl, rfl⟩] at hsourced
  exact hsourced.of_append hput

/-- Rows that were read are those the older requests left. -/
theorem Logged.load (hlogged : run.Logged cloud state) {newer older : List Event} {stage : Stage}
    {nodeId : String} {rows : StateGraph} {landed : Bool}
    (hlog : state.world.log = newer ++ ⟨stage, nodeId, .load, .ok rows, landed⟩ :: older)
    (other : String) : rows[other]? = rowAfter other run.prior[other]? older := by
  obtain ⟨choice, lost, log, after, hanswer⟩ := hlogged.fits _ _ _ hlog
  have hrows : rows = (replay run.env.types (run.startWorld cloud) older).rows := by
    dsimp only [World.answer] at hanswer
    cases hfate : choice.fate with
    | done =>
      rw [hfate] at hanswer
      cases hanswer
      rfl
    | raised failure landed =>
      rw [hfate] at hanswer
      cases hanswer
  rw [hrows]
  exact replay_rows

/-- The row a write leaves. -/
theorem Event.of_written {event : Event} {row : StateNode}
    (hwritten : event.written nodeId = some (some row)) :
    event.landed ∧ event.request = .put row ∧ row.id = nodeId := by
  rw [Event.written] at hwritten
  split at hwritten
  next hlanded => exact ⟨hlanded, Request.written_some_iff.mp hwritten⟩
  next => cases hwritten

/-- **What holds of every recorded row and of every row with a source, and is kept by a mark, holds
of every row.** -/
theorem Logged.each_row (hlogged : run.Logged cloud state) {holds : StateNode → Prop}
    (hstart : ∀ (nodeId : String) (row : StateNode), run.prior[nodeId]? = some row → holds row)
    (hsource : ∀ newer event older row, state.world.log = newer ++ event :: older →
      event.landed → event.request = .put row → run.Source event.stage event.node row → holds row)
    (hstale : ∀ row, holds row → holds { row with inputHash := noInputHash }) :
    ∀ (nodeId : String) (row : StateNode), state.world.rows[nodeId]? = some row → holds row := by
  suffices hall : ∀ older, older <:+ state.world.log → ∀ before, before <:+ older →
      ∀ nodeId row, rowAfter nodeId run.prior[nodeId]? before = some row → holds row by
    intro nodeId row hrow
    rw [hlogged.rows] at hrow
    exact hall _ (List.suffix_refl _) _ (List.suffix_refl _) nodeId row hrow
  intro older
  induction older with
  | nil =>
    intro _ before hbefore nodeId row hrow
    obtain rfl := List.suffix_nil.mp hbefore
    exact hstart nodeId row hrow
  | cons event older ih =>
    intro holder before hbefore nodeId row hrow
    have hrest := ih ((List.suffix_cons event older).trans holder)
    rcases List.suffix_cons_iff.mp hbefore with rfl | hbefore
    · rw [rowAfter] at hrow
      cases hwritten : event.written nodeId with
      | none =>
        rw [hwritten] at hrow
        exact hrest older (List.suffix_refl _) nodeId row hrow
      | some written =>
        rw [hwritten] at hrow
        obtain rfl : written = some row := hrow
        obtain ⟨hlanded, hput, rfl⟩ := Event.of_written hwritten
        obtain ⟨newer, hlog⟩ := holder
        rcases hlogged.source hlog.symm hput with hfresh | ⟨rows, landed, read, hload, hread, rfl, -⟩
        · exact hsource newer event older row hlog.symm hlanded hput hfresh
        · obtain ⟨middle, earlier, hsplit⟩ := List.append_of_mem (mem_entries.mp hload).1
          have hearlier : earlier <:+ older := by
            rw [hsplit]
            exact (List.suffix_cons ..).trans (List.suffix_append ..)
          have hwhole : state.world.log = (newer ++ event :: middle) ++
              ⟨event.stage, event.node, .load, .ok rows, landed⟩ :: earlier := by
            rw [← hlog, hsplit, List.append_assoc]
            rfl
          rw [hlogged.load hwhole] at hread
          exact hstale read (hrest earlier hearlier read.id read hread)
    · exact hrest before hbefore nodeId row hrow

end

end RunContext

end Atlantide.Executor
