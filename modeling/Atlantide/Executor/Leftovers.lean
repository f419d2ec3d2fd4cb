import Atlantide.Executor.RecordedEdges

/-! # What an earlier replace left behind

A companion row describes the old resource of an interrupted replace. It keeps the edges of the row
it was copied from, which name config nodes and no companions, so that the state graph orders no two
companions: which of them goes first is decided by the stages their deletes fall to. -/

namespace Atlantide.Executor

open Interleaving

namespace RunContext

section

variable (run : RunContext)

/-- The node's REPLACE runs whatever its references turn out to be. -/
def CopiesSurely (nodeId : String) : Prop :=
  ∃ change, run.changes[nodeId]? = some change ∧ change.action = .replace ∧
    change.createBeforeDestroy ∧ change.conditional = false

/-- The event calls the provider to delete what the companion's row of `nodeId` describes: the
companion's own work does, or the node's, ahead of copying its row there again. -/
def Destroys (nodeId : String) (event : Event) : Prop :=
  (∃ res, event.request = .delete res) ∧
    ((event.node = cbdCompanionId nodeId ∧ event.stage ≠ .forward) ∨
      (event.node = nodeId ∧ event.stage = .forward ∧ run.Copies nodeId))

/-- What the dependent left behind is never deleted after what its dependency left behind. -/
def LeftoversOrdered (dependent dep : String) (log : List Event) : Prop :=
  ∀ newer event older, log = newer ++ event :: older → run.Destroys dep event →
    ∀ later ∈ newer, ¬ run.Destroys dependent later

/-- The dependent works before the dependency in the forward pass. -/
def AppliedBefore (earlier later : String) : Prop :=
  Relation.TransGen (fun first second => first ∈ run.desired.ir.digraph.predecessors second false)
    earlier later

/-- The dependent's leftover falls to an earlier stage than the dependency's, or to an earlier turn
of the forward pass. -/
def Ahead (dependent dep : String) : Prop :=
  cbdCompanionId dep ∉ run.predeleted ∧
    (cbdCompanionId dependent ∈ run.predeleted ∨
      (run.CopiesSurely dependent ∧ (¬ run.Copies dep ∨ run.AppliedBefore dependent dep)))

end

/-! ## Chains of the forward pass -/

variable {run : RunContext} {cloud : Cloud} {state : RunState}

/-- What comes before a node in a stage, directly or not. -/
def Waits (run : RunContext) (stage : Stage) : String → String → Prop :=
  Relation.TransGen fun earlier later => earlier ∈ (run.schedule stage).before later

/-- A node at work has everything before it done. -/
theorem Logged.waitsFor (hlogged : run.Logged cloud state) {earlier later : String}
    (hwaits : run.Waits state.stage earlier later) {program : Step Unit}
    (hrunning : state.tasks.tasks later = .running program) :
    (state.tasks.tasks earlier).done := by
  induction hwaits using Relation.TransGen.head_induction_on with
  | single hedge => exact hlogged.waits later program hrunning _ hedge
  | head hedge _ ih =>
    exact hlogged.waits _ _ (Schedule.done_iff.mp ih) _ hedge

/-- By the log, a node's requests come after all the work before it. -/
def Chained (run : RunContext) (log : List Event) : Prop :=
  ∀ newer event older, log = newer ++ event :: older →
    ∀ earlier, run.Waits event.stage earlier event.node →
      run.Complete event.stage earlier older ∧ entries event.stage earlier newer = []

theorem Chained.serve (hlogged : run.Logged cloud state) (hchained : run.Chained state.world.log)
    {nodeId : String} {request : Request} {next : request.Reply → Step Unit}
    (htask : state.tasks.tasks nodeId = .running (.ask request next)) {event : Event}
    (hstage : event.stage = state.stage) (hnode : event.node = nodeId) :
    run.Chained (event :: state.world.log) := by
  intro newer other older hsplit earlier hearlier
  cases newer with
  | nil =>
    obtain ⟨rfl, rfl⟩ := List.cons.inj hsplit
    rw [hstage, hnode] at hearlier
    have hended := Schedule.done_iff.mp (hlogged.waitsFor hearlier htask)
    have htasks := hlogged.tasks earlier
    rw [hended] at htasks
    rw [hstage]
    exact ⟨htasks, rfl⟩
  | cons head newer =>
    obtain ⟨rfl, hrest⟩ := List.cons.inj hsplit
    obtain ⟨hcomplete, hnone⟩ := hchained newer other older hrest earlier hearlier
    refine ⟨hcomplete, ?_⟩
    rw [entries_cons_of_ne, hnone]
    rintro ⟨hsame, rfl⟩
    rw [hstage] at hsame
    -- The node served is at work, and a node waited for has ended.
    obtain ⟨program, hrunning⟩ := hlogged.running_of_entry
      (hrest ▸ List.mem_append_right _ (List.mem_cons_self ..)) hsame.symm
    have hended := hlogged.waitsFor (hsame ▸ hearlier) hrunning
    rw [hnode, htask] at hended
    cases hended

theorem Reaches.chained (hreach : run.Reaches cloud state) : run.Chained state.world.log := by
  obtain ⟨acts, hsteps⟩ := hreach
  suffices hall : ∀ (first : RunState), run.Logged cloud first → run.Chained first.world.log →
      run.steps acts first = some state → run.Chained state.world.log by
    refine hall _ logged_start ?_ hsteps
    intro newer event older hlog
    simp [start, Schedule.initial, startWorld] at hlog
  clear hsteps
  induction acts with
  | nil =>
    intro first hlogged hchained hsteps
    cases hsteps
    exact hchained
  | cons act acts ih =>
    intro first hlogged hchained hsteps
    obtain ⟨middle, hstep, hrest⟩ := Option.bind_eq_some_iff.mp hsteps
    refine ih middle (hlogged.step hstep) ?_ hrest
    cases act with
    | next =>
      obtain ⟨stage, -, rfl⟩ := Option.map_eq_some_iff.mp hstep
      exact hchained
    | task act =>
      obtain ⟨tasks, htasks, rfl⟩ := Option.map_eq_some_iff.mp hstep
      cases act with
      | start nodeId =>
        simp only [Schedule.step] at htasks
        split at htasks
        · split at htasks
          · cases htasks
            exact hchained
          · cases htasks
        · cases htasks
      | serve nodeId choice =>
        simp only [Schedule.step] at htasks
        split at htasks
        next request next htask =>
          cases htasks
          change run.Chained (World.serve _ _ _ _ _ _).2.log
          rw [World.serve_world]
          exact hchained.serve hlogged htask rfl rfl
        next => cases htasks
      | env event =>
        cases htasks
        exact hchained

/-! ## A delete is taken once -/

variable {nodeId : String} {stage : Stage}

/-- A planned delete that was asked for is planned no longer. -/
theorem not_mem_replay_deleteIds {types : Types} {start : World} {log : List Event} {event : Event}
    (hmem : event ∈ log) (hlanded : event.landed) (hrequest : event.request = .takeDelete nodeId) :
    nodeId ∉ (replay types start log).memory.deleteIds := by
  induction log with
  | nil => cases hmem
  | cons head older ih =>
    have hkeep : nodeId ∉ (replay types start older).memory.deleteIds →
        nodeId ∉ (replay types start (head :: older)).memory.deleteIds := by
      intro hnone
      rw [replay]
      split
      · cases hhead : head.request with
        | takeDelete other => exact fun hin => hnone (List.mem_filter.mp hin).1
        | memory update => cases update <;> exact hnone
        | create res => rw [World.effect]; split <;> exact hnone
        | update prior res => rw [World.effect]; split <;> exact hnone
        | delete res => rw [World.effect]; split <;> exact hnone
        | _ => exact hnone
      · exact hnone
    rcases List.mem_cons.mp hmem with rfl | hmem
    · rw [replay, if_pos hlanded, hrequest]
      intro hin
      exact of_decide_eq_true (List.mem_filter.mp hin).2 rfl
    · exact hkeep (ih hmem)

theorem request_of_takes {event : Event} (htakes : event.Takes nodeId) :
    event.request = .takeDelete nodeId := by
  obtain ⟨stage, node, request, reply, landed⟩ := event
  cases request with
  | takeDelete other => exact congrArg _ htakes.1
  | _ => exact htakes.elim

/-- What was asked for before it was taken was not taken by then. -/
theorem Logged.takes_once (hlogged : run.Logged cloud state) {newer older : List Event}
    {event other : Event} (hlog : state.world.log = newer ++ event :: older)
    (htakes : event.Takes nodeId) (hmem : other ∈ older) : other.request ≠ .takeDelete nodeId := by
  intro hrequest
  have hin : other ∈ state.world.log := by
    rw [hlog]
    simp [hmem]
  have hlanded : other.landed = true := by
    have hsound := (hlogged.sound other hin).1
    obtain ⟨stage, node, request, reply, landed⟩ := other
    cases hrequest
    exact hsound
  have hnone := @not_mem_replay_deleteIds nodeId run.env.types (run.startWorld cloud) _ _
    hmem hlanded hrequest
  obtain ⟨choice, lost, log, after, hanswer⟩ := hlogged.fits _ _ _ hlog
  obtain ⟨stage, node, request, reply, landed⟩ := event
  cases request with
  | takeDelete taken =>
    obtain ⟨rfl, rfl⟩ := htakes
    have hreply : decide (taken ∈ (replay run.env.types (run.startWorld cloud) older).memory.deleteIds)
        = true := congrArg Prod.fst hanswer
    exact hnone (of_decide_eq_true hreply)
  | _ => exact htakes.elim

/-- All that takes a node's delete is the same work. -/
theorem Logged.takes_same (hlogged : run.Logged cloud state) {event other : Event}
    (hmem : event ∈ state.world.log) (hother : other ∈ state.world.log)
    (htakes : event.Takes nodeId) (htakes' : other.Takes nodeId) : other = event := by
  obtain ⟨newer, older, hlog⟩ := List.append_of_mem hmem
  rw [hlog] at hother
  rcases List.mem_append.mp hother with hnewer | holder
  · obtain ⟨front, back, rfl⟩ := List.append_of_mem hnewer
    have hsplit : state.world.log = front ++ other :: (back ++ event :: older) := by
      rw [hlog, List.append_assoc]
      rfl
    exact (hlogged.takes_once hsplit htakes' (by simp) (request_of_takes htakes)).elim
  · rcases List.mem_cons.mp holder with rfl | holder
    · rfl
    · exact (hlogged.takes_once hlog htakes holder (request_of_takes htakes')).elim

/-- A planned delete that was asked for was taken by then. -/
theorem Logged.taken_by (hlogged : run.Logged cloud state) (hdelete : nodeId ∈ run.deleteIds)
    {asked : Event} (hmem : asked ∈ state.world.log) (hasked : asked.request = .takeDelete nodeId) :
    ∃ event ∈ state.world.log, event.Takes nodeId ∧ event.stage.rank ≤ asked.stage.rank := by
  obtain ⟨event, hevent, htakes⟩ := hlogged.taken hdelete ⟨asked, hmem, hasked⟩
  refine ⟨event, hevent, htakes, ?_⟩
  obtain ⟨newer, older, hlog⟩ := List.append_of_mem hevent
  by_contra hlate
  have holder := hlogged.mem_older hlog hmem (Nat.not_le.mp hlate)
  exact hlogged.takes_once hlog htakes holder hasked

/-! ## Who deletes a leftover -/

/-- Every reply of a run is as expected. -/
theorem Logged.allAnswered (hlogged : run.Logged cloud state) :
    ∀ event ∈ state.world.log, event.Sound ∧ run.Answered event.request event.reply := by
  intro event hmem
  obtain ⟨newer, older, hlog⟩ := List.append_of_mem hmem
  refine ⟨hlogged.sound event hmem, hlogged.answered hlog fun earlier hearlier => ?_⟩
  refine hlogged.proper earlier ?_
  rw [hlog]
  simp [hearlier]

/-- The history deletes nothing before it has taken the node's delete. -/
def Earned (nodeId : String) (past : List Event) : Prop :=
  (∃ event ∈ past, ∃ res, event.request = .delete res) → ∃ event ∈ past, event.Takes nodeId

section

variable {α β : Type} {other : String} {past : List Event} {res : Resource}

/-- The program deletes nothing before it has taken the node's delete. -/
def Earns (run : RunContext) (stage : Stage) (other nodeId : String) (program : Step α) : Prop :=
  ∀ past, Earned nodeId past → Along stage other (fun event => event.Sound ∧
    run.Answered event.request event.reply) (Earned nodeId) program past fun past' _ =>
      Earned nodeId past'

/-- The request deletes nothing. -/
def Sparing : Request → Prop
  | .delete _ => False
  | _ => True

theorem Earned.cons (hearned : Earned nodeId past) {event : Event}
    (hspares : Sparing event.request ∨ ∃ taken ∈ past, taken.Takes nodeId) :
    Earned nodeId (event :: past) := by
  rintro ⟨deleted, hmem, res, hrequest⟩
  rcases hspares with hspares | ⟨taken, htaken, htakes⟩
  · rcases List.mem_cons.mp hmem with rfl | hmem
    · rw [hrequest] at hspares
      exact hspares.elim
    · obtain ⟨taken, htaken, htakes⟩ := hearned ⟨deleted, hmem, res, hrequest⟩
      exact ⟨taken, List.mem_cons_of_mem _ htaken, htakes⟩
  · exact ⟨taken, List.mem_cons_of_mem _ htaken, htakes⟩

theorem Earns.sparing {program : Step α} (honly : program.Only Sparing) :
    run.Earns stage other nodeId program := by
  intro past hpast
  exact Along.of_only honly (fun _ _ _ _ hspares _ hearned => hearned.cons (.inl hspares))
    (fun _ hearned => hearned) hpast

theorem Earns.bind {program : Step α} {next : α → Step β} (hearns : run.Earns stage other nodeId program)
    (hnext : ∀ value, run.Earns stage other nodeId (next value)) :
    run.Earns stage other nodeId (program.bind next) := by
  intro past hpast
  refine Along.bind ((hearns past hpast).mono fun past' outcome hpast' => ?_)
  cases outcome with
  | ok value => exact hnext value past' hpast'
  | error failure => exact hpast'

theorem Earns.compute {computed : Except Fault α} {next : α → Step β}
    (hnext : ∀ value, run.Earns stage other nodeId (next value)) :
    run.Earns stage other nodeId ((Step.compute computed).bind next) :=
  Earns.bind (.sparing (Step.compute_only _)) hnext

theorem earns_deleteNode : run.Earns stage other nodeId (run.deleteNode nodeId) := by
  intro past hpast taken landed _
  have hhere : Earned nodeId (⟨stage, other, .takeDelete nodeId, taken, landed⟩ :: past) :=
    hpast.cons (.inl trivial)
  refine ⟨hhere, ?_⟩
  change Along stage other _ _ (if taken then _ else _) _ _
  split
  next htaken =>
    have htakes : ∃ event ∈ (⟨stage, other, .takeDelete nodeId, taken, landed⟩ :: past),
        event.Takes nodeId := ⟨_, List.mem_cons_self .., rfl, htaken⟩
    refine (@Along.of_only _ other _ _ _ _ _
      (fun past' => Earned nodeId past' ∧ ∃ event ∈ past', event.Takes nodeId) _ (Prog.Only.any _)
      (fun event before _ _ _ _ hbefore => ?_) (fun _ hbefore => hbefore.1)
      ⟨hhere, htakes⟩).mono fun _ _ hend => hend.1
    obtain ⟨taken, htaken, htakes⟩ := hbefore.2
    exact ⟨hbefore.1.cons (.inr hbefore.2), taken, List.mem_cons_of_mem _ htaken, htakes⟩
  next => exact hhere

theorem earns_replaceCbd {old : Resource} {prior : StateNode} :
    run.Earns stage nodeId (cbdCompanionId nodeId) (run.replaceCbd nodeId res old prior) := by
  refine Earns.bind ?_ fun _ => .sparing ?_
  · refine Earns.bind (.sparing (Step.look_only trivial)) fun memory => ?_
    split
    · exact earns_deleteNode
    · exact .sparing (.ite trivial trivial)
  · refine (Step.put_only trivial).bind fun _ =>
      (run.writeAhead_only trivial fun _ => trivial).bind fun _ => ?_
    refine (Step.create_only trivial).bind fun _ => (Step.memory_only trivial).bind fun _ => ?_
    exact (Step.memory_only trivial).bind fun _ => run.record_only trivial

/-- Only a REPLACE deletes anything in the forward pass. -/
theorem sparing_applyOne {change : Change} (hkept : change.action ≠ .replace) :
    (run.applyOne nodeId change).Only Sparing := by
  have hrewrite : ∀ prior row, (run.rewriteRow prior row).Only Sparing := fun prior row =>
    (run.record_only trivial).bind fun _ => Step.put_only trivial
  unfold applyOne recordStateOnly recordCollapsed
  split
  · refine .ite ?_ ?_
    · split
      · exact hrewrite ..
      · trivial
    · split
      · trivial
      · exact (Step.look_only trivial).bind fun _ => (Step.compute_only _).bind fun _ =>
          hrewrite ..
  · refine (Step.compute_only _).bind fun wanted => (Step.look_only trivial).bind fun memory =>
      (Step.compute_only _).bind fun found => (Step.compute_only _).bind fun _ =>
        Prog.Only.bind ?_ fun _ => run.persist_only trivial fun _ => trivial
    unfold applyChange
    split
    · refine (run.writeAhead_only trivial fun _ => trivial).bind fun _ => ?_
      exact (Step.create_only trivial).bind fun _ => (Step.memory_only trivial).bind fun _ =>
        run.record_only trivial
    · refine (Step.look_only trivial).bind fun _ => (Step.update_only trivial).bind
        fun _ => (Step.memory_only trivial).bind fun _ => ?_
      split
      · trivial
      · exact (Step.compute_only _).bind fun _ => (Step.compute_only _).bind fun _ =>
          run.record_only trivial
    next hreplace => exact (hkept hreplace).elim
    all_goals trivial

/-- A create-before-destroy REPLACE deletes only what its companion's row describes. -/
theorem earns_applyNode (hcopies : run.Copies nodeId) :
    run.Earns stage nodeId (cbdCompanionId nodeId) (run.applyNode nodeId) := by
  obtain ⟨change, hchange, haction, hcbd⟩ := hcopies
  obtain ⟨hmem, hid⟩ := run.changes_eq_some.mp hchange
  have hprior : nodeId ∈ run.prior := hid ▸ (run.planned.each change hmem).recorded (.inr haction)
  have hone : ∀ effective : Change,
      (effective.action = .replace → effective.createBeforeDestroy) →
        run.Earns stage nodeId (cbdCompanionId nodeId) (run.applyOne nodeId effective) := by
    intro effective hstill
    by_cases hreplace : effective.action = .replace
    · unfold applyOne
      rw [if_neg (by rw [hreplace]; exact nofun)]
      refine .compute fun wanted => Earns.bind (.sparing (Step.look_only trivial)) fun memory =>
        .compute fun found => .compute fun _ => Earns.bind ?_ fun _ =>
          .sparing (run.persist_only trivial fun _ => trivial)
      unfold applyChange
      rw [hreplace]
      dsimp only
      unfold replace
      split
      next hnone =>
        rw [Std.ExtTreeMap.mem_iff_isSome_getElem?, hnone] at hprior
        cases hprior
      · refine Earns.bind (.sparing (Step.look_only trivial)) fun memory => .compute fun old => ?_
        rw [if_pos (hstill hreplace)]
        exact earns_replaceCbd
    · exact .sparing (sparing_applyOne hreplace)
  unfold applyNode
  rw [hchange]
  dsimp only
  split
  · exact .sparing trivial
  · split
    · refine Earns.bind (.sparing (Step.look_only trivial)) fun memory => ?_
      split
      next effective hconfirmed =>
        refine hone effective fun hreplace => ?_
        rcases confirmed_cases hconfirmed with rfl | ⟨hother, -⟩
        · exact hcbd
        · exact (hother hreplace).elim
      · exact .sparing trivial
    · exact hone change fun _ => hcbd

theorem not_copies_of_delete (hdelete : nodeId ∈ run.deleteIds) : ¬ run.Copies nodeId := by
  rintro ⟨change, hchange, haction, -⟩
  obtain ⟨planned, hplanned, hid⟩ := List.mem_map.mp hdelete
  obtain ⟨hin, hdeletes⟩ := List.mem_filter.mp hplanned
  rw [run.changes_eq_some.mpr ⟨hin, hid⟩, Option.some.injEq] at hchange
  subst hchange
  rw [of_decide_eq_true hdeletes] at haction
  cases haction

theorem earns_destroyNode (hcopies : ¬ run.Copies nodeId) :
    run.Earns stage nodeId nodeId (run.destroyNode nodeId) := by
  intro past hpast found landed hassume
  have hhere : Earned nodeId (⟨stage, nodeId, .look, found, landed⟩ :: past) :=
    hpast.cons (.inl trivial)
  refine ⟨hhere, ?_⟩
  change Along stage nodeId _ _ (run.destroyLooked nodeId found.1) _ _
  unfold destroyLooked
  split
  next old hold =>
    refine (hcopies (hassume.2.1 nodeId ?_)).elim
    rw [Std.ExtTreeMap.mem_iff_isSome_getElem?, hold]
    rfl
  next => exact earns_deleteNode _ hhere

theorem nodesOf_rolling (hmem : nodeId ∈ run.nodesOf .rolling) : '~' ∉ nodeId.toList := by
  rw [List.mem_singleton.mp hmem]
  exact List.not_mem_nil

theorem mem_companion (nodeId : String) : '~' ∈ (cbdCompanionId nodeId).toList := by
  simp [cbdCompanionId]

/-- Phase 0 works on nothing else. -/
theorem Logged.predeleted (hlogged : run.Logged cloud state) {event : Event}
    (hmem : event ∈ state.world.log) (hstage : event.stage = .predelete) :
    event.node ∈ run.predeleted := by
  by_contra hnone
  obtain ⟨last, hresidual⟩ := hlogged.residual event.stage event.node
  have hwork : (run.schedule event.stage).work event.node = .ret () := by
    have hnode := hlogged.mem_nodesOf hmem
    refine (if_pos hnode).trans ?_
    rw [hstage]
    exact if_pos hnone
  rw [hwork] at hresidual
  have hentry : event ∈ entries event.stage event.node state.world.log :=
    mem_entries.mpr ⟨hmem, rfl, rfl⟩
  rw [hresidual.of_ret.1] at hentry
  cases hentry

/-- A leftover is deleted by the work that took its delete. -/
theorem Logged.destroys (hlogged : run.Logged cloud state)
    (hdelete : cbdCompanionId nodeId ∈ run.deleteIds) {event : Event}
    (hmem : event ∈ state.world.log) (hdestroys : run.Destroys nodeId event) :
    (event.stage = .predelete ∨ event.stage = .forward ∨ event.stage = .destroy) ∧
      ∃ taken ∈ state.world.log, taken.Takes (cbdCompanionId nodeId) ∧ taken.stage = event.stage := by
  obtain ⟨⟨res, hrequest⟩, hwhich⟩ := hdestroys
  have hnode := hlogged.mem_nodesOf hmem
  have hpass : event.stage = .predelete ∨ event.stage = .forward ∨ event.stage = .destroy := by
    rcases hwhich with ⟨hid, -⟩ | ⟨-, hforward, -⟩
    · cases hstage : event.stage with
      | predelete => exact .inl rfl
      | forward => exact .inr (.inl rfl)
      | destroy => exact .inr (.inr rfl)
      | rolling =>
        rw [hstage, hid] at hnode
        exact (nodesOf_rolling hnode (mem_companion nodeId)).elim
      | ended =>
        rw [hstage] at hnode
        cases hnode
    · exact .inr (.inl hforward)
  refine ⟨hpass, ?_⟩
  have hearns : run.Earns event.stage event.node (cbdCompanionId nodeId)
      (run.workOf event.stage event.node) := by
    rcases hwhich with ⟨hid, hstage⟩ | ⟨hid, hstage, hcopies⟩
    · rw [hid]
      rcases hpass with h | h | h
      · rw [h]
        change run.Earns _ _ _ (run.predeleteNode (cbdCompanionId nodeId))
        unfold predeleteNode
        split
        · exact .sparing trivial
        · exact earns_deleteNode
      · exact (hstage h).elim
      · rw [h]
        exact earns_destroyNode (not_copies_of_delete hdelete)
    · rw [hid, hstage]
      exact earns_applyNode hcopies
  have hearned : Earned (cbdCompanionId nodeId) (entries event.stage event.node state.world.log) := by
    refine hlogged.always (fun _ => hearns [] ?_) ?_ fun other hother =>
      hlogged.allAnswered other (mem_entries.mp hother).1
    · rintro ⟨_, hnone, -⟩
      cases hnone
    · rintro ⟨_, hnone, -⟩
      cases hnone
  obtain ⟨taken, htaken, htakes⟩ := hearned ⟨event, mem_entries.mpr ⟨hmem, rfl, rfl⟩, res, hrequest⟩
  exact ⟨taken, (mem_entries.mp htaken).1, htakes, (mem_entries.mp htaken).2.1⟩

/-! ## Work that asks for a delete -/

/-- The event shows that the delete is planned no longer, or asks for it. -/
def Asks (nodeId : String) (event : Event) : Prop :=
  event.request = .takeDelete nodeId ∨
    ∃ stage node found landed, event = ⟨stage, node, .look, found, landed⟩ ∧
      nodeId ∉ found.1.deleteIds

theorem along_clearCompanion (past : List Event) :
    Along stage other Event.Sound (fun _ => True) (run.clearCompanion nodeId) past
      fun past' _ => ∃ event ∈ past', Asks nodeId event := by
  intro found landed _
  refine ⟨trivial, ?_⟩
  change Along stage other _ _ (if nodeId ∈ found.1.deleteIds then run.deleteNode nodeId
    else if nodeId ∈ run.prior ∧ nodeId ∉ run.predeleted then .raise (.fault (.engine nodeId))
    else .ret ()) _ _
  split
  · intro taken landed' _
    refine ⟨trivial, Along.suffix.mono fun past' _ hpast' => ?_⟩
    exact ⟨_, hpast'.subset (List.mem_cons_self ..), .inl rfl⟩
  next hnone =>
    have hasks : ∃ event ∈ (⟨stage, other, .look, found, landed⟩ :: past), Asks nodeId event :=
      ⟨_, List.mem_cons_self .., .inr ⟨stage, other, found, landed, rfl, hnone⟩⟩
    split
    · exact hasks
    · exact hasks

/-- A REPLACE that is sure to run has seen to its companion. -/
theorem along_applyNode (hcopies : run.CopiesSurely nodeId) :
    Along stage nodeId Event.Sound (fun _ => True) (run.applyNode nodeId) []
      fun past outcome => outcome = .ok () → ∃ event ∈ past, Asks (cbdCompanionId nodeId) event := by
  obtain ⟨change, hchange, haction, hcbd, hsure⟩ := hcopies
  obtain ⟨hmem, hid⟩ := run.changes_eq_some.mp hchange
  have hprior : nodeId ∈ run.prior := hid ▸ (run.planned.each change hmem).recorded (.inr haction)
  have hrun : run.applyNode nodeId = run.applyOne nodeId change := by
    unfold applyNode
    rw [hchange]
    dsimp only
    rw [if_neg (by rw [haction]; exact fun h => nomatch h.1),
      if_neg (by rw [hsure]; exact fun h => nomatch h.1)]
  -- What comes before the companion is cleared either fails or leads to it.
  have hafter : ∀ {α β : Type} {program : Step α} {next : α → Step β} {past : List Event},
      (∀ value past', Along stage nodeId Event.Sound (fun _ => True) (next value) past'
        fun past'' outcome => (∃ value, outcome = .ok value) →
          ∃ event ∈ past'', Asks (cbdCompanionId nodeId) event) →
      Along stage nodeId Event.Sound (fun _ => True) (program.bind next) past
        fun past'' outcome => (∃ value, outcome = .ok value) →
          ∃ event ∈ past'', Asks (cbdCompanionId nodeId) event := by
    intro α β program next past hnext
    refine Along.bind (Along.anything.mono fun past' outcome _ => ?_)
    cases outcome with
    | ok value => exact hnext value past'
    | error failure => exact fun ⟨_, hok⟩ => nomatch hok
  -- What comes after it forgets nothing.
  have hthen : ∀ {α β : Type} {program : Step α} {next : α → Step β} {past : List Event},
      (Along stage nodeId Event.Sound (fun _ => True) program past
        fun past'' outcome => (∃ value, outcome = .ok value) →
          ∃ event ∈ past'', Asks (cbdCompanionId nodeId) event) →
      Along stage nodeId Event.Sound (fun _ => True) (program.bind next) past
        fun past'' outcome => (∃ value, outcome = .ok value) →
          ∃ event ∈ past'', Asks (cbdCompanionId nodeId) event := by
    intro α β program next past hprogram
    refine Along.bind (hprogram.mono fun past' outcome hpast' => ?_)
    cases outcome with
    | ok value =>
      obtain ⟨event, hmem, hasks⟩ := hpast' ⟨value, rfl⟩
      exact Along.suffix.mono fun past'' _ hsuffix _ => ⟨event, hsuffix.subset hmem, hasks⟩
    | error failure => exact fun ⟨_, hok⟩ => nomatch hok
  rw [hrun]
  refine Along.mono (?_ : Along stage nodeId Event.Sound (fun _ => True) _ [] fun past'' outcome =>
    (∃ value, outcome = .ok value) → ∃ event ∈ past'', Asks (cbdCompanionId nodeId) event)
      fun past' outcome hpast' hok => hpast' ⟨(), hok⟩
  unfold applyOne
  rw [if_neg (by rw [haction]; exact nofun)]
  refine hafter fun wanted _ => hafter fun memory _ => hafter fun found _ => hafter fun _ _ => ?_
  refine hthen ?_
  unfold applyChange
  rw [haction]
  dsimp only
  unfold replace
  split
  next hnone =>
    rw [Std.ExtTreeMap.mem_iff_isSome_getElem?, hnone] at hprior
    cases hprior
  · refine hafter fun memory _ => hafter fun old past' => ?_
    rw [if_pos hcbd]
    exact hthen ((along_clearCompanion past').mono fun _ _ hasks _ => hasks)

/-- A work that asks for a planned delete ends with the delete taken by then. -/
theorem Logged.taken_of_asks (hlogged : run.Logged cloud state) (hdelete : nodeId ∈ run.deleteIds)
    {asked : Event} (hmem : asked ∈ state.world.log) (hasks : Asks nodeId asked) :
    ∃ event ∈ state.world.log, event.Takes nodeId ∧ event.stage.rank ≤ asked.stage.rank := by
  rcases hasks with hrequest | ⟨stage, node, found, landed, rfl, hnone⟩
  · exact hlogged.taken_by hdelete hmem hrequest
  · obtain ⟨newer, older, hlog⟩ := List.append_of_mem hmem
    rw [← hlogged.look hlog] at hnone
    obtain ⟨earlier, hearlier, hrequest⟩ : ∃ earlier ∈ older,
        earlier.request = .takeDelete nodeId := by
      by_contra hno
      refine hnone (replay_deleteIds hdelete fun earlier hearlier hrequest => hno ?_)
      exact ⟨earlier, hearlier, hrequest⟩
    have hin : earlier ∈ state.world.log := by
      rw [hlog]
      simp [hearlier]
    obtain ⟨event, hevent, htakes, hrank⟩ := hlogged.taken_by hdelete hin hrequest
    refine ⟨event, hevent, htakes, hrank.trans ?_⟩
    have hsorted := hlogged.sorted
    rw [hlog, List.pairwise_append] at hsorted
    exact (List.pairwise_cons.mp hsorted.2.1).1 earlier hearlier

variable {dependent dep : String}

/-- The leftover of a node that comes ahead is taken in a stage of its own. -/
theorem Ahead.taken (hahead : run.Ahead dependent dep) (hreach : run.Reaches cloud state)
    (hdelete : cbdCompanionId dependent ∈ run.deleteIds) {newer older : List Event} {event : Event}
    (hlog : state.world.log = newer ++ event :: older)
    (hstage : event.stage = .forward ∧ event.node = dep ∧ run.Copies dep ∨ event.stage = .destroy) :
    ∃ taken ∈ state.world.log, taken.Takes (cbdCompanionId dependent) ∧
      (taken.stage.rank < event.stage.rank ∨
        (taken.stage.rank ≤ event.stage.rank ∧ event.stage = .forward ∧
          entries .forward dependent newer = [])) := by
  have hlogged := hreach.logged
  obtain ⟨-, hpredeleted | ⟨hsure, hafter⟩⟩ := hahead
  · -- Phase 0 has seen to it.
    have hprior := run.mem_prior_of_predeleted hpredeleted
    have hnode : cbdCompanionId dependent ∈ run.nodesOf .predelete :=
      run.mem_priorGraph.mpr hprior
    have hlater : Stage.predelete.rank < event.stage.rank ∧
        event.stage.rank ≤ Stage.destroy.rank := by
      rcases hstage with ⟨h, -⟩ | h <;> rw [h] <;> decide
    have hcomplete := hlogged.staged newer event older hlog hlater.2 .predelete hlater.1 _ hnode
    have hwork : (run.schedule .predelete).work (cbdCompanionId dependent) =
        run.deleteNode (cbdCompanionId dependent) := by
      refine (if_pos hnode).trans ?_
      change run.predeleteNode _ = _
      rw [predeleteNode, if_neg (not_not.mpr hpredeleted), if_pos hdelete]
    unfold Complete at hcomplete
    rw [hwork] at hcomplete
    obtain ⟨hnone, hended⟩ | ⟨reply, landed, later, hentries, -⟩ := Residual.front hcomplete
    · cases hended
    have hentry : ⟨.predelete, cbdCompanionId dependent, .takeDelete (cbdCompanionId dependent),
        reply, landed⟩ ∈ entries .predelete (cbdCompanionId dependent) older := by
      rw [hentries]
      simp
    have hin : ⟨.predelete, cbdCompanionId dependent, .takeDelete (cbdCompanionId dependent),
        reply, landed⟩ ∈ state.world.log := by
      rw [hlog]
      simp [(mem_entries.mp hentry).1]
    obtain ⟨taken, htaken, htakes, hrank⟩ := hlogged.taken_by hdelete hin rfl
    exact ⟨taken, htaken, htakes, .inl (Nat.lt_of_le_of_lt hrank hlater.1)⟩
  · -- The forward pass has copied the node's row again, having cleared the companion's.
    have hnode : dependent ∈ run.nodesOf .forward := by
      obtain ⟨change, hchange, haction, -⟩ := hsure
      obtain ⟨hmem, rfl⟩ := run.changes_eq_some.mp hchange
      exact Std.ExtTreeMap.mem_keys.mpr
        ((run.planned.each change hmem).declared (.inr (.inr haction)))
    have hwork : (run.schedule .forward).work dependent = run.applyNode dependent := if_pos hnode
    have hdone : run.Complete .forward dependent older ∧
        (event.stage = .forward → entries .forward dependent newer = []) := by
      rcases hstage with ⟨hforward, hid, hcopies⟩ | hlast
      · have hwaits : run.Waits event.stage dependent event.node := by
          rw [hforward, hid]
          exact hafter.resolve_left fun hnot => hnot hcopies
        have hchain := hreach.chained newer event older hlog dependent hwaits
        rw [hforward] at hchain
        exact ⟨hchain.1, fun _ => hchain.2⟩
      · refine ⟨hlogged.staged newer event older hlog ?_ .forward ?_ dependent hnode, fun h => ?_⟩
        · rw [hlast]
        · rw [hlast]
          decide
        · rw [hlast] at h
          cases h
    obtain ⟨hcomplete, hentries⟩ := hdone
    unfold Complete at hcomplete
    rw [hwork] at hcomplete
    obtain ⟨asked, hasked, hasks⟩ := ((along_applyNode hsure).residual trivial hcomplete
      fun other hother => hlogged.sound other (by
        rw [hlog]
        simp [(mem_entries.mp hother).1])).2 rfl
    have hin : asked ∈ state.world.log := by
      rw [hlog]
      simp [(mem_entries.mp hasked).1]
    obtain ⟨taken, htaken, htakes, hrank⟩ := hlogged.taken_of_asks hdelete hin hasks
    rw [(mem_entries.mp hasked).2.1] at hrank
    refine ⟨taken, htaken, htakes, ?_⟩
    rcases hstage with ⟨hforward, -⟩ | hlast
    · exact .inr ⟨hforward ▸ hrank, hforward, hentries hforward⟩
    · refine .inl (Nat.lt_of_le_of_lt hrank ?_)
      rw [hlast]
      decide

/-- **A leftover that comes ahead is deleted first, in every run.** -/
theorem Ahead.ordered (hahead : run.Ahead dependent dep)
    (hdependent : cbdCompanionId dependent ∈ run.deleteIds)
    (hdep : cbdCompanionId dep ∈ run.deleteIds) (hreach : run.Reaches cloud state) :
    run.LeftoversOrdered dependent dep state.world.log := by
  intro newer event older hlog hdestroys later hlater hlaterDestroys
  have hlogged := hreach.logged
  have hmem : event ∈ state.world.log := by
    rw [hlog]
    simp
  have hmemLater : later ∈ state.world.log := by
    rw [hlog]
    simp [hlater]
  have hstage : event.stage = .forward ∧ event.node = dep ∧ run.Copies dep ∨
      event.stage = .destroy := by
    obtain ⟨-, hwhich⟩ := id hdestroys
    rcases (hlogged.destroys hdep hmem hdestroys).1 with h | h | h
    · rcases hwhich with ⟨hid, -⟩ | ⟨-, hforward, -⟩
      · exact (hahead.1 (hid ▸ hlogged.predeleted hmem h)).elim
      · exact nomatch h.symm.trans hforward
    · rcases hwhich with ⟨-, hnot⟩ | ⟨hid, -, hcopies⟩
      · exact (hnot h).elim
      · exact .inl ⟨h, hid, hcopies⟩
    · exact .inr h
  have hrank : event.stage.rank ≤ later.stage.rank := by
    have hsorted := hlogged.sorted
    rw [hlog, List.pairwise_append] at hsorted
    exact hsorted.2.2 later hlater event (List.mem_cons_self ..)
  obtain ⟨taken, htaken, htakes, hwhen⟩ := hahead.taken hreach hdependent hlog hstage
  obtain ⟨-, taken', htaken', htakes', hsame⟩ := hlogged.destroys hdependent hmemLater hlaterDestroys
  obtain rfl := hlogged.takes_same htaken htaken' htakes htakes'
  rw [hsame] at hwhen
  rcases hwhen with hless | ⟨hle, hforward, hnone⟩
  · exact absurd hrank (Nat.not_le.mpr hless)
  · have hlaterStage : later.stage = .forward := by
      rw [hforward] at hle hrank
      revert hle hrank
      cases later.stage <;> decide
    rcases hlaterDestroys.2 with ⟨-, hnot⟩ | ⟨hid, -, -⟩
    · exact hnot hlaterStage
    · have hentry : later ∈ entries .forward dependent newer :=
        mem_entries.mpr ⟨hlater, hlaterStage, hid⟩
      rw [hnone] at hentry
      cases hentry

/-! ## Leftovers that both fall to phase 2 -/

/-- The node's planned delete can go through in phase 2, and has not begun. -/
structure Pending (run : RunContext) (state : RunState) (nodeId : String) : Prop where
  waiting : state.tasks.tasks nodeId = .waiting
  planned : nodeId ∈ state.world.memory.deleteIds
  left : state.world.memory.cbdDeferred[nodeId]? = none
  rebuilt : ∃ row res, run.prior[nodeId]? = some row ∧ isData run.env.types row.type = false ∧
    reconstruct run.env state.world.memory.live row = .ok res ∧
      providerFor run.env row.provider = .ok ()

theorem steps_append {first last : RunState} {acts : List RunAct} {act : RunAct}
    (hsteps : run.steps acts first = some state) (hstep : run.step act state = some last) :
    run.steps (acts ++ [act]) first = some last := by
  induction acts generalizing first with
  | nil =>
    cases hsteps
    rw [List.nil_append, steps, hstep]
    rfl
  | cons head acts ih =>
    obtain ⟨middle, hhead, hrest⟩ := Option.bind_eq_some_iff.mp hsteps
    rw [List.cons_append, steps, hhead]
    exact ih hrest

theorem Reaches.step {last : RunState} {act : RunAct} (hreach : run.Reaches cloud state)
    (hstep : run.step act state = some last) : run.Reaches cloud last := by
  obtain ⟨acts, hsteps⟩ := hreach
  exact ⟨_, steps_append hsteps hstep⟩

/-- A request of phase 2 ends well. -/
theorem Reaches.serve (hreach : run.Reaches cloud state) (hstage : state.stage = .destroy)
    {request : Request} {next : request.Reply → Step Unit}
    (htask : state.tasks.tasks nodeId = .running (.ask request next)) :
    ∃ last, run.Reaches cloud last ∧ last.stage = .destroy ∧
      last.world = (World.serve run.env.types .destroy nodeId ⟨.done, ∅⟩ state.world request).2 ∧
      last.tasks.tasks = Function.update state.tasks.tasks nodeId (.running (next
        (World.serve run.env.types .destroy nodeId ⟨.done, ∅⟩ state.world request).1)) := by
  obtain ⟨stage, tasks⟩ := state
  subst hstage
  have hserve : run.step (.task (.serve nodeId ⟨.done, ∅⟩)) ⟨.destroy, tasks⟩ =
      some ⟨.destroy, (World.serve run.env.types .destroy nodeId ⟨.done, ∅⟩ tasks.world request).2,
        Function.update tasks.tasks nodeId (.running (next
          (World.serve run.env.types .destroy nodeId ⟨.done, ∅⟩ tasks.world request).1))⟩ := by
    change Option.map _ ((run.schedule .destroy).step _ tasks) = _
    rw [Schedule.step]
    change tasks.tasks nodeId = _ at htask
    rw [htask]
    rfl
  exact ⟨_, hreach.step hserve, rfl, rfl, rfl⟩

/-- A delete that can go through does, if nothing else is scheduled. -/
theorem Pending.delete (hpending : Pending run state nodeId) (hreach : run.Reaches cloud state)
    (hstage : state.stage = .destroy) (hfirst : (run.schedule .destroy).before nodeId = []) :
    ∃ last res newer, run.Reaches cloud last ∧ last.stage = .destroy ∧
      last.world.log = ⟨.destroy, nodeId, .delete res, .ok (), true⟩ :: newer ++ state.world.log ∧
        ∀ other ≠ nodeId, Pending run state other → Pending run last other := by
  obtain ⟨row, res, hrow, hdata, hbuilt, hprovider⟩ := hpending.rebuilt
  have hnode : nodeId ∈ run.nodesOf .destroy :=
    run.mem_priorGraph.mpr (StateGraph.mem_of_row hrow)
  have hwork : (run.schedule .destroy).work nodeId = run.destroyNode nodeId := if_pos hnode
  obtain ⟨stage, tasks⟩ := state
  subst hstage
  have hstart : run.step (.task (.start nodeId)) ⟨.destroy, tasks⟩ = some ⟨.destroy, tasks.world,
      Function.update tasks.tasks nodeId (.running (run.destroyNode nodeId))⟩ := by
    change Option.map _ ((run.schedule .destroy).step _ tasks) = _
    rw [Schedule.step]
    have hwaiting : tasks.tasks nodeId = .waiting := hpending.waiting
    rw [hwaiting, hfirst, hwork]
    rfl
  -- It looks, takes the delete, looks again and calls the provider.
  have hserved := @Reaches.serve _ _ _ nodeId (hreach.step hstart) rfl .look
    fun found => run.destroyLooked nodeId found.1
  obtain ⟨first, hreach₁, hstage₁, hworld₁, htasks₁⟩ := hserved (Function.update_self ..)
  have hmemory₁ : first.world.memory = tasks.world.memory := by
    rw [hworld₁]
    rfl
  have htask₁ : first.tasks.tasks nodeId = .running (run.deleteNode nodeId) := by
    rw [htasks₁, Function.update_self]
    change Schedule.Task.running (run.destroyLooked nodeId tasks.world.memory) = _
    rw [destroyLooked, show tasks.world.memory.cbdDeferred[nodeId]? = none from hpending.left]
  obtain ⟨second, hreach₂, hstage₂, hworld₂, htasks₂⟩ := hreach₁.serve hstage₁ htask₁
  have hmemory₂ : second.world.memory = { tasks.world.memory with
      deleteIds := tasks.world.memory.deleteIds.filter (· ≠ nodeId) } := by
    rw [hworld₂, ← hmemory₁]
    rfl
  have htask₂ : second.tasks.tasks nodeId = .running (.ask .look fun found =>
      (Step.compute (reconstruct run.env found.1.live row)).bind fun res =>
        if isData run.env.types row.type then forget nodeId
        else (Step.compute (providerFor run.env row.provider)).bind fun _ =>
          (Step.delete res).bind fun _ => forget nodeId) := by
    rw [htasks₂, Function.update_self]
    change Schedule.Task.running (if decide (nodeId ∈ first.world.memory.deleteIds) then _ else _) = _
    rw [hmemory₁, if_pos (decide_eq_true hpending.planned), hrow]
    rfl
  obtain ⟨third, hreach₃, hstage₃, hworld₃, htasks₃⟩ := hreach₂.serve hstage₂ htask₂
  have hmemory₃ : third.world.memory = second.world.memory := by
    rw [hworld₃]
    rfl
  have htask₃ : third.tasks.tasks nodeId = .running ((Step.delete res).bind fun _ =>
      forget nodeId) := by
    rw [htasks₃, Function.update_self]
    change Schedule.Task.running
      ((Step.compute (reconstruct run.env second.world.memory.live row)).bind _) = _
    have hlive : reconstruct run.env second.world.memory.live row = .ok res := by
      rw [hmemory₂]
      exact hbuilt
    rw [hlive]
    change Schedule.Task.running (if isData run.env.types row.type then _ else _) = _
    rw [hdata, hprovider]
    rfl
  obtain ⟨last, hreach₄, hstage₄, hworld₄, htasks₄⟩ := hreach₃.serve hstage₃ htask₃
  have hmemory₄ : last.world.memory = third.world.memory := by
    rw [hworld₄]
    change (World.effect run.env.types third.world (.delete res)).memory = _
    rw [World.effect]
    split <;> rfl
  have hlog : last.world.log = ⟨.destroy, nodeId, .delete res, .ok (), true⟩ ::
      [⟨.destroy, nodeId, .look, (second.world.memory, second.world.leaseLost), true⟩,
        ⟨.destroy, nodeId, .takeDelete nodeId, decide (nodeId ∈ first.world.memory.deleteIds), true⟩,
        ⟨.destroy, nodeId, .look, (tasks.world.memory, tasks.world.leaseLost), true⟩] ++
          tasks.world.log := by
    have hlast : last.world.log = ⟨.destroy, nodeId, .delete res, .ok (), true⟩ ::
        third.world.log := by
      rw [hworld₄]
      exact congrArg _ World.effect_log
    rw [hlast, hworld₃, World.serve_world]
    change _ :: _ :: second.world.log = _
    rw [hworld₂, World.serve_world]
    change _ :: _ :: _ :: first.world.log = _
    rw [hworld₁]
    rfl
  refine ⟨last, res, _, hreach₄, hstage₄, hlog, fun other hother hpending' => ?_⟩
  have hmemory : last.world.memory = { tasks.world.memory with
      deleteIds := tasks.world.memory.deleteIds.filter (· ≠ nodeId) } := by
    rw [hmemory₄, hmemory₃, hmemory₂]
  refine ⟨?_, ?_, ?_, ?_⟩
  · rw [htasks₄, htasks₃, htasks₂, htasks₁]
    simp only [Function.update_of_ne hother]
    exact hpending'.waiting
  · rw [hmemory]
    exact List.mem_filter.mpr ⟨hpending'.planned, decide_eq_true hother⟩
  · rw [hmemory]
    exact hpending'.left
  · rw [hmemory]
    exact hpending'.rebuilt

/-- Nothing depends on a companion. -/
theorem before_companion (htidy : Tidy run.prior) :
    (run.schedule .destroy).before (cbdCompanionId nodeId) = [] := by
  change run.priorGraph.predecessors (cbdCompanionId nodeId) true = []
  rw [List.eq_nil_iff_forall_not_mem]
  intro dependent hdependent
  rw [DiGraph.predecessors, if_pos rfl, run.priorGraph_eq] at hdependent
  obtain ⟨-, hedge⟩ := List.mem_filter.mp hdependent
  obtain ⟨row, hrow, hdep, -⟩ := (mem_edgesOf_irFromState run.keyed).mp (of_decide_eq_true hedge)
  exact htidy dependent row hrow _ hdep (mem_companion nodeId)

/-- **Leftovers that both fall to phase 2 can be deleted either way round.** -/
theorem Reaches.reversed (hreach : run.Reaches cloud state) (htidy : Tidy run.prior)
    (hstage : state.stage = .destroy) (hne : dependent ≠ dep)
    (hdependent : Pending run state (cbdCompanionId dependent))
    (hdep : Pending run state (cbdCompanionId dep)) :
    ∃ last, run.Reaches cloud last ∧ ¬ run.LeftoversOrdered dependent dep last.world.log := by
  obtain ⟨middle, res, newer, hmiddle, hstage', hlog, hothers⟩ :=
    hdep.delete hreach hstage (before_companion htidy)
  have hcompanions : cbdCompanionId dependent ≠ cbdCompanionId dep := by
    intro hsame
    have hlists := congrArg String.toList hsame
    simp only [cbdCompanionId, String.toList_append] at hlists
    exact hne (String.toList_injective (List.append_cancel_right hlists))
  obtain ⟨last, res', newer', hlast, -, hlog', -⟩ := (hothers _ hcompanions hdependent).delete
    hmiddle hstage' (before_companion htidy)
  refine ⟨last, hlast, fun hordered => ?_⟩
  rw [hlog] at hlog'
  exact hordered (⟨.destroy, cbdCompanionId dependent, .delete res', .ok (), true⟩ :: newer')
    ⟨.destroy, cbdCompanionId dep, .delete res, .ok (), true⟩ (newer ++ state.world.log) hlog'
    ⟨⟨res, rfl⟩, .inl ⟨rfl, by rintro ⟨⟩⟩⟩ _ (List.mem_cons_self ..)
    ⟨⟨res', rfl⟩, .inl ⟨rfl, by rintro ⟨⟩⟩⟩

/-- **When leftovers are deleted in dependency order.** In every run, if the dependent's comes ahead.
If both are left to phase 2, they can be deleted the other way round. -/
theorem leftoversOrdered (hne : dependent ≠ dep)
    (hdependent : cbdCompanionId dependent ∈ run.deleteIds)
    (hdep : cbdCompanionId dep ∈ run.deleteIds) :
    (run.Ahead dependent dep → ∀ (cloud : Cloud) (state : RunState), run.Reaches cloud state →
      run.LeftoversOrdered dependent dep state.world.log) ∧
    (Tidy run.prior → (∃ (cloud : Cloud) (state : RunState), run.Reaches cloud state ∧
        state.stage = .destroy ∧ Pending run state (cbdCompanionId dependent) ∧
          Pending run state (cbdCompanionId dep)) →
      ¬ ∀ (cloud : Cloud) (state : RunState), run.Reaches cloud state →
        run.LeftoversOrdered dependent dep state.world.log) := by
  constructor
  · exact fun hahead cloud state hreach => hahead.ordered hdependent hdep hreach
  · rintro htidy ⟨cloud, state, hreach, hstage, hpending, hpending'⟩ hordered
    obtain ⟨last, hlast, hreversed⟩ := hreach.reversed htidy hstage hne hpending hpending'
    exact hreversed (hordered cloud last hlast)

end

end RunContext

/-! ## Two leftovers -/

namespace Small

/-- A node that is replaced before it is destroyed. -/
def keptNode (name kind : String) (dependsOn : List String) : IRNode :=
  { node name dependsOn ((∅ : Dict String Value).insert "kind" (.str kind)) with
    createBeforeDestroy := true }

/-- `a` waits for `b`. -/
def kept (kind kind' : String) : Desired :=
  config [keptNode "a" kind ["s:t:b"], keptNode "b" kind' []]

def keptRow (name kind : String) (dependsOn : List String) (physical : String) : StateNode :=
  row (keptNode name kind dependsOn) physical

def firstRows : StateGraph := rows [keptRow "a" "1" ["s:t:b"] "r1", keptRow "b" "1" [] "r0"]

/-- Both were replaced, and the run stopped before it cleaned up. -/
def leftRows : StateGraph :=
  rows [keptRow "a" "2" ["s:t:b"] "r3", keptRow "b" "2" [] "r2",
    { keptRow "a" "1" ["s:t:b"] "r1" with id := "s:t:a~replaced" },
    { keptRow "b" "1" [] "r0" with id := "s:t:b~replaced" }]

def applied (desired : Desired) (prior : StateGraph) (hstart : startable env desired prior) :
    RunContext :=
  .wire env desired (diff (diffInputs desired prior) []) prior false hstart (diff_planned _ _)

def first : RunContext := applied (kept "1" "1") ∅ (by decide +kernel)

def second : RunContext := applied (kept "2" "2") firstRows (by decide +kernel)

def third : RunContext := applied (kept "2" "2") leftRows (by decide +kernel)

/-- `a` is replaced once more. -/
def again : RunContext := applied (kept "3" "2") leftRows (by decide +kernel)

def emptyCloud (next : Nat) : Cloud := ⟨∅, next⟩

theorem leftRows_applied : RunContext.Applied RunContext.Diffed leftRows := by
  have hfirst : ((first.steps ([.next] ++ goes "s:t:b" 7 ++ goes "s:t:a" 7)
      (first.start (emptyCloud 0))).any fun state => decide (state.world.rows = firstRows)) = true := by
    decide +kernel
  have hsecond : ((second.steps (goes "s:t:a" 0 ++ goes "s:t:b" 0 ++ [.next] ++ goes "s:t:b" 11 ++
      goes "s:t:a" 11) (second.start (emptyCloud 2))).any fun state =>
        decide (state.world.rows = leftRows)) = true := by
    decide +kernel
  obtain ⟨created, hcreated, hrows⟩ := (Option.any_eq_true _ _).mp hfirst
  obtain ⟨left, hleft, hrows'⟩ := (Option.any_eq_true _ _).mp hsecond
  have happlied : RunContext.Applied RunContext.Diffed firstRows := by
    rw [← of_decide_eq_true hrows]
    exact @RunContext.Applied.apply _ first _ _ .empty ⟨∅, [], rfl⟩
      (graph_of_isOk (by decide +kernel)) ⟨_, hcreated⟩
  rw [← of_decide_eq_true hrows']
  exact @RunContext.Applied.apply _ second _ _ happlied ⟨∅, [], rfl⟩
    (graph_of_isOk (by decide +kernel)) ⟨_, hleft⟩

/-- Whether a companion's own work of phase 2 called the provider. -/
def deletes (nodeId : String) (event : Event) : Bool :=
  event.stage = .destroy && event.node = cbdCompanionId nodeId &&
    match event.request with
    | .delete _ => true
    | _ => false

def reversed (dependent dep : String) : List Event → Bool
  | [] => false
  | event :: older => (deletes dependent event && older.any (deletes dep)) ||
      reversed dependent dep older

theorem destroys_of_deletes {run : RunContext} {nodeId : String} {event : Event}
    (hdeletes : deletes nodeId event) : run.Destroys nodeId event := by
  simp only [deletes, Bool.and_eq_true, decide_eq_true_eq] at hdeletes
  obtain ⟨⟨hstage, hnode⟩, hrequest⟩ := hdeletes
  refine ⟨?_, .inl ⟨hnode, fun hforward => nomatch hstage.symm.trans hforward⟩⟩
  split at hrequest
  next res hres => exact ⟨res, hres⟩
  next => cases hrequest

theorem not_ordered_of_reversed {run : RunContext} {dependent dep : String} {log : List Event}
    (hreversed : reversed dependent dep log) : ¬ run.LeftoversOrdered dependent dep log := by
  induction log with
  | nil => cases hreversed
  | cons event older ih =>
    intro hordered
    rw [reversed, Bool.or_eq_true, Bool.and_eq_true] at hreversed
    rcases hreversed with ⟨hlater, hearlier⟩ | hrest
    · obtain ⟨earlier, hmem, hdeletes⟩ := List.any_eq_true.mp hearlier
      obtain ⟨between, before, rfl⟩ := List.append_of_mem hmem
      exact hordered (event :: between) earlier before rfl (destroys_of_deletes hdeletes) event
        (List.mem_cons_self ..) (destroys_of_deletes hlater)
    · refine ih hrest fun newer earlier before hlog hdestroys later hlater => ?_
      subst hlog
      exact hordered (event :: newer) earlier before rfl hdestroys later
        (List.mem_cons_of_mem _ hlater)

end Small

/-- What `a` left behind goes first when `a` alone is replaced again. -/
theorem leftoversOrdered_again :
    (cbdCompanionId "s:t:a" ∈ Small.again.deleteIds ∧ cbdCompanionId "s:t:b" ∈ Small.again.deleteIds) ∧
      ∀ (cloud : Cloud) (state : RunState), Small.again.Reaches cloud state →
        Small.again.LeftoversOrdered "s:t:a" "s:t:b" state.world.log := by
  refine ⟨by decide +kernel, (RunContext.leftoversOrdered (by decide) (by decide +kernel) (by decide +kernel)).1 ?_⟩
  have hsure : ((Small.again.changes["s:t:a"]?).any fun change => decide (change.action = .replace ∧
      change.createBeforeDestroy ∧ change.conditional = false)) = true := by
    decide +kernel
  have hkept : ((Small.again.changes["s:t:b"]?).all fun change =>
      decide (change.action ≠ .replace)) = true := by
    decide +kernel
  obtain ⟨change, hchange, hreplace⟩ := (Option.any_eq_true _ _).mp hsure
  refine ⟨by decide +kernel, .inr ⟨⟨change, hchange, of_decide_eq_true hreplace⟩, .inl ?_⟩⟩
  rintro ⟨other, hother, haction, -⟩
  rw [hother] at hkept
  exact of_decide_eq_true hkept haction

/-- Both leftovers stand in the state with no edge between them, and what `b` left behind goes
before what `a` left behind, which depended on it. -/
theorem leftovers_reversed : ∃ (run : RunContext) (cloud : Cloud) (state : RunState),
    RunContext.Applied RunContext.Diffed run.prior ∧ run.Diffed ∧
      (∃ row, run.prior[cbdCompanionId "s:t:a"]? = some row ∧ "s:t:b" ∈ row.edges) ∧
        cbdCompanionId "s:t:a" ∈ run.deleteIds ∧ cbdCompanionId "s:t:b" ∈ run.deleteIds ∧
          run.Reaches cloud state ∧
            ¬ run.LeftoversOrdered "s:t:a" "s:t:b" state.world.log := by
  have hrow : ((Small.leftRows[cbdCompanionId "s:t:a"]?).any fun row =>
      decide ("s:t:b" ∈ row.edges)) = true := by
    decide +kernel
  have hrun : ((Small.third.steps (Small.goes "s:t:a~replaced" 0 ++ Small.goes "s:t:b~replaced" 0 ++
      Small.goes "s:t:a" 0 ++ Small.goes "s:t:b" 0 ++ [.next] ++ Small.goes "s:t:b" 0 ++
      Small.goes "s:t:a" 0 ++ [.next] ++ Small.goes "s:t:b~replaced" 5 ++
      Small.goes "s:t:a~replaced" 5) (Small.third.start (Small.emptyCloud 4))).any fun state =>
        Small.reversed "s:t:a" "s:t:b" state.world.log) = true := by
    decide +kernel
  obtain ⟨row, hrow, hedge⟩ := (Option.any_eq_true _ _).mp hrow
  obtain ⟨state, hsteps, hreversed⟩ := (Option.any_eq_true _ _).mp hrun
  exact ⟨Small.third, Small.emptyCloud 4, state, Small.leftRows_applied, ⟨∅, [], rfl⟩,
    ⟨row, hrow, of_decide_eq_true hedge⟩, by decide +kernel, by decide +kernel, ⟨_, hsteps⟩,
    Small.not_ordered_of_reversed hreversed⟩

end Atlantide.Executor
