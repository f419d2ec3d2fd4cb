import Atlantide.Executor.Calls
import Atlantide.Executor.RecordedEdges

/-! # The plan that was approved

An apply is planned twice: once to be shown, and once more over the rows found under the lease, which
is the plan that is executed. The second is refused unless its fingerprint is that of the first. Two
plans of one config with one fingerprint differ at most in what their changes carry, and in changes
that have nothing to do. -/

namespace Atlantide

open Executor

/-- What is compared of a change. -/
structure FingerprintEntry where
  nodeId : String
  action : Action
  changedFields : List String
  conditional : Bool
  createBeforeDestroy : Bool
  deriving DecidableEq

def Change.entry (change : Change) : FingerprintEntry :=
  ⟨change.nodeId, change.action, change.changedFields, change.conditional,
    change.createBeforeDestroy⟩

/-- What the changeset does, as a comparable value. -/
def ChangeSet.fingerprint (changeset : ChangeSet) : Finset FingerprintEntry :=
  (changeset.pending.map Change.entry).toFinset

/-- What the fresh plan does also, and no longer. -/
structure PlanDrift where
  added : Finset FingerprintEntry
  removed : Finset FingerprintEntry

/-- Refuses a changeset that is not the one that was approved. -/
def raiseDrift (approved fresh : ChangeSet) : Except PlanDrift Unit :=
  let before := approved.fingerprint
  let after := fresh.fingerprint
  if before = after then .ok () else .error ⟨after \ before, before \ after⟩

theorem raiseDrift_ok_iff {approved fresh : ChangeSet} :
    raiseDrift approved fresh = .ok () ↔ approved.fingerprint = fresh.fingerprint := by
  unfold raiseDrift
  dsimp only
  split
  next hsame => exact iff_of_true rfl hsame
  next hdrift => exact iff_of_false nofun hdrift

theorem ChangeSet.mem_fingerprint {changeset : ChangeSet} {entry : FingerprintEntry} :
    entry ∈ changeset.fingerprint ↔
      ∃ change ∈ changeset.changes, (change.action ≠ .noop ∨ change.stateOnly) ∧
        change.entry = entry := by
  simp [fingerprint, pending, and_assoc]

theorem raiseDrift_error {approved fresh : ChangeSet} {drift : PlanDrift}
    (hrefused : raiseDrift approved fresh = .error drift) :
    (∀ entry, entry ∈ drift.added ↔ entry ∈ fresh.fingerprint ∧ entry ∉ approved.fingerprint) ∧
      ∀ entry, entry ∈ drift.removed ↔
        entry ∈ approved.fingerprint ∧ entry ∉ fresh.fingerprint := by
  unfold raiseDrift at hrefused
  dsimp only at hrefused
  split at hrefused
  · cases hrefused
  · cases hrefused
    exact ⟨fun _ => Finset.mem_sdiff, fun _ => Finset.mem_sdiff⟩

/-! ## A plan is about the nodes of the config and of the state -/

theorem mem_of_diff {inputs : DiffInputs} {replace : List String} {change : Change}
    (hmem : change ∈ (diff inputs replace).changes) :
    change.nodeId ∈ inputs.desired.byId ∨ change.nodeId ∈ inputs.prior := by
  obtain ⟨first, hfirst, hnode, -⟩ := mem_diff hmem
  obtain ⟨plain, hplain, rfl⟩ := List.mem_map.mp hfirst
  obtain ⟨nodeId, hid, rfl⟩ := List.mem_map.mp hplain
  have hsame : change.nodeId = nodeId := by
    rw [hnode]
    split
    · rw [DiffInputs.forced_nodeId, DiffInputs.changeFor_nodeId]
    · exact inputs.changeFor_nodeId nodeId
  rw [hsame]
  rw [DiffInputs.allIds, mem_sortedSet, List.mem_append, Std.ExtTreeMap.mem_keys,
    Std.ExtTreeMap.mem_keys] at hid
  exact hid

namespace Planner

variable {planner : Planner} {compiled : Compiled} {prior : StateGraph}
  {stackOutputs : Dict String Value} {selected : Option (List String)} {replace : List String}
  {plan : Plan}

theorem build_nodes
    (hplan : planner.build compiled prior stackOutputs selected replace = .ok plan)
    {change : Change} (hmem : change ∈ plan.changeset.changes) :
    change.nodeId ∈ compiled.ir.byId ∨ change.nodeId ∈ prior := by
  obtain ⟨verdicts, audit, audited, rfl, hagrees, -⟩ := build_passes hplan
  obtain ⟨before, hbefore, hsame⟩ := hagrees change hmem
  obtain ⟨first, hfirst, hnode, -⟩ := SecretAudit.mem_appliedTo hbefore
  rw [hsame.nodeId, hnode]
  unfold raw at hfirst
  dsimp only at hfirst
  split at hfirst
  next nodeIds =>
    obtain ⟨found, hfound, rfl⟩ := List.mem_map.mp hfirst
    have hid := mem_of_diff hfound
    split
    · exact hid
    · exact hid
  next => exact mem_of_diff hfirst

end Planner

/-- A node that two states record is of one type in both. -/
def StateGraph.TypedAlike (prior other : StateGraph) : Prop :=
  ∀ (nodeId : String) (row row' : StateNode), prior[nodeId]? = some row →
    other[nodeId]? = some row' → row.type = row'.type

/-- A node id tells the type, so rows that go by their ids are of one type. -/
theorem StateGraph.typedAlike {prior other : StateGraph}
    (htyped : ∀ entry ∈ prior.toList, entry.2.type = typeNameOf entry.1)
    (htyped' : ∀ entry ∈ other.toList, entry.2.type = typeNameOf entry.1) :
    prior.TypedAlike other := by
  intro nodeId row row' hrow hrow'
  have hmem := htyped (nodeId, row) (Std.ExtTreeMap.mem_toList_iff_getElem?_eq_some.mpr hrow)
  have hmem' := htyped' (nodeId, row') (Std.ExtTreeMap.mem_toList_iff_getElem?_eq_some.mpr hrow')
  exact hmem.trans hmem'.symm

namespace Executor

namespace RunContext

variable {run fresh : RunContext} {planner : Planner} {compiled : Compiled} {replace : List String}
  {nodeId : String} {change : Change}

/-- The run executes a plan of the config over the rows it starts from, whatever it was narrowed
to. -/
structure PlannedBy (run : RunContext) (planner : Planner) (compiled : Compiled)
    (replace : List String) : Prop where
  ir : run.desired.ir = compiled.ir
  types : run.env.types = planner.types
  secrets : run.env.secrets = planner.secrets
  built : ∃ (stackOutputs : Dict String Value) (selected : Option (List String)) (plan : Plan),
    planner.build compiled run.prior stackOutputs selected replace = .ok plan ∧
      plan.changeset = run.changeset

/-- A planned delete is of something recorded, and of nothing declared. -/
theorem PlannedBy.recorded (hplanned : run.PlannedBy planner compiled replace)
    (hdelete : nodeId ∈ run.deleteIds) : nodeId ∈ run.prior ∧ nodeId ∉ run.desired.ir.byId := by
  obtain ⟨change, hmem, rfl⟩ := List.mem_map.mp hdelete
  obtain ⟨hin, haction⟩ := List.mem_filter.mp hmem
  have hundeclared := (run.planned.each change hin).undeclared (of_decide_eq_true haction)
  obtain ⟨stackOutputs, selected, plan, hplan, hchanges⟩ := hplanned.built
  rw [← hchanges] at hin
  refine ⟨(Planner.build_nodes hplan hin).resolve_left ?_, hundeclared⟩
  rw [← hplanned.ir]
  exact hundeclared

/-! ## What equal fingerprints say of a node -/

/-- What is left of the changes where the fingerprints are equal: what each does, or that neither
does anything. -/
theorem entry_of_fingerprint (hsame : run.changeset.fingerprint = fresh.changeset.fingerprint)
    (hchange : run.changes[nodeId]? = some change) (hacts : change.action ≠ .noop) :
    ∃ change', fresh.changes[nodeId]? = some change' ∧ change'.action = change.action ∧
      change'.conditional = change.conditional ∧
        change'.createBeforeDestroy = change.createBeforeDestroy := by
  obtain ⟨hmem, hid⟩ := run.changes_eq_some.mp hchange
  have hentry : change.entry ∈ run.changeset.fingerprint :=
    ChangeSet.mem_fingerprint.mpr ⟨change, hmem, .inl hacts, rfl⟩
  rw [hsame] at hentry
  obtain ⟨change', hmem', -, heq⟩ := ChangeSet.mem_fingerprint.mp hentry
  have hfields := FingerprintEntry.mk.inj heq
  exact ⟨change', fresh.changes_eq_some.mpr ⟨hmem', hfields.1.trans hid⟩, hfields.2.1,
    hfields.2.2.2.1, hfields.2.2.2.2⟩

theorem destructive_of_fingerprint
    (hsame : run.changeset.fingerprint = fresh.changeset.fingerprint)
    (hdestructive : run.Destructive nodeId) : fresh.Destructive nodeId := by
  obtain ⟨change, hchange, haction⟩ := hdestructive
  have hacts : change.action ≠ .noop := by
    rcases haction with haction | haction <;> rw [haction] <;> exact nofun
  obtain ⟨change', hchange', hsame', -⟩ := entry_of_fingerprint hsame hchange hacts
  exact ⟨change', hchange', by rwa [hsame']⟩

theorem deleteIds_of_fingerprint
    (hsame : run.changeset.fingerprint = fresh.changeset.fingerprint)
    (hdelete : nodeId ∈ run.deleteIds) : nodeId ∈ fresh.deleteIds := by
  obtain ⟨change, hmem, hid⟩ := List.mem_map.mp hdelete
  obtain ⟨hin, haction⟩ := List.mem_filter.mp hmem
  have haction := of_decide_eq_true haction
  obtain ⟨change', hchange', hsame', -⟩ := entry_of_fingerprint hsame
    (run.changes_eq_some.mpr ⟨hin, hid⟩) (by rw [haction]; exact nofun)
  obtain ⟨hin', hid'⟩ := fresh.changes_eq_some.mp hchange'
  refine List.mem_map.mpr ⟨change', List.mem_filter.mpr ⟨hin', ?_⟩, hid'⟩
  rw [hsame', haction]
  rfl

/-- The conditional REPLACEs turn out alike in two runs. -/
def SameOutcomes (run fresh : RunContext) (log log' : List Event) : Prop :=
  ∀ (nodeId : String) (change change' effective effective' : Change),
    run.changes[nodeId]? = some change → fresh.changes[nodeId]? = some change' →
      change.conditional → change'.conditional →
        run.TurnsOut nodeId change (entries .forward nodeId log) effective →
          fresh.TurnsOut nodeId change' (entries .forward nodeId log') effective' →
            effective.action = effective'.action

section

variable {log log' : List Event} {change' effective effective' : Change}

theorem TurnsOut.plain (hturns : run.TurnsOut nodeId change log effective)
    (hplain : ¬ change.conditional) : effective = change := (if_neg hplain).mp hturns

theorem settledCalls_congr (haction : effective.action = effective'.action)
    (hcbd : effective.action = .replace →
      effective.createBeforeDestroy = effective'.createBeforeDestroy) :
    settledCalls effective = settledCalls effective' := by
  unfold settledCalls
  rw [← haction]
  cases hsettled : effective.action with
  | replace => rw [hcbd hsettled]
  | _ => rfl

theorem settledCalls_of_fingerprint
    (hsame : run.changeset.fingerprint = fresh.changeset.fingerprint)
    (houtcomes : run.SameOutcomes fresh log log')
    (hchange : run.changes[nodeId]? = some change)
    (hchange' : fresh.changes[nodeId]? = some change')
    (hturns : run.TurnsOut nodeId change (entries .forward nodeId log) effective)
    (hturns' : fresh.TurnsOut nodeId change' (entries .forward nodeId log') effective') :
    settledCalls effective = settledCalls effective' := by
  have hidle {ran : RunContext} {found : Change} {past : List Event} {settled : Change}
      (hfound : ran.changes[nodeId]? = some found) (hnoop : found.action = .noop)
      (hends : ran.TurnsOut nodeId found past settled) : settled = found := by
    refine hends.plain fun hconditional => ?_
    have hreplace := (ran.planned.each found (ran.changes_eq_some.mp hfound).1).conditional
      hconditional
    rw [hnoop] at hreplace
    cases hreplace
  by_cases hacts : change.action = .noop
  · have hnoop' : change'.action = .noop := by
      by_contra hacts'
      obtain ⟨found, hfound, haction, -⟩ := entry_of_fingerprint hsame.symm hchange' hacts'
      rw [hchange, Option.some.injEq] at hfound
      subst hfound
      exact hacts' (haction.symm.trans hacts)
    rw [hidle hchange hacts hturns, hidle hchange' hnoop' hturns']
    refine settledCalls_congr (hacts.trans hnoop'.symm) fun hreplace => ?_
    rw [hacts] at hreplace
    cases hreplace
  · obtain ⟨found, hfound, haction, hconditional, hcbd⟩ := entry_of_fingerprint hsame hchange hacts
    rw [hchange', Option.some.injEq] at hfound
    subst hfound
    by_cases hsure : change.conditional
    · have halike := houtcomes nodeId change change' effective effective' hchange hchange' hsure
        (hconditional.trans hsure) hturns hturns'
      refine settledCalls_congr halike fun hreplace => ?_
      rw [hturns.replace hreplace, hturns'.replace (halike ▸ hreplace), hcbd]
    · have hsure' : ¬ change'.conditional := by rwa [hconditional]
      rw [hturns.plain hsure, hturns'.plain hsure']
      exact settledCalls_congr haction.symm fun _ => hcbd.symm

end

theorem destroyCalls_congr (hrun : run.PlannedBy planner compiled replace)
    (hfresh : fresh.PlannedBy planner compiled replace)
    (halike : run.prior.TypedAlike fresh.prior) (hprior : nodeId ∈ run.prior)
    (hprior' : nodeId ∈ fresh.prior) :
    run.destroyCalls nodeId = fresh.destroyCalls nodeId := by
  have hrow := Std.ExtTreeMap.getElem?_eq_some_getElem hprior
  have hrow' := Std.ExtTreeMap.getElem?_eq_some_getElem hprior'
  unfold destroyCalls
  rw [hrow, hrow', Option.any_some, Option.any_some, halike _ _ _ hrow hrow', hrun.types,
    hfresh.types]

section

variable (hrun : run.PlannedBy planner compiled replace)
  (hfresh : fresh.PlannedBy planner compiled replace)
  (halike : run.prior.TypedAlike fresh.prior)
  (hsame : run.changeset.fingerprint = fresh.changeset.fingerprint)

include hrun hfresh halike hsame

/-- **Runs of plans with one fingerprint make the same calls on each node.** -/
theorem calls_of_fingerprint {cloud cloud' : Cloud} {state state' : RunState}
    (hreach : run.Reaches cloud state) (hdone : run.Succeeded state)
    (hreach' : fresh.Reaches cloud' state') (hdone' : fresh.Succeeded state')
    (houtcomes : run.SameOutcomes fresh state.world.log state'.world.log) (nodeId : String) :
    run.calls state.world.log nodeId = fresh.calls state'.world.log nodeId := by
  have hir : fresh.desired.ir = run.desired.ir := hfresh.ir.trans hrun.ir.symm
  by_cases hdeclared : nodeId ∈ run.desired.ir.byId
  · have hdeclared' : nodeId ∈ fresh.desired.ir.byId := by rwa [hir]
    obtain ⟨change, effective, hchange, hturns, hcalls⟩ := hdone.calls_declared hreach hdeclared
    obtain ⟨change', effective', hchange', hturns', hcalls'⟩ :=
      hdone'.calls_declared hreach' hdeclared'
    rw [hcalls, hcalls']
    exact settledCalls_of_fingerprint hsame houtcomes hchange hchange' hturns hturns'
  · have hother' : nodeId ∉ fresh.desired.ir.byId := by rwa [hir]
    rw [hdone.calls_undeclared hreach hdeclared fun hdelete => (hrun.recorded hdelete).1,
      hdone'.calls_undeclared hreach' hother' fun hdelete => (hfresh.recorded hdelete).1]
    by_cases hdelete : nodeId ∈ run.deleteIds
    · have hdelete' := deleteIds_of_fingerprint hsame hdelete
      rw [if_pos hdelete, if_pos hdelete']
      exact destroyCalls_congr hrun hfresh halike (hrun.recorded hdelete).1
        (hfresh.recorded hdelete').1
    · rw [if_neg hdelete, if_neg]
      exact fun hdelete' => hdelete (deleteIds_of_fingerprint hsame.symm hdelete')

end

/-- **The approved run.** Two plans of one config with one fingerprint: the runs that end well make
the same provider calls on each node, in the same order of halves, if their conditional REPLACEs turn
out alike. And where the second is let through, nothing that the first did not show as a DELETE or a
REPLACE is deleted by it, whatever becomes of it, its rollback apart. -/
theorem approved_run (hrun : run.PlannedBy planner compiled replace)
    (hfresh : fresh.PlannedBy planner compiled replace)
    (halike : run.prior.TypedAlike fresh.prior) :
    (run.changeset.fingerprint = fresh.changeset.fingerprint →
      ∀ (cloud cloud' : Cloud) (state state' : RunState), run.Reaches cloud state →
        run.Succeeded state → fresh.Reaches cloud' state' → fresh.Succeeded state' →
          run.SameOutcomes fresh state.world.log state'.world.log →
            ∀ nodeId, run.calls state.world.log nodeId = fresh.calls state'.world.log nodeId) ∧
      (raiseDrift run.changeset fresh.changeset = .ok () →
        ∀ (cloud : Cloud) (state : RunState), fresh.Reaches cloud state →
          ∀ event ∈ state.world.log, event.stage ≠ .rolling → event.request.call = some .delete →
            run.Destructive (fresh.target event)) := by
  refine ⟨fun hsame cloud cloud' state state' hreach hdone hreach' hdone' houtcomes nodeId => ?_,
    fun happroved cloud state hreach event hmem hforth hcall => ?_⟩
  · exact calls_of_fingerprint hrun hfresh halike hsame hreach hdone hreach' hdone'
      houtcomes nodeId
  · exact destructive_of_fingerprint (raiseDrift_ok_iff.mp happroved).symm
      (hreach.logged.destructive hmem hforth hcall)

end RunContext

namespace Small

/-- `a` is replaced because it was asked for, `b` is new, and `c` is declared no longer. -/
def asked : Desired := config [node "a" [], node "b" []]

def askedRows (physical physical' : String) : StateGraph :=
  rows [row (node "a" []) physical, row (node "c" []) physical']

def askedOver (prior : StateGraph) (hstart : startable env asked prior) : RunContext :=
  .wire env asked (diff (diffInputs asked prior) ["s:t:a"]) prior false hstart (diff_planned _ _)

/-- What was approved. -/
def shown : RunContext := askedOver (askedRows "r0" "r1") (by decide +kernel)

/-- What is found under the lease: both resources are others by now. -/
def found : RunContext := askedOver (askedRows "r5" "r6") (by decide +kernel)

theorem plannedBy {run : RunContext} (hconfig : run.desired = asked) (henv : run.env = env)
    (hbuilt : ((planner.build (plain asked (plain_of_two rfl rfl rfl)) run.prior ∅ none
      ["s:t:a"]).toOption.map (·.changeset)) = some run.changeset) :
    run.PlannedBy planner (plain asked (plain_of_two rfl rfl rfl)) ["s:t:a"] := by
  obtain ⟨plan, hplan, hchanges⟩ := Option.map_eq_some_iff.mp hbuilt
  refine ⟨by rw [hconfig]; rfl, by rw [henv]; rfl, by rw [henv]; rfl, ∅, none, plan, ?_, hchanges⟩
  cases hresult : planner.build (plain asked (plain_of_two rfl rfl rfl)) run.prior ∅ none
      ["s:t:a"] with
  | error fault =>
    rw [hresult] at hplan
    cases hplan
  | ok made =>
    rw [hresult] at hplan
    cases hplan
    rfl

def askedActs : List RunAct :=
  goes "s:t:a" 0 ++ goes "s:t:c" 0 ++ [.next] ++ goes "s:t:b" 7 ++ goes "s:t:a" 10 ++ [.next] ++
    goes "s:t:c" 5 ++ goes "s:t:a" 2

theorem asked_succeeds {run : RunContext}
    (hrun : ((run.steps askedActs (run.start (emptyCloud 9))).any fun state =>
      decide (state.stage = .destroy) && run.finished .destroy state.tasks) = true) :
    ∃ state, run.Reaches (emptyCloud 9) state ∧ run.Succeeded state := by
  obtain ⟨state, hsteps, hended⟩ := (Option.any_eq_true _ _).mp hrun
  simp only [Bool.and_eq_true, decide_eq_true_eq] at hended
  exact ⟨state, ⟨_, hsteps⟩, hended⟩

theorem sameOutcomes_shown (log log' : List Event) : shown.SameOutcomes found log log' := by
  intro nodeId change change' effective effective' hchange _ hconditional
  have hsure : (shown.changeset.changes.all fun change => !change.conditional) = true := by
    decide +kernel
  have hplain := List.all_eq_true.mp hsure change (shown.changes_eq_some.mp hchange).1
  rw [hconditional] at hplain
  cases hplain

end Small

namespace RunContext

/-- A replace, a create and a delete, planned over other rows than were shown. -/
theorem approved_run_small : Small.shown.prior ≠ Small.found.prior ∧
    (∃ state state', Small.shown.Reaches (Small.emptyCloud 9) state ∧
      Small.shown.Succeeded state ∧ Small.found.Reaches (Small.emptyCloud 9) state' ∧
        Small.found.Succeeded state' ∧
          {nodeId | Small.shown.calls state.world.log nodeId =
            Small.found.calls state'.world.log nodeId} = Set.univ) ∧
      {log | ∃ state, Small.found.Reaches (Small.emptyCloud 9) state ∧ state.world.log = log} ⊆
        {log | ∀ event ∈ log, event.stage ≠ .rolling → event.request.call = some .delete →
          Small.shown.Destructive (Small.found.target event)} := by
  have hshown := @Small.plannedBy Small.shown rfl rfl (by decide +kernel)
  have hfound := @Small.plannedBy Small.found rfl rfl (by decide +kernel)
  have halike : Small.shown.prior.TypedAlike Small.found.prior :=
    StateGraph.typedAlike (by decide +kernel) (by decide +kernel)
  have happroved := approved_run hshown hfound halike
  have hsame : Small.shown.changeset.fingerprint = Small.found.changeset.fingerprint := by
    decide +kernel
  obtain ⟨state, hreach, hdone⟩ := @Small.asked_succeeds Small.shown (by decide +kernel)
  obtain ⟨state', hreach', hdone'⟩ := @Small.asked_succeeds Small.found (by decide +kernel)
  refine ⟨by decide +kernel, ⟨state, state', hreach, hdone, hreach', hdone', ?_⟩, ?_⟩
  · exact Set.eq_univ_of_forall (happroved.1 hsame _ _ _ _ hreach hdone hreach' hdone'
      (Small.sameOutcomes_shown _ _))
  · rintro log ⟨last, hlast, rfl⟩
    exact happroved.2 (raiseDrift_ok_iff.mpr hsame) _ last hlast

end RunContext

end Executor

end Atlantide
