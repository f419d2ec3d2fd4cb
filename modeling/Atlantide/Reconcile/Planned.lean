import Atlantide.Reconcile.Staleness

/-! # What every planned changeset is like

One change a node, about the node's own declaration and row, with no flag its action has no use
for. The executor relies on it, and each pass of the planner keeps it. -/

namespace Atlantide

structure Change.Planned (desired : IRGraph) (prior : StateGraph) (change : Change) : Prop where
  undeclared : change.action = .delete → change.nodeId ∉ desired.byId
  declared : change.action = .create ∨ change.action = .update ∨ change.action = .replace →
    change.nodeId ∈ desired.byId
  recorded : change.action = .update ∨ change.action = .replace → change.nodeId ∈ prior
  wants : ∀ node, change.desired = some node → desired.byId[change.nodeId]? = some node
  holds : ∀ row, change.prior = some row → prior[change.nodeId]? = some row
  stateOnly : change.stateOnly → change.action = .noop
  conditional : change.conditional → change.action = .replace

structure ChangeSet.Planned (changeset : ChangeSet) (desired : IRGraph) (prior : StateGraph) :
    Prop where
  each : ∀ change ∈ changeset.changes, change.Planned desired prior
  distinct : (changeset.changes.map (·.nodeId)).Nodup

/-- A pass over the changes that keeps each one planned, and its node. -/
theorem ChangeSet.Planned.map {changeset : ChangeSet} {desired : IRGraph} {prior : StateGraph}
    {pass : Change → Change} (hplanned : changeset.Planned desired prior)
    (hnode : ∀ change ∈ changeset.changes, (pass change).nodeId = change.nodeId)
    (hpass : ∀ change ∈ changeset.changes, change.Planned desired prior →
      (pass change).Planned desired prior) : (changeset.map pass).Planned desired prior := by
  constructor
  · intro change hmem
    obtain ⟨before, hbefore, rfl⟩ := List.mem_map.mp hmem
    exact hpass before hbefore (hplanned.each before hbefore)
  · have hsame : (changeset.map pass).changes.map (·.nodeId) =
        changeset.changes.map (·.nodeId) := by
      rw [ChangeSet.map, List.map_map]
      exact List.map_congr_left hnode
    rw [hsame]
    exact hplanned.distinct

section

variable {inputs : DiffInputs} {change : Change} {want : IRNode} {row : StateNode}

theorem DiffInputs.mem_of_wanted {nodeId : String} (hwant : inputs.wanted nodeId = some want) :
    nodeId ∈ inputs.desired.byId :=
  Std.ExtTreeMap.mem_iff_isSome_getElem?.mpr (by rw [show inputs.desired.byId[nodeId]? = _ from hwant]; rfl)

theorem StateGraph.mem_of_row {prior : StateGraph} {nodeId : String}
    (hrow : prior[nodeId]? = some row) : nodeId ∈ prior :=
  Std.ExtTreeMap.mem_iff_isSome_getElem?.mpr (by rw [hrow]; rfl)

/-- A classification of a node that is declared and recorded. -/
theorem classifyNode_planned {nodeId : String} (hwant : inputs.wanted nodeId = some want)
    (hrow : inputs.prior[nodeId]? = some row) (mutability : String → Option Mutability)
    (moved : List String) (verdicts : Dict String Consumed) (unexplained : Bool) :
    (classifyNode want row mutability moved verdicts unexplained).Planned inputs.desired
      inputs.prior := by
  obtain rfl : want.id = nodeId := IRGraph.byId_id hwant
  have hdeclared := inputs.mem_of_wanted hwant
  have hrecorded := StateGraph.mem_of_row hrow
  unfold classifyNode
  dsimp only
  split_ifs
  · exact ⟨nofun, fun _ => hdeclared, fun _ => hrecorded, fun _ h => by cases h; exact hwant,
      fun _ h => by cases h; exact hrow, nofun, nofun⟩
  · exact ⟨nofun, fun _ => hdeclared, fun _ => hrecorded, fun _ h => by cases h; exact hwant,
      fun _ h => by cases h; exact hrow, nofun, fun _ => rfl⟩

theorem DiffInputs.changeFor_planned (nodeId : String) :
    (inputs.changeFor nodeId).Planned inputs.desired inputs.prior := by
  unfold changeFor
  split
  next hnone =>
    refine ⟨fun _ hmem => ?_, nofun, nofun, nofun, fun row h => h, nofun, nofun⟩
    rw [Std.ExtTreeMap.mem_iff_isSome_getElem?] at hmem
    rw [show inputs.desired.byId[nodeId]? = none from hnone] at hmem
    cases hmem
  next want hwant hnone =>
    exact ⟨nofun, fun _ => inputs.mem_of_wanted hwant, nofun, fun _ h => by cases h; exact hwant,
      nofun, nofun, nofun⟩
  next want row hwant hrow =>
    split_ifs
    · exact ⟨nofun, fun _ => inputs.mem_of_wanted hwant, nofun, fun _ h => by cases h; exact hwant,
        fun _ h => by cases h; exact hrow, nofun, nofun⟩
    · exact classifyNode_planned hwant hrow ..
    · exact ⟨nofun, nofun, nofun, fun _ h => by cases h; exact hwant,
        fun _ h => by cases h; exact hrow, fun _ => rfl, nofun⟩
    · exact classifyNode_planned hwant hrow ..

theorem Change.Planned.forced {desired : IRGraph} {prior : StateGraph}
    (hplanned : change.Planned desired prior) : (forced change).Planned desired prior := by
  unfold Atlantide.forced
  split
  next => exact hplanned
  next => exact hplanned
  next => exact hplanned
  next => exact hplanned
  next node row hdesired hprior _ _ =>
    have hwant := hplanned.wants node hdesired
    have hrow := hplanned.holds row hprior
    exact ⟨nofun, fun _ => Std.ExtTreeMap.mem_iff_isSome_getElem?.mpr (by rw [hwant]; rfl),
      fun _ => StateGraph.mem_of_row hrow, fun _ h => by cases h; exact hwant,
      fun _ h => by cases h; exact hrow, nofun, nofun⟩

theorem DiffInputs.refine_planned (stale moved : List String)
    (hplanned : change.Planned inputs.desired inputs.prior) :
    (inputs.refine stale moved change).Planned inputs.desired inputs.prior := by
  unfold refine
  split
  next want row hwant hrow =>
    split
    · split
      · exact classifyNode_planned hwant hrow ..
      · exact hplanned
    · split
      · exact hplanned
      · exact classifyNode_planned hwant hrow ..
    · split
      · exact hplanned
      · exact classifyNode_planned hwant hrow ..
    · exact hplanned
  next => exact hplanned

theorem Change.Planned.createFirst {desired : IRGraph} {prior : StateGraph}
    (hplanned : change.Planned desired prior) (cbd : List String) :
    (createFirst change cbd).Planned desired prior := by
  unfold Atlantide.createFirst
  split
  · exact ⟨hplanned.undeclared, hplanned.declared, hplanned.recorded, hplanned.wants,
      hplanned.holds, hplanned.stateOnly, hplanned.conditional⟩
  · exact hplanned

theorem ChangeSet.Planned.behindDestroyFirst {changeset : ChangeSet} {desired : IRGraph}
    {prior : StateGraph} (hplanned : changeset.Planned desired prior)
    (mutability : TypeMutability) :
    (behindDestroyFirst changeset mutability).Planned desired prior := by
  refine hplanned.map (fun change _ => by split <;> rfl) fun change _ hchange => ?_
  split
  · exact ⟨hchange.undeclared, hchange.declared, hchange.recorded, hchange.wants, hchange.holds,
      hchange.stateOnly, nofun⟩
  · exact hchange

end

/-- **The diff plans one change a node, each about its own node.** -/
theorem diff_planned (inputs : DiffInputs) (replace : List String) :
    (diff inputs replace).Planned inputs.desired inputs.prior := by
  have hfirst : ∀ change ∈ inputs.firstPass replace, change.Planned inputs.desired inputs.prior := by
    intro change hmem
    obtain ⟨plain, hplain, rfl⟩ := List.mem_map.mp hmem
    obtain ⟨nodeId, -, rfl⟩ := List.mem_map.mp hplain
    split
    · exact (inputs.changeFor_planned nodeId).forced
    · exact inputs.changeFor_planned nodeId
  have hnodes : (inputs.firstPass replace).map (·.nodeId) = inputs.allIds := by
    rw [DiffInputs.firstPass, List.map_map, List.map_map]
    conv_rhs => rw [← List.map_id inputs.allIds]
    refine List.map_congr_left fun nodeId _ => ?_
    dsimp only [Function.comp_apply]
    split
    · rw [DiffInputs.forced_nodeId, DiffInputs.changeFor_nodeId]
      rfl
    · exact DiffInputs.changeFor_nodeId nodeId
  have hplanned : (⟨inputs.firstPass replace⟩ : ChangeSet).Planned inputs.desired inputs.prior :=
    ⟨hfirst, hnodes ▸ nodup_sortedSet _⟩
  refine ChangeSet.Planned.behindDestroyFirst (hplanned.map (fun change hmem => ?_)
    fun change _ hchange => ?_) _
  · rw [createFirst_nodeId, DiffInputs.refine_nodeId hmem]
  · exact (inputs.refine_planned _ _ hchange).createFirst _

theorem ChangeSet.Planned.restrict {changeset : ChangeSet} {desired : IRGraph} {prior : StateGraph}
    (hplanned : changeset.Planned desired prior) (selected : List String) :
    (restrict changeset selected).Planned desired prior := by
  refine hplanned.map (fun change _ => by split <;> rfl) fun change _ hchange => ?_
  split
  · exact hchange
  · exact ⟨nofun, nofun, nofun, nofun, nofun, nofun, nofun⟩

end Atlantide
