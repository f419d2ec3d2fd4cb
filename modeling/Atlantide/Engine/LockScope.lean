import Atlantide.Engine.TargetedApply

/-! # What the lock of an apply covers

Every change a plan has is about a declared node or a recorded one, and only a node that is
effectively create-before-destroy is replaced that way. So whatever an apply writes, first the
renames and then its run, is in the scope it sized from its first read of the state. -/

namespace Atlantide

open Executor

/-- The change is about a known node, and copies its row only where a lock expects it. -/
structure Change.Lockable (desired : IRGraph) (prior : StateGraph) (change : Change) : Prop where
  known : change.nodeId ∈ desired.byId ∨ change.nodeId ∈ prior
  companion : change.createBeforeDestroy → change.nodeId ∈ effectiveCbd desired

def ChangeSet.Lockable (desired : IRGraph) (prior : StateGraph) (changeset : ChangeSet) : Prop :=
  ∀ change ∈ changeset.changes, change.Lockable desired prior

section

variable {desired : IRGraph} {prior : StateGraph} {change other : Change} {changeset : ChangeSet}
  {inputs : DiffInputs} {want : IRNode} {row : StateNode} {nodeId : String}

theorem Change.Lockable.of_same (hlockable : change.Lockable desired prior)
    (hnode : other.nodeId = change.nodeId)
    (hcompanion : other.createBeforeDestroy → change.createBeforeDestroy) :
    other.Lockable desired prior := by
  constructor
  · rw [hnode]
    exact hlockable.known
  · rw [hnode]
    exact fun hfirst => hlockable.companion (hcompanion hfirst)

theorem ChangeSet.Lockable.map (hlockable : changeset.Lockable desired prior)
    {pass : Change → Change}
    (hpass : ∀ change, change.Lockable desired prior → (pass change).Lockable desired prior) :
    (changeset.map pass).Lockable desired prior := by
  intro change hmem
  obtain ⟨before, hbefore, rfl⟩ := List.mem_map.mp hmem
  exact hpass before (hlockable before hbefore)

/-- A declared node of the table is one of the config's. -/
theorem mem_nodes_of_byId {ir : IRGraph} (hnode : ir.byId[nodeId]? = some want) :
    want ∈ ir.nodes := by
  have hfold : ∀ (nodes : List IRNode) (table : Dict String IRNode),
      (nodes.foldl (fun table node => table.insert node.id node) table)[nodeId]? = some want →
      want ∈ nodes ∨ table[nodeId]? = some want := by
    intro nodes
    induction nodes with
    | nil => exact fun table hfound => .inr hfound
    | cons first nodes ih =>
      intro table hfound
      rcases ih _ hfound with hmem | htable
      · exact .inl (List.mem_cons_of_mem first hmem)
      · rw [Std.ExtTreeMap.getElem?_insert] at htable
        split at htable
        · cases htable
          exact .inl (List.mem_cons_self ..)
        · exact .inr htable
  rcases hfold ir.nodes ∅ hnode with hmem | hnone
  · exact hmem
  · rw [Std.ExtTreeMap.getElem?_empty] at hnone
    cases hnone

/-- A node that is declared create-before-destroy is effectively so. -/
theorem mem_effectiveCbd_of_declared {ir : IRGraph} (hnode : ir.byId[nodeId]? = some want)
    (hflag : want.createBeforeDestroy) : nodeId ∈ effectiveCbd ir := by
  obtain rfl := IRGraph.byId_id hnode
  exact mem_effectiveCbd.mpr ⟨want, mem_nodes_of_byId hnode, hflag, .refl⟩

/-- What each pass of the diff makes of one node. -/
theorem DiffInputs.classify_lockable (hwant : inputs.wanted nodeId = some want)
    (row : StateNode) (moved : List String) :
    (inputs.classify want row moved).Lockable inputs.desired inputs.prior := by
  obtain rfl : want.id = nodeId := IRGraph.byId_id hwant
  constructor
  · rw [classify, classifyNode_nodeId]
    exact .inl (inputs.mem_of_wanted hwant)
  · rw [classify, classifyNode_nodeId]
    intro hfirst
    unfold classifyNode at hfirst
    dsimp only at hfirst
    split at hfirst
    · cases hfirst
    · exact mem_effectiveCbd_of_declared hwant hfirst

theorem DiffInputs.changeFor_lockable (hknown : nodeId ∈ inputs.desired.byId ∨ nodeId ∈ inputs.prior) :
    (inputs.changeFor nodeId).Lockable inputs.desired inputs.prior := by
  unfold changeFor
  split
  next => exact ⟨hknown, nofun⟩
  next => exact ⟨hknown, nofun⟩
  next want row hwant hrow =>
    split_ifs
    · exact ⟨hknown, nofun⟩
    · exact inputs.classify_lockable hwant row _
    · exact ⟨hknown, nofun⟩
    · exact inputs.classify_lockable hwant row _

theorem Change.Lockable.forced (hlockable : change.Lockable desired prior)
    (hplanned : change.Planned desired prior) : (forced change).Lockable desired prior := by
  unfold Atlantide.forced
  split
  next => exact hlockable
  next => exact hlockable
  next => exact hlockable
  next => exact hlockable
  next node row hdesired _ _ _ =>
    exact ⟨hlockable.known, mem_effectiveCbd_of_declared (hplanned.wants node hdesired)⟩

theorem DiffInputs.refine_lockable (stale moved : List String)
    (hlockable : change.Lockable inputs.desired inputs.prior) :
    (inputs.refine stale moved change).Lockable inputs.desired inputs.prior := by
  unfold refine
  split
  next want row hwant hrow =>
    split
    · split
      · exact inputs.classify_lockable hwant row _
      · exact hlockable
    · split
      · exact hlockable
      · exact inputs.classify_lockable hwant row _
    · split
      · exact hlockable
      · exact inputs.classify_lockable hwant row _
    · exact hlockable
  next => exact hlockable

theorem Change.Lockable.createFirst (hlockable : change.Lockable desired prior) :
    (createFirst change (effectiveCbd desired)).Lockable desired prior := by
  unfold Atlantide.createFirst
  split
  next hboth => exact ⟨hlockable.known, fun _ => hboth.2⟩
  next => exact hlockable

theorem ChangeSet.Lockable.behindDestroyFirst (hlockable : changeset.Lockable desired prior)
    (mutability : TypeMutability) :
    (behindDestroyFirst changeset mutability).Lockable desired prior := by
  refine hlockable.map fun change hchange => ?_
  split
  · exact hchange.of_same rfl fun hfirst => hfirst
  · exact hchange

theorem diff_lockable (inputs : DiffInputs) (replace : List String) :
    (diff inputs replace).Lockable inputs.desired inputs.prior := by
  have hfirst : (⟨inputs.firstPass replace⟩ : ChangeSet).Lockable inputs.desired inputs.prior := by
    intro change hmem
    obtain ⟨plain, hplain, rfl⟩ := List.mem_map.mp hmem
    obtain ⟨nodeId, hid, rfl⟩ := List.mem_map.mp hplain
    rw [DiffInputs.allIds, mem_sortedSet, List.mem_append, Std.ExtTreeMap.mem_keys,
      Std.ExtTreeMap.mem_keys] at hid
    split
    · exact (inputs.changeFor_lockable hid).forced (inputs.changeFor_planned nodeId)
    · exact inputs.changeFor_lockable hid
  refine ChangeSet.Lockable.behindDestroyFirst (hfirst.map fun change hchange => ?_) _
  exact (inputs.refine_lockable _ _ hchange).createFirst

theorem ChangeSet.Lockable.restrict (hlockable : changeset.Lockable desired prior)
    (selected : List String) : (restrict changeset selected).Lockable desired prior := by
  refine hlockable.map fun change hchange => ?_
  split
  · exact hchange
  · exact hchange.of_same rfl nofun

theorem ChangeSet.Lockable.appliedTo (hlockable : changeset.Lockable desired prior)
    (audit : SecretAudit) (mutability : TypeMutability) :
    (audit.appliedTo changeset mutability (effectiveCbd desired)).Lockable desired prior := by
  unfold SecretAudit.appliedTo
  split
  next => exact hlockable
  next =>
    refine ChangeSet.Lockable.behindDestroyFirst (hlockable.map fun change hchange => ?_) _
    unfold SecretAudit.upgraded
    split_ifs
    · exact hchange
    · exact ⟨hchange.known, fun hfirst => of_decide_eq_true hfirst⟩
    · exact hchange.of_same rfl fun hfirst => hfirst

theorem ChangeSet.Lockable.resolveCbd (hlockable : changeset.Lockable desired prior)
    {types : Types} {mutability : TypeMutability} {forcers : String → List String}
    {resolved : ChangeSet} {downgraded : List String}
    (hok : resolveCbd changeset types mutability forcers = .ok (resolved, downgraded)) :
    resolved.Lockable desired prior := by
  unfold Atlantide.resolveCbd at hok
  dsimp only at hok
  split at hok
  next =>
    cases hok
    refine hlockable.map fun change hchange => ?_
    split
    · exact hchange.of_same rfl nofun
    · exact hchange
  next => cases hok

end

/-- **A plan's changes are about known nodes, and copy rows only where a lock expects it.** -/
theorem Planner.build_lockable {planner : Planner} {compiled : Compiled} {prior : StateGraph}
    {stackOutputs : Dict String Value} {selected : Option (List String)} {replace : List String}
    {plan : Plan}
    (hplan : planner.build compiled prior stackOutputs selected replace = .ok plan) :
    plan.changeset.Lockable compiled.ir prior := by
  obtain ⟨verdicts, audit, resolved, downgraded, -, -, hresolved, hchanges⟩ := build_stages hplan
  have hraw : (planner.raw compiled prior verdicts selected replace).Lockable compiled.ir prior := by
    unfold raw
    cases selected with
    | none => exact diff_lockable _ _
    | some nodeIds => exact (diff_lockable _ _).restrict nodeIds
  rw [hchanges]
  exact ((hraw.appliedTo audit planner.mutability).resolveCbd hresolved).behindDestroyFirst _

section

variable {codec : Codec} {prior : StateGraph} {ir : IRGraph} {remap : Dict String String}
  {nodeId : String}

/-- A rename is to the id of a declared node. -/
theorem aliasRemap_declared {oldId newId : String}
    (hrenamed : (aliasRemap prior ir)[oldId]? = some newId) : newId ∈ ir.byId := by
  have hfold : ∀ (nodes : List IRNode) (remap : Dict String String), nodes ⊆ ir.nodes →
      (∀ target, remap[oldId]? = some target → target ∈ ir.byId) →
      ∀ target, (nodes.foldl (addRename prior) remap)[oldId]? = some target → target ∈ ir.byId := by
    intro nodes
    induction nodes with
    | nil => exact fun _ _ hremap => hremap
    | cons node nodes ih =>
      intro remap hnodes hremap
      obtain ⟨hnode, hrest⟩ := List.cons_subset.mp hnodes
      refine ih _ hrest fun target htarget => ?_
      unfold addRename at htarget
      split at htarget
      next => exact hremap target htarget
      next =>
        split at htarget
        next =>
          rw [Std.ExtTreeMap.getElem?_insert] at htarget
          split at htarget
          · cases htarget
            exact mem_foldl_insert (.inl (List.mem_map_of_mem hnode))
          · exact hremap target htarget
        next => exact hremap target htarget
  refine hfold ir.nodes ∅ (List.Subset.refl _) (fun target hnone => ?_) newId hrenamed
  rw [Std.ExtTreeMap.getElem?_empty] at hnone
  cases hnone

/-- The rows the aliases leave are of recorded and of declared nodes. -/
theorem known_of_resolved (hkeyed : prior.Keyed) {migrated : StateGraph}
    (hresolved : resolveAliases codec prior ir = some (migrated, remap))
    (hmem : nodeId ∈ migrated) : nodeId ∈ ir.byId ∨ nodeId ∈ prior := by
  rcases resolveAliases_eq_some hresolved with
    ⟨-, -, rfl⟩ | ⟨-, rfl, hashes, -, rfl⟩
  · exact .inr hmem
  · by_contra hunknown
    obtain ⟨hundeclared, habsent⟩ := not_or.mp hunknown
    rw [Std.ExtTreeMap.mem_iff_isSome_getElem?, getElem?_migratedRows,
      getElem?_rekeyed_of_absent hkeyed habsent fun oldId hrenamed =>
        hundeclared (aliasRemap_declared hrenamed)] at hmem
    cases hmem

end

namespace Apply

/-- The apply puts or drops the node's row, or asks to. -/
inductive Writes (apply : Apply) (nodeId : String) : Prop
  /-- The rename of some node concerns it. -/
  | migration {migrated : StateGraph} {remap : Dict String String} {rows : StateGraph}
    (hbegins : apply.begins)
    (hresolved : resolveAliases apply.planner.codec apply.before apply.compiled.ir =
      some (migrated, remap))
    (hrenames : ¬ remap.isEmpty) (hprepared : apply.prepared = some rows)
    (htouched : nodeId ∈ persistTouches apply.before migrated remap)
  /-- The run requests it, forward or in its rollback. -/
  | request {run : RunContext} {cloud : Cloud} {state : RunState} {event : Event}
    (hruns : apply.Runs run) (hreach : run.Reaches cloud state) (hlogged : event ∈ state.world.log)
    (hwritten : event.request.written nodeId ≠ none)

variable {apply : Apply} {nodeId : String}

/-- A run of the apply acts on declared and recorded nodes. -/
theorem Runs.locked {run : RunContext} (hruns : apply.Runs run) (hscope : run.Scope nodeId) :
    nodeId ∈ apply.applyScope := by
  obtain ⟨plan, hplan, -, hchanges⟩ := hruns.plan
  obtain ⟨migrated, remap, selected, forced, hresolved, -, hbuild⟩ := planFromCompiled_eq_ok hplan
  have hlockable : ∀ change ∈ run.changeset.changes, change.Lockable apply.compiled.ir migrated :=
    hchanges ▸ Planner.build_lockable hbuild
  have hdeclared : ∀ declared ∈ apply.compiled.ir.byId, declared ∈ apply.applyScope :=
    fun declared hmem => List.mem_append_left _
      (List.mem_append_left _ (Std.ExtTreeMap.mem_keys.mpr hmem))
  cases hscope with
  | own hacts =>
    obtain ⟨change, hchange, -⟩ := hacts
    obtain ⟨hmem, rfl⟩ := run.changes_eq_some.mp hchange
    rcases (hlockable change hmem).known with hknown | hknown
    · exact hdeclared _ hknown
    · rcases known_of_resolved run.keyed hresolved hknown with hknown | hknown
      · exact hdeclared _ hknown
      · exact hruns.scope _ hknown
  | companion hcopies =>
    obtain ⟨change, hchange, -, hfirst⟩ := hcopies
    obtain ⟨hmem, rfl⟩ := run.changes_eq_some.mp hchange
    exact List.mem_append_right _
      (List.mem_map_of_mem ((hlockable change hmem).companion hfirst))

/-- **Every row an apply writes is locked.** -/
theorem writes_locked (hwrites : apply.Writes nodeId) : nodeId ∈ apply.applyScope := by
  cases hwrites with
  | @migration migrated remap rows hbegins hresolved hrenames hprepared htouched =>
    unfold prepared aliasMigration at hprepared
    rw [hresolved] at hprepared
    dsimp only at hprepared
    rw [if_neg hrenames] at hprepared
    split at hprepared
    next hcovered => exact hcovered nodeId htouched
    next => cases hprepared
  | request hruns hreach hlogged hwritten =>
    exact hruns.locked ((hreach.logged.proper _ hlogged).written hwritten)

/-- A rename writes the row of its new id, which the lock covers as a declared node's. -/
theorem writes_locked_renamed :
    Small.targetA.Writes "s:t:c" ∧ "s:t:c" ∈ Small.targetA.applyScope := by
  have hfound : ((resolveAliases Small.targetA.planner.codec Small.targetA.before
      Small.targetA.compiled.ir).any fun pair => !pair.2.isEmpty &&
        decide ("s:t:c" ∈ persistTouches Small.targetA.before pair.1 pair.2)) = true := by
    decide +kernel
  obtain ⟨⟨migrated, remap⟩, hresolved, htouched⟩ := (Option.any_eq_true _ _).mp hfound
  simp only [Bool.and_eq_true, Bool.not_eq_true', decide_eq_true_eq] at htouched
  have hwrites : Small.targetA.Writes "s:t:c" :=
    .migration Small.targetA_runs.begins hresolved (by rw [htouched.1]; exact Bool.false_ne_true)
      Small.targetA_runs.prior htouched.2
  exact ⟨hwrites, writes_locked hwrites⟩

end Apply

end Atlantide
