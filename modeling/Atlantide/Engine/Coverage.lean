import Atlantide.Engine.Planner

/-! # Plans of the whole config

Without a selection a plan has a change for every node of the config and of the state, and leaves
alone only what is in both. -/

namespace Atlantide

open Fallible

section

variable {inputs : DiffInputs} {replace : List String}

/-- The diff has a change for every node of either side. -/
theorem diff_covers {nodeId : String}
    (hmem : nodeId ∈ inputs.desired.byId ∨ nodeId ∈ inputs.prior) :
    ∃ change ∈ (diff inputs replace).changes, change.nodeId = nodeId := by
  have hid : nodeId ∈ inputs.allIds := by
    rw [DiffInputs.allIds, mem_sortedSet, List.mem_append, Std.ExtTreeMap.mem_keys,
      Std.ExtTreeMap.mem_keys]
    exact hmem
  have hplain : inputs.changeFor nodeId ∈ inputs.allIds.map inputs.changeFor :=
    List.mem_map_of_mem hid
  obtain ⟨first, hfirst, hnode⟩ : ∃ first ∈ inputs.firstPass replace, first.nodeId = nodeId := by
    refine ⟨_, List.mem_map_of_mem hplain, ?_⟩
    split
    · rw [DiffInputs.forced_nodeId, DiffInputs.changeFor_nodeId]
    · rw [DiffInputs.changeFor_nodeId]
  obtain ⟨change, hchange, hsame, -⟩ := diff_mem hfirst
  exact ⟨change, hchange, hsame.trans hnode⟩

/-- What the diff leaves alone is in both. -/
theorem diff_noop {change : Change} (hmem : change ∈ (diff inputs replace).changes)
    (hnoop : change.action = .noop) :
    change.nodeId ∈ inputs.desired.byId ∧ change.nodeId ∈ inputs.prior := by
  obtain ⟨first, hfirst, hnode, haction⟩ := mem_diff hmem
  rw [hnoop] at haction
  obtain ⟨want, row, hwant, hrow, -⟩ :=
    DiffInputs.firstPass_noop hfirst ((refine_noop_iff hfirst).mp haction.symm).1
  rw [hnode]
  exact ⟨inputs.mem_of_wanted hwant, StateGraph.mem_of_row hrow⟩

/-- The pass that settles create-before-destroy drops no change. -/
theorem resolveCbd_mem {changeset resolved : ChangeSet} {types : Types}
    {mutability : TypeMutability} {forcers : String → List String} {downgraded : List String}
    (hok : resolveCbd changeset types mutability forcers = .ok (resolved, downgraded))
    {before : Change} (hmem : before ∈ changeset.changes) :
    ∃ change ∈ resolved.changes, change.nodeId = before.nodeId := by
  unfold resolveCbd at hok
  dsimp only at hok
  split at hok
  next =>
    cases hok
    refine ⟨_, List.mem_map_of_mem hmem, ?_⟩
    split <;> rfl
  next => cases hok

end

namespace Planner

variable {planner : Planner} {compiled : Compiled} {prior : StateGraph}
  {stackOutputs : Dict String Value} {selected : Option (List String)} {replace : List String}
  {plan : Plan}

/-- The passes a changeset went through to be a plan's. -/
theorem build_stages
    (hplan : planner.build compiled prior stackOutputs selected replace = .ok plan) :
    ∃ (verdicts : ConsumedRefs) (audit : SecretAudit) (resolved : ChangeSet)
      (downgraded : List String),
      consumed planner.codec compiled.ir prior planner.secrets = .ok verdicts ∧
      auditSecrets (planner.raw compiled prior verdicts selected replace) prior
        planner.secrets = .ok audit ∧
      resolveCbd (audit.appliedTo (planner.raw compiled prior verdicts selected replace)
        planner.mutability (effectiveCbd compiled.ir)) planner.types planner.mutability
        (cbdForcers compiled.ir) = .ok (resolved, downgraded) ∧
      plan.changeset = behindDestroyFirst resolved planner.mutability := by
  obtain ⟨verdicts, hverdicts, hplan⟩ := bind_eq_ok hplan
  obtain ⟨checked, hchecked, hplan⟩ := bind_eq_ok hplan
  obtain rfl : checked = planner.raw compiled prior verdicts selected replace := by
    have hguard := mapError_eq_ok hchecked
    unfold checkPreventDestroy at hguard
    dsimp only at hguard
    split at hguard
    · exact (Except.ok.inj hguard).symm
    · cases hguard
  obtain ⟨audit, haudit, hplan⟩ := bind_eq_ok hplan
  obtain ⟨opened, hopened, hplan⟩ := bind_eq_ok hplan
  obtain ⟨found, hfound, hplan⟩ := bind_eq_ok hplan
  obtain ⟨⟨resolved, downgraded⟩, hresolved, hplan⟩ := bind_eq_ok hplan
  obtain ⟨violations, -, hplan⟩ := bind_eq_ok hplan
  cases hplan
  obtain ⟨rfl, -⟩ := looked_of_required hopened hfound
  exact ⟨verdicts, audit, resolved, downgraded, raised_eq_ok hverdicts, mapError_eq_ok haudit,
    mapError_eq_ok hresolved, rfl⟩

/-- The passes after the audit change no change's node, declaration, row or action, and drop none. -/
theorem build_passes
    (hplan : planner.build compiled prior stackOutputs selected replace = .ok plan) :
    ∃ (verdicts : ConsumedRefs) (audit : SecretAudit) (audited : ChangeSet),
      audited = audit.appliedTo (planner.raw compiled prior verdicts selected replace)
        planner.mutability (effectiveCbd compiled.ir) ∧
      (∀ change ∈ plan.changeset.changes, ∃ before ∈ audited.changes, change.Agrees before) ∧
      ∀ before ∈ audited.changes, ∃ change ∈ plan.changeset.changes,
        change.nodeId = before.nodeId := by
  obtain ⟨verdicts, audit, resolved, downgraded, -, -, hresolved, hchanges⟩ := build_stages hplan
  refine ⟨verdicts, audit, _, rfl, fun change hmem => ?_, fun before hmem => ?_⟩
  · rw [hchanges] at hmem
    obtain ⟨middle, hmiddle, hfirst⟩ := agrees_behindDestroyFirst hmem
    obtain ⟨before, hbefore, hsecond⟩ := agrees_resolveCbd hresolved hmiddle
    exact ⟨before, hbefore, hfirst.trans hsecond⟩
  · obtain ⟨middle, hmiddle, hfirst⟩ := resolveCbd_mem hresolved hmem
    obtain ⟨change, hchange, hnode, -⟩ := behindDestroyFirst_mem planner.mutability hmiddle
    rw [hchanges]
    exact ⟨change, hchange, hnode.trans hfirst⟩

/-- **A plan of the whole config has a change for every node.** -/
theorem build_covers
    (hplan : planner.build compiled prior stackOutputs none replace = .ok plan) {nodeId : String}
    (hmem : nodeId ∈ compiled.ir.byId ∨ nodeId ∈ prior) :
    ∃ change ∈ plan.changeset.changes, change.nodeId = nodeId := by
  obtain ⟨verdicts, audit, audited, rfl, -, hkept⟩ := build_passes hplan
  obtain ⟨first, hfirst, hnode⟩ : ∃ first ∈
      (planner.raw compiled prior verdicts none replace).changes, first.nodeId = nodeId :=
    diff_covers hmem
  obtain ⟨before, hbefore, hsame, -⟩ :=
    @SecretAudit.appliedTo_mem audit _ planner.mutability (effectiveCbd compiled.ir) _ hfirst
  obtain ⟨change, hchange, hlast⟩ := hkept before hbefore
  exact ⟨change, hchange, hlast.trans (hsame.trans hnode)⟩

/-- **What a plan of the whole config leaves alone is declared and recorded.** -/
theorem build_noop
    (hplan : planner.build compiled prior stackOutputs none replace = .ok plan) {change : Change}
    (hmem : change ∈ plan.changeset.changes) (hnoop : change.action = .noop) :
    change.nodeId ∈ compiled.ir.byId ∧ change.nodeId ∈ prior := by
  obtain ⟨verdicts, audit, audited, rfl, hagrees, -⟩ := build_passes hplan
  obtain ⟨before, hbefore, hsame⟩ := hagrees change hmem
  obtain ⟨first, hfirst, hnode, haction⟩ := SecretAudit.mem_appliedTo hbefore
  rw [← hsame.action, hnoop] at haction
  rw [hsame.nodeId, hnode]
  exact diff_noop hfirst (SecretAudit.audited_noop.mp haction.symm).1

/-! ## Plans of a selection -/

end Planner

/-- Outside the selection every change is one with nothing to do. -/
def ChangeSet.IdleOutside (selected : List String) (changeset : ChangeSet) : Prop :=
  ∀ change ∈ changeset.changes, change.nodeId ∉ selected →
    change = { nodeId := change.nodeId, action := .noop }

namespace ChangeSet.IdleOutside

variable {changeset : ChangeSet} {selected : List String}

theorem restrict (changeset : ChangeSet) (selected : List String) :
    (restrict changeset selected).IdleOutside selected := by
  intro change hmem houtside
  obtain ⟨before, -, rfl⟩ := List.mem_map.mp hmem
  split at houtside
  next hselected => exact (houtside hselected).elim
  next hunselected => rw [if_neg hunselected]

/-- A pass that keeps each change's node, and a change with nothing to do as it is. -/
theorem map (hidle : changeset.IdleOutside selected) {pass : Change → Change}
    (hnode : ∀ change ∈ changeset.changes, (pass change).nodeId = change.nodeId)
    (hpass : ∀ change ∈ changeset.changes, change.nodeId ∉ selected →
      change = { nodeId := change.nodeId, action := .noop } → pass change = change) :
    (changeset.map pass).IdleOutside selected := by
  intro change hmem houtside
  obtain ⟨before, hbefore, rfl⟩ := List.mem_map.mp hmem
  rw [hnode before hbefore] at houtside ⊢
  have hnone := hidle before hbefore houtside
  rw [hpass before hbefore houtside hnone]
  exact hnone

theorem behindDestroyFirst (hidle : changeset.IdleOutside selected)
    (mutability : TypeMutability) :
    (behindDestroyFirst changeset mutability).IdleOutside selected := by
  refine hidle.map (fun change _ => ?_) fun change _ _ hnone => ?_
  · split <;> rfl
  · rw [hnone]
    split <;> rfl

theorem resolveCbd (hidle : changeset.IdleOutside selected) {types : Types}
    {mutability : TypeMutability} {forcers : String → List String} {resolved : ChangeSet}
    {downgraded : List String}
    (hok : resolveCbd changeset types mutability forcers = .ok (resolved, downgraded)) :
    resolved.IdleOutside selected := by
  unfold Atlantide.resolveCbd at hok
  dsimp only at hok
  split at hok
  next =>
    cases hok
    refine hidle.map (fun change _ => ?_) fun change _ _ hnone => ?_
    · split <;> rfl
    · rw [hnone]
      split <;> rfl
  next => cases hok

/-- The audit finds nothing rotated where there is no declaration to look at. -/
theorem appliedTo (hidle : changeset.IdleOutside selected) {prior : StateGraph}
    {secrets : SecretsRegistry} {audit : SecretAudit}
    (haudit : auditSecrets changeset prior secrets = .ok audit) (mutability : TypeMutability)
    (cbd : List String) : (audit.appliedTo changeset mutability cbd).IdleOutside selected := by
  unfold SecretAudit.appliedTo
  split
  next => exact hidle
  next =>
    refine (hidle.map (fun change _ => SecretAudit.audited_nodeId change)
      fun change _ houtside hnone => ?_).behindDestroyFirst mutability
    rw [SecretAudit.audited, if_pos]
    by_contra hrotated
    obtain ⟨other, hother, hsame, hdeclared⟩ :=
      exists_of_rotated haudit fun hempty => hrotated (List.isEmpty_iff.mpr hempty)
    have hidle' := hidle other hother (hsame ▸ houtside)
    rw [hidle'] at hdeclared
    cases hdeclared

end ChangeSet.IdleOutside

namespace Planner

variable {planner : Planner} {compiled : Compiled} {prior : StateGraph}
  {stackOutputs : Dict String Value} {replace : List String} {plan : Plan}

/-- **A plan of a selection does nothing outside it.** -/
theorem build_selected {selected : List String}
    (hplan : planner.build compiled prior stackOutputs (some selected) replace = .ok plan) :
    plan.changeset.IdleOutside selected := by
  obtain ⟨verdicts, audit, resolved, downgraded, -, haudit, hresolved, hchanges⟩ :=
    build_stages hplan
  rw [hchanges]
  have hraw : (planner.raw compiled prior verdicts (some selected) replace).IdleOutside selected :=
    .restrict _ _
  have haudited := hraw.appliedTo haudit planner.mutability (effectiveCbd compiled.ir)
  exact (haudited.resolveCbd hresolved).behindDestroyFirst planner.mutability

end Planner

end Atlantide
