import Atlantide.Engine.SecretAudit
import Atlantide.Reconcile.Applied
import Atlantide.Reconcile.Guards
import Atlantide.Reconcile.Planned
import Atlantide.Reconcile.PlainData

/-! # Plan refinement

A plan is the diff of a config over the prior state, narrowed to the selection, judged by the
`prevent_destroy` guard, with rotated secrets re-applied, its handles looked up, and its
create-before-destroy REPLACEs settled. -/

namespace Atlantide

open Fallible

/-- An evaluated config: its lowered nodes, and each node's resource with its handles live. -/
structure Compiled where
  ir : IRGraph
  hashes : String → String
  resources : Dict String (Dict String Input)
  /-- A node's properties are its resource's inputs, lowered. -/
  lowered : ∀ (nodeId : String) (node : IRNode), ir.byId[nodeId]? = some node →
    node.properties = canonicalInputs (resources.getD nodeId ∅)

/-- Why there is no plan. -/
inductive PlanFault
  | engine (fault : Fault)
  | preventDestroy (nodeIds : List String)
  | undefinedSecrets (uses : List (String × String × SecretRef))
  | undefinedStackOutputs (uses : List (String × String × String))
  /-- The colliding nodes, each with the create-before-destroy nodes that depend on it. -/
  | createBeforeDestroy (conflicts : List (String × List String))

/-- What a plan warns of. -/
inductive PlanNote
  /-- The guard's verdict on the node waits for the apply. -/
  | deferred (nodeId : String)
  /-- Every secret in state reads as rotated. -/
  | foreignKeyfile (resources : Nat)
  | destroyBeforeCreate (nodeId : String)

structure Plan where
  changeset : ChangeSet
  violations : List String
  warnings : List PlanNote

/-- A table of a node's properties, from the config or, for a DELETE, from state. -/
def Change.properties (change : Change) : Dict String Value :=
  match change.desired, change.prior with
  | some node, _ => node.properties
  | none, some row => row.properties
  | none, none => ∅

/-- Every property of the nodes a provider is called for. -/
def actionableFields (changeset : ChangeSet) : List (Change × String × Value) :=
  changeset.actionable.flatMap fun change =>
    change.properties.toList.map fun entry => (change, entry.1, entry.2)

/-- The registries a plan is made with. -/
structure Planner where
  codec : Codec
  types : Types
  mutability : TypeMutability
  secrets : SecretsRegistry
  /-- The violations the policies find in a changeset. -/
  policies : ChangeSet → Except Fault (List String)

namespace Planner

variable (planner : Planner)

/-- The properties that are a handle for a stack output not yet committed. -/
def missingStackOutputs (changeset : ChangeSet) (stackOutputs : Dict String Value) :
    List (String × String × String) :=
  (actionableFields changeset).filterMap fun (change, name, value) =>
    match value.stackOutputFromMarker with
    | some key => if key ∈ stackOutputs then none else some (change.nodeId, name, key)
    | none => none

def requireStackOutputs (changeset : ChangeSet) (stackOutputs : Dict String Value) :
    Except PlanFault ChangeSet :=
  let missing := missingStackOutputs changeset stackOutputs
  if missing.isEmpty then .ok changeset else .error (.undefinedStackOutputs missing)

/-- The properties that are a handle for a secret that does not resolve. -/
def missingSecrets (changeset : ChangeSet) : List (String × String × SecretRef) :=
  (actionableFields changeset).filterMap fun (change, name, value) =>
    match value.secretRefFromMarker with
    | some ref => if (planner.secrets.resolve ref).isOk then none else some (change.nodeId, name, ref)
    | none => none

def requireSecrets (changeset : ChangeSet) : Except PlanFault ChangeSet :=
  let missing := planner.missingSecrets changeset
  if missing.isEmpty then .ok changeset else .error (.undefinedSecrets missing)

/-- A component's fault as the plan's. -/
def raised {α : Type} (result : Except Fault α) : Except PlanFault α :=
  result.mapError PlanFault.engine

def finalize (compiled : Compiled) (notes : List PlanNote) (changeset : ChangeSet) :
    Except PlanFault Plan := do
  let (resolved, downgraded) ←
    (resolveCbd changeset planner.types planner.mutability (cbdForcers compiled.ir)).mapError
      PlanFault.createBeforeDestroy
  let settled := behindDestroyFirst resolved planner.mutability
  let violations ← raised (planner.policies settled)
  .ok ⟨settled, violations, notes ++ downgraded.map .destroyBeforeCreate⟩

/-- The passes after the diff: secrets, then references, then policy. -/
def refine (compiled : Compiled) (prior : StateGraph) (stackOutputs : Dict String Value)
    (notes : List PlanNote) (changeset : ChangeSet) : Except PlanFault Plan := do
  let audit ← raised (auditSecrets changeset prior planner.secrets)
  let warned := if audit.looksLikeAForeignKeyfile then
    [PlanNote.foreignKeyfile audit.mismatched.length] else []
  let opened ← planner.requireSecrets
    (audit.appliedTo changeset planner.mutability (effectiveCbd compiled.ir))
  let found ← requireStackOutputs opened stackOutputs
  planner.finalize compiled (notes ++ warned) found

/-- The diff, narrowed to the selection where there is one. -/
def raw (compiled : Compiled) (prior : StateGraph) (verdicts : ConsumedRefs)
    (selected : Option (List String)) (replace : List String) : ChangeSet :=
  let changes := diff
    { desired := compiled.ir, desiredHashes := compiled.hashes, prior := prior
      mutability := planner.mutability, verdicts := verdicts } replace
  match selected with
  | some nodeIds => restrict changes nodeIds
  | none => changes

/-- The plan of a compiled config over prior state. -/
def build (compiled : Compiled) (prior : StateGraph) (stackOutputs : Dict String Value)
    (selected : Option (List String)) (replace : List String) : Except PlanFault Plan := do
  let verdicts ← raised (consumed planner.codec compiled.ir prior planner.secrets)
  let changes := planner.raw compiled prior verdicts selected replace
  let guarded := protectedIds prior compiled.ir
  let checked ← (checkPreventDestroy changes guarded).mapError PlanFault.preventDestroy
  planner.refine compiled prior stackOutputs
    ((sortedSet (deferredToApply changes guarded)).map .deferred) checked

end Planner

/-! ## What the passes leave of a change -/

/-- A change that may still call a provider carries the node's own declaration, which only a DELETE
has none of, and its row. -/
def Change.Carries (desired : IRGraph) (prior : StateGraph) (change : Change) : Prop :=
  change.action ≠ .noop ∨ change.desired.isSome →
    change.desired = desired.byId[change.nodeId]? ∧ change.prior = prior[change.nodeId]? ∧
      (change.desired = none ↔ change.action = .delete)

def ChangeSet.Carries (changeset : ChangeSet) (desired : IRGraph) (prior : StateGraph) : Prop :=
  ∀ change ∈ changeset.changes, change.Carries desired prior

/-- Two changes that are about the same node, with the same declaration, row and action. -/
structure Change.Agrees (change other : Change) : Prop where
  nodeId : change.nodeId = other.nodeId
  action : change.action = other.action
  desired : change.desired = other.desired
  prior : change.prior = other.prior

section

variable {desired : IRGraph} {prior : StateGraph} {change other : Change}

theorem Change.Agrees.refl (change : Change) : change.Agrees change := ⟨rfl, rfl, rfl, rfl⟩

theorem Change.Agrees.trans {third : Change} (hfirst : change.Agrees other)
    (hsecond : other.Agrees third) : change.Agrees third :=
  ⟨hfirst.nodeId.trans hsecond.nodeId, hfirst.action.trans hsecond.action,
    hfirst.desired.trans hsecond.desired, hfirst.prior.trans hsecond.prior⟩

theorem Change.Carries.of_agrees (hcarries : other.Carries desired prior)
    (hagrees : change.Agrees other) : change.Carries desired prior := by
  intro hacts
  rw [hagrees.action, hagrees.desired] at hacts
  rw [hagrees.desired, hagrees.prior, hagrees.nodeId, hagrees.action]
  exact hcarries hacts

theorem Change.Agrees.properties (hagrees : change.Agrees other) :
    change.properties = other.properties := by
  rw [Change.properties, Change.properties, hagrees.desired, hagrees.prior]

theorem agrees_behindDestroyFirst {changeset : ChangeSet} {mutability : TypeMutability}
    (hmem : change ∈ (behindDestroyFirst changeset mutability).changes) :
    ∃ before ∈ changeset.changes, change.Agrees before := by
  obtain ⟨before, hbefore, rfl⟩ := List.mem_map.mp hmem
  refine ⟨before, hbefore, ?_⟩
  split
  · exact ⟨rfl, rfl, rfl, rfl⟩
  · exact .refl before

theorem agrees_createFirst (change : Change) (cbd : List String) :
    (createFirst change cbd).Agrees change := by
  unfold createFirst
  split
  · exact ⟨rfl, rfl, rfl, rfl⟩
  · exact .refl change

theorem agrees_resolveCbd {changeset resolved : ChangeSet} {types : Types}
    {mutability : TypeMutability} {forcers : String → List String} {downgraded : List String}
    (hok : resolveCbd changeset types mutability forcers = .ok (resolved, downgraded))
    (hmem : change ∈ resolved.changes) : ∃ before ∈ changeset.changes, change.Agrees before := by
  unfold resolveCbd at hok
  dsimp only at hok
  split at hok
  next =>
    cases hok
    obtain ⟨before, hbefore, rfl⟩ := List.mem_map.mp hmem
    refine ⟨before, hbefore, ?_⟩
    split
    · exact ⟨rfl, rfl, rfl, rfl⟩
    · exact .refl before
  next => cases hok

section

variable {inputs : DiffInputs}

theorem DiffInputs.classify_carries {nodeId : String} {want : IRNode} {row : StateNode}
    (hwant : inputs.wanted nodeId = some want) (hrow : inputs.prior[nodeId]? = some row)
    (moved : List String) :
    (inputs.classify want row moved).Carries inputs.desired inputs.prior := by
  obtain rfl : want.id = nodeId := IRGraph.byId_id hwant
  intro _
  refine ⟨?_, ?_, ?_⟩
  · rw [classify, classifyNode_desired, classifyNode_nodeId]
    exact hwant.symm
  · rw [classify, classifyNode_prior, classifyNode_nodeId]
    exact hrow.symm
  · constructor
    · intro hnone
      rw [classify, classifyNode_desired] at hnone
      cases hnone
    · intro hdelete
      rcases inputs.classify_action want row moved with haction | haction
      · rw [haction] at hdelete
        cases hdelete
      · rw [haction] at hdelete
        cases hdelete

theorem DiffInputs.changeFor_carries (nodeId : String) :
    (inputs.changeFor nodeId).Carries inputs.desired inputs.prior := by
  unfold changeFor
  split
  next hnone => exact fun _ => ⟨hnone.symm, rfl, fun _ => rfl, fun _ => rfl⟩
  next want hwant hnone => exact fun _ => ⟨hwant.symm, hnone.symm, nofun, nofun⟩
  next want row hwant hrow =>
    split_ifs
    · exact fun _ => ⟨hwant.symm, hrow.symm, nofun, nofun⟩
    · exact DiffInputs.classify_carries hwant hrow _
    · exact fun _ => ⟨hwant.symm, hrow.symm, nofun, nofun⟩
    · exact DiffInputs.classify_carries hwant hrow _

theorem Change.Carries.forced (hcarries : change.Carries desired prior) :
    (forced change).Carries desired prior := by
  unfold Atlantide.forced
  split
  next => exact hcarries
  next => exact hcarries
  next => exact hcarries
  next => exact hcarries
  next node row hdesired hprior _ _ =>
    intro _
    have hboth := hcarries (.inr (by rw [hdesired]; rfl))
    rw [hdesired, hprior] at hboth
    exact ⟨hboth.1, hboth.2.1, nofun, nofun⟩

theorem DiffInputs.refine_carries (stale moved : List String)
    (hcarries : change.Carries inputs.desired inputs.prior) :
    (inputs.refine stale moved change).Carries inputs.desired inputs.prior := by
  unfold refine
  split
  next want row hwant hrow =>
    split
    · split
      · exact DiffInputs.classify_carries hwant hrow _
      · exact hcarries
    · split
      · exact hcarries
      · exact DiffInputs.classify_carries hwant hrow _
    · split
      · exact hcarries
      · exact DiffInputs.classify_carries hwant hrow _
    · exact hcarries
  next => exact hcarries

/-- The diff's changes carry what they are about. -/
theorem diff_carries (inputs : DiffInputs) (replace : List String) :
    (diff inputs replace).Carries inputs.desired inputs.prior := by
  intro change hmem
  obtain ⟨ordered, hordered, hagrees⟩ := agrees_behindDestroyFirst hmem
  refine Change.Carries.of_agrees ?_ hagrees
  obtain ⟨first, hfirst, rfl⟩ := List.mem_map.mp hordered
  have hcarries : first.Carries inputs.desired inputs.prior := by
    obtain ⟨plain, hplain, rfl⟩ := List.mem_map.mp hfirst
    obtain ⟨nodeId, -, rfl⟩ := List.mem_map.mp hplain
    split
    · exact (inputs.changeFor_carries nodeId).forced
    · exact inputs.changeFor_carries nodeId
  exact (inputs.refine_carries _ _ hcarries).of_agrees (agrees_createFirst _ _)

end

theorem restrict_carries {changeset : ChangeSet} (hcarries : changeset.Carries desired prior)
    (selected : List String) : (restrict changeset selected).Carries desired prior := by
  intro change hmem
  obtain ⟨before, hbefore, rfl⟩ := List.mem_map.mp hmem
  split
  · exact hcarries before hbefore
  · rintro (hacts | hdesired)
    · exact absurd rfl hacts
    · cases hdesired

/-- What one change adds to the audit. -/
theorem fieldsOf_audited {secrets : SecretsRegistry} {before after : SecretAudit} {change : Change}
    {nodeId : String} (hbefore : before.fieldsOf nodeId = [])
    (hmade : (match change.action, change.desired, prior[change.nodeId]? with
      | .noop, some desired, some row => do
        let (fields, matched, mismatched) ← auditNode desired row secrets
        return { rotated := if fields.isEmpty then before.rotated
                   else before.rotated.insert change.nodeId fields
                 matched := before.matched + matched
                 mismatched := if mismatched then sortedSet (change.nodeId :: before.mismatched)
                   else before.mismatched }
      | _, _, _ => return before : Except Fault SecretAudit) = .ok after) (hfields : after.fieldsOf nodeId ≠ []) :
    change.nodeId = nodeId ∧ change.action = .noop ∧
      ∃ desired row found, change.desired = some desired ∧ prior[nodeId]? = some row ∧
        auditNode desired row secrets = .ok found ∧ found.1 ≠ [] := by
  split at hmade
  next desired row hnoop hdesired hrow =>
    obtain ⟨⟨fields, matched, mismatched⟩, haudited, hmade⟩ := bind_eq_ok hmade
    cases hmade
    rw [SecretAudit.fieldsOf] at hfields
    dsimp only at hfields
    split at hfields
    · exact absurd hbefore hfields
    next hsome =>
      by_cases hnode : change.nodeId = nodeId
      · exact ⟨hnode, hnoop, desired, row, _, hdesired, hnode ▸ hrow, haudited,
          fun hempty => hsome (List.isEmpty_iff.mpr hempty)⟩
      · rw [Std.ExtTreeMap.getD_insert,
          if_neg fun heq => hnode (Std.LawfulEqCmp.eq_of_compare heq)] at hfields
        exact absurd hbefore hfields
  next =>
    cases hmade
    exact absurd hbefore hfields

/-- What is found to have rotated is an unchanged node the config declares, audited. -/
theorem audited_of_rotated {changeset : ChangeSet} {secrets : SecretsRegistry} {audit : SecretAudit}
    (hok : auditSecrets changeset prior secrets = .ok audit) {nodeId : String}
    (hfields : audit.fieldsOf nodeId ≠ []) :
    ∃ change ∈ changeset.changes, change.nodeId = nodeId ∧ change.action = .noop ∧
      ∃ desired row found, change.desired = some desired ∧ prior[nodeId]? = some row ∧
        auditNode desired row secrets = .ok found ∧ found.1 ≠ [] := by
  unfold auditSecrets at hok
  generalize hstart : (.ok ⟨∅, 0, []⟩ : Except Fault SecretAudit) = start at hok
  have hclear : ∀ found, start = .ok found → found.fieldsOf nodeId = [] := by
    intro found hfound
    rw [← hstart] at hfound
    cases hfound
    rfl
  clear hstart
  generalize changeset.changes = changes at hok ⊢
  induction changes generalizing start with
  | nil => exact absurd (hclear audit hok) hfields
  | cons change changes ih =>
    rw [List.foldl_cons] at hok
    by_cases hhere : change.nodeId = nodeId ∧ change.action = .noop ∧
        ∃ desired row found, change.desired = some desired ∧ prior[nodeId]? = some row ∧
          auditNode desired row secrets = .ok found ∧ found.1 ≠ []
    · exact ⟨change, List.mem_cons_self .., hhere⟩
    · refine (ih _ (fun found hfound => ?_) hok).imp fun later hlater =>
        ⟨List.mem_cons_of_mem _ hlater.1, hlater.2⟩
      obtain ⟨before, hbefore, hmade⟩ := bind_eq_ok hfound
      by_contra hsome
      exact hhere (fieldsOf_audited (hclear before hbefore) hmade hsome)

/-- Only a node the config declares is found to have rotated. -/
theorem exists_of_rotated {changeset : ChangeSet} {secrets : SecretsRegistry} {audit : SecretAudit}
    (hok : auditSecrets changeset prior secrets = .ok audit) {nodeId : String}
    (hfields : audit.fieldsOf nodeId ≠ []) :
    ∃ change ∈ changeset.changes, change.nodeId = nodeId ∧ change.desired.isSome := by
  obtain ⟨change, hmem, hnode, -, desired, -, -, hdesired, -⟩ := audited_of_rotated hok hfields
  exact ⟨change, hmem, hnode, by rw [hdesired]; rfl⟩

theorem appliedTo_carries {changeset : ChangeSet} {secrets : SecretsRegistry} {audit : SecretAudit}
    {mutability : TypeMutability} {cbd : List String}
    (hcarries : changeset.Carries desired prior)
    (hdistinct : (changeset.changes.map (·.nodeId)).Nodup)
    (hok : auditSecrets changeset prior secrets = .ok audit) :
    (audit.appliedTo changeset mutability cbd).Carries desired prior := by
  intro change hmem
  unfold SecretAudit.appliedTo at hmem
  split at hmem
  next => exact hcarries change hmem
  next =>
    obtain ⟨upgraded, hupgraded, hagrees⟩ := agrees_behindDestroyFirst hmem
    refine Change.Carries.of_agrees ?_ hagrees
    obtain ⟨before, hbefore, rfl⟩ := List.mem_map.mp hupgraded
    split
    next => exact hcarries before hbefore
    next hrotated =>
      obtain ⟨audited, haudited, hsame, hsome⟩ :=
        exists_of_rotated hok fun hnone => hrotated (List.isEmpty_iff.mpr hnone)
      obtain rfl : audited = before := List.inj_on_of_nodup_map hdistinct haudited hbefore hsame
      obtain ⟨hdesired, hprior, -⟩ := hcarries audited hbefore (.inr hsome)
      have hdeclared : audited.desired ≠ none := Option.isSome_iff_ne_none.mp hsome
      unfold SecretAudit.upgraded
      split <;> exact fun _ => ⟨hdesired, hprior, fun hnone => absurd hnone hdeclared, nofun⟩

end

namespace Planner

variable {planner : Planner} {compiled : Compiled} {prior : StateGraph}
  {stackOutputs : Dict String Value}

/-- Every top-level handle of a change's properties is there to be resolved. -/
structure Looked (planner : Planner) (stackOutputs : Dict String Value) (change : Change) :
    Prop where
  secrets : ∀ (name : String) (value : Value), change.properties[name]? = some value →
    ∀ ref, value.secretRefFromMarker = some ref → (planner.secrets.resolve ref).isOk
  outputs : ∀ (name : String) (value : Value), change.properties[name]? = some value →
    ∀ key, value.stackOutputFromMarker = some key → key ∈ stackOutputs

theorem mem_actionableFields {changeset : ChangeSet} {change : Change}
    (hmem : change ∈ changeset.changes) (hacts : change.action ≠ .noop) {name : String}
    {value : Value} (hvalue : change.properties[name]? = some value) :
    (change, name, value) ∈ actionableFields changeset := by
  refine List.mem_flatMap.mpr ⟨change, List.mem_filter.mpr ⟨hmem, decide_eq_true hacts⟩, ?_⟩
  exact List.mem_map.mpr ⟨(name, value),
    Std.ExtTreeMap.mem_toList_iff_getElem?_eq_some.mpr hvalue, rfl⟩

theorem looked_of_required {changeset opened found : ChangeSet}
    (hsecrets : planner.requireSecrets changeset = .ok opened)
    (houtputs : requireStackOutputs opened stackOutputs = .ok found) :
    found = changeset ∧ ∀ change ∈ changeset.changes, change.action ≠ .noop →
      planner.Looked stackOutputs change := by
  unfold requireSecrets at hsecrets
  unfold requireStackOutputs at houtputs
  dsimp only at hsecrets houtputs
  split at hsecrets
  next hnosecret =>
    cases hsecrets
    split at houtputs
    next hnooutput =>
      cases houtputs
      refine ⟨rfl, fun change hmem hacts => ⟨fun name value hvalue ref href => ?_,
        fun name value hvalue key hkey => ?_⟩⟩
      · by_contra hfails
        have hmissing : (change.nodeId, name, ref) ∈ planner.missingSecrets changeset := by
          refine List.mem_filterMap.mpr ⟨_, mem_actionableFields hmem hacts hvalue, ?_⟩
          dsimp only
          rw [href]
          exact if_neg hfails
        rw [List.isEmpty_iff.mp hnosecret] at hmissing
        cases hmissing
      · by_contra hfails
        have hmissing : (change.nodeId, name, key) ∈ missingStackOutputs changeset stackOutputs := by
          refine List.mem_filterMap.mpr ⟨_, mem_actionableFields hmem hacts hvalue, ?_⟩
          dsimp only
          rw [hkey]
          exact if_neg hfails
        rw [List.isEmpty_iff.mp hnooutput] at hmissing
        cases hmissing
    next => cases houtputs
  next => cases hsecrets

theorem raised_eq_ok {α : Type} {result : Except Fault α} {found : α}
    (hok : raised result = .ok found) : result = .ok found := mapError_eq_ok hok

theorem raw_carries (verdicts : ConsumedRefs) (selected : Option (List String))
    (replace : List String) :
    (planner.raw compiled prior verdicts selected replace).Carries compiled.ir prior := by
  unfold raw
  cases selected with
  | some nodeIds => exact restrict_carries (diff_carries _ replace) nodeIds
  | none => exact diff_carries _ replace

theorem raw_planned (verdicts : ConsumedRefs) (selected : Option (List String))
    (replace : List String) :
    (planner.raw compiled prior verdicts selected replace).Planned compiled.ir prior := by
  unfold raw
  cases selected with
  | some nodeIds => exact (diff_planned _ replace).restrict nodeIds
  | none => exact diff_planned _ replace

/-- **What a plan promises of its changes.** Each carries its node's own declaration and row, and the
top-level handles it was looked up by resolve. -/
theorem build_carries {plan : Plan} {selected : Option (List String)} {replace : List String}
    (hplan : planner.build compiled prior stackOutputs selected replace = .ok plan) :
    plan.changeset.Carries compiled.ir prior ∧
      ∀ change ∈ plan.changeset.changes, change.action ≠ .noop →
        planner.Looked stackOutputs change := by
  obtain ⟨verdicts, -, hplan⟩ := bind_eq_ok hplan
  obtain ⟨checked, hchecked, hplan⟩ := bind_eq_ok hplan
  obtain rfl : checked = planner.raw compiled prior verdicts selected replace := by
    have hguard := mapError_eq_ok hchecked
    unfold checkPreventDestroy at hguard
    dsimp only at hguard
    split at hguard
    · exact (Except.ok.inj hguard).symm
    · cases hguard
  obtain ⟨audit, haudit, hplan⟩ := bind_eq_ok hplan
  obtain ⟨opened, hopened, hplan⟩ := bind_eq_ok hplan
  obtain ⟨found, hfound, hplan⟩ := bind_eq_ok hplan
  obtain ⟨⟨resolved, downgraded⟩, hresolved, hplan⟩ := bind_eq_ok hplan
  obtain ⟨violations, -, hplan⟩ := bind_eq_ok hplan
  cases hplan
  obtain ⟨rfl, hlooked⟩ := looked_of_required hopened hfound
  have hcarries : (audit.appliedTo (planner.raw compiled prior verdicts selected replace)
      planner.mutability (effectiveCbd compiled.ir)).Carries compiled.ir prior :=
    appliedTo_carries (raw_carries verdicts selected replace)
      (raw_planned verdicts selected replace).distinct (raised_eq_ok haudit)
  have hsame : ∀ change ∈ (behindDestroyFirst resolved planner.mutability).changes,
      ∃ before ∈ (audit.appliedTo (planner.raw compiled prior verdicts selected replace)
        planner.mutability (effectiveCbd compiled.ir)).changes, change.Agrees before := by
    intro change hmem
    obtain ⟨middle, hmiddle, hfirst⟩ := agrees_behindDestroyFirst hmem
    obtain ⟨before, hbefore, hsecond⟩ := agrees_resolveCbd (mapError_eq_ok hresolved) hmiddle
    exact ⟨before, hbefore, hfirst.trans hsecond⟩
  refine ⟨fun change hmem => ?_, fun change hmem hacts => ?_⟩
  · obtain ⟨before, hbefore, hagrees⟩ := hsame change hmem
    exact (hcarries before hbefore).of_agrees hagrees
  · obtain ⟨before, hbefore, hagrees⟩ := hsame change hmem
    rw [hagrees.action] at hacts
    have hbeforeLooked := hlooked before hbefore hacts
    exact ⟨hagrees.properties ▸ hbeforeLooked.secrets, hagrees.properties ▸ hbeforeLooked.outputs⟩

end Planner

end Atlantide
