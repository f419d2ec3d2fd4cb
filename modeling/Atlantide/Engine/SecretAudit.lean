import Atlantide.Reconcile.Resolve
import Atlantide.Reconcile.Staleness

/-! # Rotated secrets

The config holds handles, so a rotated secret is invisible to the diff: the audit compares every
unchanged node's live secrets with the digests stored in state, and makes the rotated ones
re-applies. -/

namespace Atlantide

structure SecretAudit where
  /-- The fields whose value does not match the stored digest, by node. -/
  rotated : Dict String (List String)
  matched : Nat
  /-- The nodes with a stored digest that did not match. -/
  mismatched : List String

namespace SecretAudit

/-- Whether the misses are better explained by the wrong key than by rotations. -/
def looksLikeAForeignKeyfile (audit : SecretAudit) : Bool :=
  audit.matched = 0 && 2 ≤ audit.mismatched.length

/-- Whether one of the fields can only be taken by a new resource. -/
def rotatesImmutable (change : Change) (fields : List String) (mutability : TypeMutability) :
    Bool :=
  change.desired.any fun desired =>
    fields.any fun field => mutability desired.type field = some .immutable

/-- A change with the given rotated fields re-applied. -/
def upgraded (change : Change) (fields : List String) (mutability : TypeMutability)
    (cbd : List String) : Change :=
  if rotatesImmutable change fields mutability then
    { change with action := .replace, changedFields := fields
                  createBeforeDestroy := change.nodeId ∈ cbd, stateOnly := false }
  else { change with action := .update, changedFields := fields, stateOnly := false }

/-- The rotated fields of a node, none if it did not rotate. -/
def fieldsOf (audit : SecretAudit) (nodeId : String) : List String :=
  audit.rotated.getD nodeId []

/-- Upgrades each NOOP whose secret rotated to a re-apply of those fields. -/
def appliedTo (audit : SecretAudit) (changeset : ChangeSet) (mutability : TypeMutability)
    (cbd : List String) : ChangeSet :=
  if audit.rotated.isEmpty then changeset
  else
    let upgradedSet := changeset.map fun change =>
      if (audit.fieldsOf change.nodeId).isEmpty then change
      else upgraded change (audit.fieldsOf change.nodeId) mutability cbd
    behindDestroyFirst upgradedSet mutability

end SecretAudit

/-- One unchanged node's rotated fields, digests matched, and whether a stored digest missed. -/
def auditNode (desired : IRNode) (row : StateNode) (secrets : SecretsRegistry) :
    Except Fault (List String × Nat × Bool) :=
  desired.properties.foldl (fun audit name value => do
    let (fields, matched, mismatched) ← audit
    match value.secretRefFromMarker with
    | none => return (fields, matched, mismatched)
    | some ref =>
      match secrets.resolve ref with
      -- Best-effort: a handle this install cannot resolve is left to the apply.
      | .error _ => return (fields, matched, mismatched)
      | .ok plaintext =>
        let stored := row.secretDigests[name]?
        if ← secrets.digestMatches (fieldScope desired.id name) plaintext stored then
          return (fields, matched + 1, mismatched)
        else return (fields ++ [name], matched, mismatched || stored.isSome)) (.ok ([], 0, false))

/-- Compares every unchanged node's secrets against its stored digests. -/
def auditSecrets (changeset : ChangeSet) (prior : StateGraph) (secrets : SecretsRegistry) :
    Except Fault SecretAudit :=
  changeset.changes.foldl (fun audit change => do
    let found ← audit
    match change.action, change.desired, prior[change.nodeId]? with
    | .noop, some desired, some row =>
      let (fields, matched, mismatched) ← auditNode desired row secrets
      return { rotated := if fields.isEmpty then found.rotated
                 else found.rotated.insert change.nodeId fields
               matched := found.matched + matched
               mismatched := if mismatched then sortedSet (change.nodeId :: found.mismatched)
                 else found.mismatched }
    | _, _, _ => return found) (.ok ⟨∅, 0, []⟩)

/-! ## Recreation by rotation -/

namespace SecretAudit

section

variable {audit : SecretAudit} {changeset : ChangeSet} {mutability : TypeMutability}
  {cbd : List String}

/-- A secret the node can only take by being created again rotated. -/
def Recreates (audit : SecretAudit) (mutability : TypeMutability) (change : Change) : Prop :=
  rotatesImmutable change (audit.fieldsOf change.nodeId) mutability

/-- What the audit makes of one change. -/
def audited (audit : SecretAudit) (mutability : TypeMutability) (cbd : List String)
    (change : Change) : Change :=
  if (audit.fieldsOf change.nodeId).isEmpty then change
  else upgraded change (audit.fieldsOf change.nodeId) mutability cbd

theorem audited_nodeId (change : Change) :
    (audit.audited mutability cbd change).nodeId = change.nodeId := by
  unfold audited upgraded
  split_ifs <;> rfl

theorem audited_noop {change : Change} :
    (audit.audited mutability cbd change).action = .noop ↔
      change.action = .noop ∧ audit.fieldsOf change.nodeId = [] := by
  unfold audited upgraded
  by_cases hnone : audit.fieldsOf change.nodeId = []
  · simp [hnone]
  · rw [if_neg (by simpa using hnone)]
    split_ifs <;> simp [hnone]

theorem audited_recreated {change : Change} (hfields : audit.fieldsOf change.nodeId ≠ []) :
    reidentifying (audit.audited mutability cbd change).action ↔
      audit.Recreates mutability change := by
  unfold audited upgraded Recreates
  rw [if_neg (by simpa using hfields)]
  split_ifs with himmutable <;> simp [himmutable, reidentifying]

theorem fieldsOf_empty (hempty : audit.rotated.isEmpty) (nodeId : String) :
    audit.fieldsOf nodeId = [] := by
  rw [fieldsOf, Std.ExtTreeMap.isEmpty_iff.mp hempty, Std.ExtTreeMap.getD_empty]

/-- The audit's changes are the audited ones, their order settled anew. -/
theorem mem_appliedTo {change : Change}
    (hmem : change ∈ (audit.appliedTo changeset mutability cbd).changes) :
    ∃ before ∈ changeset.changes, change.nodeId = before.nodeId ∧
      change.action = (audit.audited mutability cbd before).action := by
  unfold appliedTo at hmem
  split at hmem
  next hempty =>
    refine ⟨change, hmem, rfl, ?_⟩
    rw [audited, fieldsOf_empty hempty, List.isEmpty_nil, if_pos rfl]
  next =>
    obtain ⟨middle, hmiddle, hnode, haction⟩ := mem_behindDestroyFirst hmem
    obtain ⟨before, hbefore, rfl⟩ := List.mem_map.mp hmiddle
    exact ⟨before, hbefore, hnode.trans (audited_nodeId before), haction⟩

theorem appliedTo_mem {before : Change} (hmem : before ∈ changeset.changes) :
    ∃ change ∈ (audit.appliedTo changeset mutability cbd).changes,
      change.nodeId = before.nodeId ∧
        change.action = (audit.audited mutability cbd before).action := by
  unfold appliedTo
  split
  next hempty =>
    refine ⟨before, hmem, rfl, ?_⟩
    rw [audited, fieldsOf_empty hempty, List.isEmpty_nil, if_pos rfl]
  next =>
    have haudited : audit.audited mutability cbd before ∈
        (changeset.map (audit.audited mutability cbd)).changes := List.mem_map_of_mem hmem
    obtain ⟨change, hchange, hnode, haction⟩ := behindDestroyFirst_mem mutability haudited
    exact ⟨change, hchange, hnode.trans (audited_nodeId before), haction⟩

/-- **When the audit keeps a plan closed under recreation.** Exactly when everything unchanged
behind a node it recreates has a rotated secret of its own. -/
theorem appliedTo_closed_iff {desired : IRGraph} {prior : StateGraph}
    (hclosed : Closed desired prior changeset) :
    Closed desired prior (audit.appliedTo changeset mutability cbd) ↔
      ∀ upstream ∈ changeset.changes, audit.Recreates mutability upstream →
        ∀ node ∈ changeset.changes, node.action = .noop →
          Closure.Reaches (dependentsOf desired) upstream.nodeId node.nodeId →
          node.nodeId ∈ desired.byId → node.nodeId ∈ prior → audit.fieldsOf node.nodeId ≠ [] := by
  constructor
  · intro hafter upstream hupstream hrecreates node hnode hnoop hreach hdeclared hstored hfields
    obtain ⟨upstream', hupstream', hid, haction⟩ :=
      @appliedTo_mem audit changeset mutability cbd _ hupstream
    obtain ⟨node', hnode', hid', haction'⟩ :=
      @appliedTo_mem audit changeset mutability cbd _ hnode
    have hrotated : audit.fieldsOf upstream.nodeId ≠ [] := by
      intro hnone
      rw [Recreates, rotatesImmutable, hnone] at hrecreates
      simp at hrecreates
    refine hafter upstream' hupstream' node' hnode' ?_ ?_ ?_ ?_ ?_
    · rw [haction]
      exact (audited_recreated hrotated).mpr hrecreates
    · rw [hid, hid']
      exact hreach
    · rw [hid']
      exact hdeclared
    · rw [hid']
      exact hstored
    · rw [haction']
      exact audited_noop.mpr ⟨hnoop, hfields⟩
  · intro hpulled upstream' hupstream' node' hnode' hrecreated hreach hdeclared hstored hnoop'
    obtain ⟨upstream, hupstream, hid, haction⟩ := mem_appliedTo hupstream'
    obtain ⟨node, hnode, hid', haction'⟩ := mem_appliedTo hnode'
    rw [hid, hid'] at hreach
    rw [hid'] at hdeclared hstored
    rw [haction'] at hnoop'
    rw [haction] at hrecreated
    obtain ⟨hnoop, hfields⟩ := audited_noop.mp hnoop'
    by_cases hrotated : audit.fieldsOf upstream.nodeId = []
    · rw [audited, hrotated, List.isEmpty_nil, if_pos rfl] at hrecreated
      exact hclosed upstream hupstream node hnode hrecreated hreach hdeclared hstored hnoop
    · exact hpulled upstream hupstream ((audited_recreated hrotated).mp hrecreated) node hnode
        hnoop hreach hdeclared hstored hfields

end

/-! ## A database and its client -/

namespace Rotation

def password : Value :=
  .dict [(secretRefKey, .dict [("name", .str "db/password"), ("provider", .null)])]

def database : IRNode :=
  { id := "s:t:db", type := "t", provider := "p", providerVersion := "1"
    properties := (∅ : Dict String Value).insert "password" password, dependencies := [] }

def client : IRNode :=
  { id := "s:t:app", type := "t", provider := "p", providerVersion := "1"
    properties := Drifted.refTo "url" "s:t:db", dependencies := ["s:t:db"] }

def rowOf (node : IRNode) : StateNode :=
  { id := node.id, type := node.type, provider := node.provider
    providerVersion := node.providerVersion, inputHash := "hash", properties := node.properties
    dependencies := node.dependencies }

def desired : IRGraph := ⟨[client, database]⟩

def prior : StateGraph :=
  (∅ : StateGraph).insert client.id (rowOf client) |>.insert database.id (rowOf database)

def unchanged (node : IRNode) : Change :=
  { nodeId := node.id, action := .noop, desired := some node, prior := some (rowOf node) }

/-- Nothing changed but the password. -/
def changeset : ChangeSet := ⟨[unchanged client, unchanged database]⟩

def mutability : TypeMutability := fun _ field =>
  if field = "password" then some .immutable else some .mutable

def audit : SecretAudit :=
  ⟨(∅ : Dict String (List String)).insert database.id ["password"], 0, [database.id]⟩

theorem changeset_closed : Closed desired prior changeset := by
  have hnone : ∀ upstream ∈ changeset.changes, ¬ reidentifying upstream.action := by decide
  exact fun upstream hupstream _ _ hrecreated => absurd hrecreated (hnone upstream hupstream)

/-- The database is replaced, and its client keeps the id of the one destroyed. -/
theorem appliedTo_not_closed : Closed desired prior changeset ∧
    ¬ Closed desired prior (audit.appliedTo changeset mutability []) := by
  have hstale : ∃ upstream ∈ (audit.appliedTo changeset mutability []).changes,
      ∃ node ∈ (audit.appliedTo changeset mutability []).changes,
        reidentifying upstream.action ∧ node.nodeId ∈ dependentsOf desired upstream.nodeId ∧
          node.nodeId ∈ desired.byId ∧ node.nodeId ∈ prior ∧ node.action = .noop := by
    decide +kernel
  obtain ⟨upstream, hupstream, node, hnode, hrecreated, hdepends, hdeclared, hstored, hnoop⟩ :=
    hstale
  refine ⟨changeset_closed, fun hclosed => ?_⟩
  exact hclosed upstream hupstream node hnode hrecreated (.single hdepends) hdeclared hstored hnoop

/-- With a rotated secret of its own the client is applied again too. -/
def bothRotated : SecretAudit :=
  ⟨audit.rotated.insert client.id ["token"], 0, [client.id, database.id]⟩

theorem bothRotated_closed :
    Closed desired prior (bothRotated.appliedTo changeset mutability []) := by
  apply (appliedTo_closed_iff changeset_closed).mpr
  have hrotated : ∀ node ∈ changeset.changes, bothRotated.fieldsOf node.nodeId ≠ [] := by
    decide +kernel
  exact fun _ _ _ node hnode _ _ _ _ => hrotated node hnode

end Rotation

end SecretAudit

end Atlantide
