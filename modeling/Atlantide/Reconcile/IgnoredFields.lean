import Atlantide.IR.Lower
import Atlantide.Lib.Fallible
import Atlantide.Reconcile.Applied
import Atlantide.Reconcile.Staleness

/-! # An edit of an ignored field

The hash and the diff leave an ignored field's value out, but its references are dependencies like
any other, and their hashes are part of the node's. -/

namespace Atlantide

open Fallible

section

variable {codec : Codec} {secrets : SecretsRegistry} {prior : StateGraph} {nodeId name : String}
  {verdict : Consumed}

/-- A verdict that a node's fields were given. -/
def FieldVerdict (codec : Codec) (prior : StateGraph) (secrets : SecretsRegistry) (node : IRNode)
    (row : StateNode) (name : String) (verdict : Consumed) : Prop :=
  ∃ value, node.properties[name]? = some value ∧ name ∉ node.ignoreChanges ∧
    fieldVerdict codec prior secrets name value row.refDigests[name]? = .ok (some verdict)

theorem nodeVerdicts_spec {node : IRNode} {row : StateNode} {fields : Dict String Consumed}
    (hfields : nodeVerdicts codec prior secrets node row = .ok fields)
    (hverdict : fields[name]? = some verdict) :
    FieldVerdict codec prior secrets node row name verdict := by
  rw [nodeVerdicts, Std.ExtTreeMap.foldl_eq_foldl_toList] at hfields
  have hentries : ∀ entry ∈ node.properties.toList, node.properties[entry.1]? = some entry.2 :=
    fun entry hmem => Std.ExtTreeMap.mem_toList_iff_getElem?_eq_some.mp hmem
  generalize node.properties.toList = entries at hfields hentries
  -- A verdict of the last table was in the first one, or an entry put it there.
  suffices h : (∃ table : Dict String Consumed, (Except.ok ∅ : Except Fault _) = .ok table ∧
      table[name]? = some verdict) ∨ FieldVerdict codec prior secrets node row name verdict by
    rcases h with ⟨table, hempty, hfound⟩ | hfield
    · cases hempty
      rw [Std.ExtTreeMap.getElem?_empty] at hfound
      cases hfound
    · exact hfield
  generalize (Except.ok ∅ : Except Fault (Dict String Consumed)) = start at hfields ⊢
  induction entries generalizing start with
  | nil => exact .inl ⟨fields, hfields, hverdict⟩
  | cons entry entries ih =>
    obtain ⟨hentry, hentries⟩ := List.forall_mem_cons.mp hentries
    rcases ih hentries _ hfields with ⟨table, hstep, hfound⟩ | hfield
    · obtain ⟨before, hbefore, hstep⟩ := bind_eq_ok hstep
      rcases ite_eq_iff.mp hstep with ⟨-, hstep⟩ | ⟨hexamined, hstep⟩
      · cases hstep
        exact .inl ⟨table, hbefore, hfound⟩
      · obtain ⟨given, hgiven, hstep⟩ := bind_eq_ok hstep
        cases given with
        | none =>
          cases hstep
          exact .inl ⟨table, hbefore, hfound⟩
        | some given =>
          cases hstep
          rw [Std.ExtTreeMap.getElem?_insert] at hfound
          split at hfound
          next hsame =>
            obtain rfl : entry.1 = name := Std.LawfulEqCmp.eq_of_compare hsame
            cases hfound
            refine .inr ⟨entry.2, hentry, ?_, hgiven⟩
            intro hignored
            exact hexamined (by simp [hignored])
          next => exact .inl ⟨before, hbefore, hfound⟩
    · exact .inr hfield

/-- A verdict is one of a declared node's, on its row. -/
theorem consumed_spec {ir : IRGraph} {verdicts : ConsumedRefs}
    (hconsumed : consumed codec ir prior secrets = .ok verdicts)
    (hverdict : (verdicts.getD nodeId ∅)[name]? = some verdict) :
    ∃ node ∈ ir.nodes, node.id = nodeId ∧ ∃ row, prior[nodeId]? = some row ∧
      FieldVerdict codec prior secrets node row name verdict := by
  rw [consumed] at hconsumed
  generalize ir.nodes = nodes at hconsumed ⊢
  suffices h : (∃ table : ConsumedRefs, (Except.ok ∅ : Except Fault _) = .ok table ∧
      (table.getD nodeId ∅)[name]? = some verdict) ∨ ∃ node ∈ nodes, node.id = nodeId ∧
        ∃ row, prior[nodeId]? = some row ∧
          FieldVerdict codec prior secrets node row name verdict by
    rcases h with ⟨table, hempty, hfound⟩ | hnode
    · cases hempty
      rw [Std.ExtTreeMap.getD_empty, Std.ExtTreeMap.getElem?_empty] at hfound
      cases hfound
    · exact hnode
  generalize (Except.ok ∅ : Except Fault ConsumedRefs) = start at hconsumed ⊢
  induction nodes generalizing start with
  | nil => exact .inl ⟨verdicts, hconsumed, hverdict⟩
  | cons node nodes ih =>
    rcases ih _ hconsumed with ⟨table, hstep, hfound⟩ | ⟨other, hother, hrest⟩
    · obtain ⟨before, hbefore, hstep⟩ := bind_eq_ok hstep
      split at hstep
      next =>
        cases hstep
        exact .inl ⟨table, hbefore, hfound⟩
      next row hrow =>
        split at hstep
        next =>
          cases hstep
          exact .inl ⟨table, hbefore, hfound⟩
        next =>
          obtain ⟨fields, hfields, hstep⟩ := bind_eq_ok hstep
          split at hstep
          next =>
            cases hstep
            exact .inl ⟨table, hbefore, hfound⟩
          next =>
            cases hstep
            rw [Std.ExtTreeMap.getD_insert] at hfound
            split at hfound
            next hsame =>
              obtain rfl : node.id = nodeId := Std.LawfulEqCmp.eq_of_compare hsame
              exact .inr ⟨node, List.mem_cons_self, rfl, row, hrow,
                nodeVerdicts_spec hfields hfound⟩
            next => exact .inl ⟨before, hbefore, hfound⟩
    · exact .inr ⟨other, List.mem_cons_of_mem _ hother, hrest⟩

end

/-- The state a config was applied to: each node has a row of its hash and properties, and no
recorded value has moved since. -/
structure AppliedTo (codec : Codec) (secrets : SecretsRegistry) (prior : StateGraph) (ir : IRGraph)
    (hashes : Dict String String) : Prop where
  rows : ∀ (nodeId : String) (node : IRNode), ir.byId[nodeId]? = some node →
    ∃ row, prior[nodeId]? = some row ∧ row.status = .created ∧
      hashes[nodeId]? = some row.inputHash ∧ row.properties = node.properties
  only : ∀ nodeId ∈ prior, nodeId ∈ ir.byId
  current : ∀ (nodeId : String) (row : StateNode) (name : String) (value : Value)
    (recorded : String), prior[nodeId]? = some row → row.properties[name]? = some value →
      row.refDigests[name]? = some recorded →
        fieldVerdict codec prior secrets name value (some recorded) ≠ .ok (some .moved)

/-- What the edited resource refers to, before and after, is alike: node by node, in the order of
their ids. -/
def SameUpstreams (ir other : IRGraph) (node node' : IRNode) : Prop :=
  node.hashedDeps.length = node'.hashedDeps.length ∧
    ∀ pair ∈ node.hashedDeps.zip node'.hashedDeps, Alike ir other pair.1 pair.2

section

variable {codec : Codec} {ir other : IRGraph} {hashes hashes' : Dict String String}

theorem inputHashes_mem_iff (hhashes : inputHashes codec ir = some hashes) {nodeId : String} :
    nodeId ∈ hashes ↔ nodeId ∈ ir.byId := by
  refine ⟨fun hmem => ?_, mem_inputHashes hhashes⟩
  obtain ⟨graph, -, hmerkle⟩ := inputHashes_eq_some hhashes
  obtain ⟨hash, hhash⟩ := Option.isSome_iff_exists.mp
    (Std.ExtTreeMap.mem_iff_isSome_getElem?.mp hmem)
  cases (merkleHashes_sound hmerkle).1 nodeId hash hhash with
  | node hfound => exact Std.ExtTreeMap.mem_iff_isSome_getElem?.mpr (by rw [hfound]; rfl)

/-- Where one node's hash stays through an edit of that node, every hash does. -/
theorem inputHashes_eq_of_edited (hhashes : inputHashes codec ir = some hashes)
    (hhashes' : inputHashes codec other = some hashes') {edited : String}
    (hothers : ∀ nodeId, nodeId ≠ edited → other.byId[nodeId]? = ir.byId[nodeId]?)
    (hmem : edited ∈ ir.byId ↔ edited ∈ other.byId)
    (hedited : hashes[edited]? = hashes'[edited]?) (nodeId : String) :
    hashes[nodeId]? = hashes'[nodeId]? := by
  have hkept : ∀ (nodeId hash : String), MerkleHash codec ir nodeId hash →
      hashes'[nodeId]? = some hash := by
    intro nodeId hash hhash
    induction hhash with
    | @node nodeId node hfound known hdeps ih =>
      by_cases hself : nodeId = edited
      · subst hself
        have hin : nodeId ∈ ir.byId :=
          Std.ExtTreeMap.mem_iff_isSome_getElem?.mpr (by rw [hfound]; rfl)
        rw [← hedited, inputHashes_digest hhashes hfound, Option.some.injEq]
        refine Codec.digestOf_congr fun dep hdep => ?_
        have hdepin := inputHashes_dep hhashes hfound hdep
        exact (inputHashes_getD hhashes hdepin).unique (hdeps dep hdep)
      · rw [inputHashes_digest hhashes' ((hothers nodeId hself).trans hfound), Option.some.injEq]
        refine Codec.digestOf_congr fun dep hdep => ?_
        rw [Std.ExtTreeMap.getD_eq_getD_getElem?, ih dep hdep, Option.getD_some]
  have hsame : nodeId ∈ ir.byId ↔ nodeId ∈ other.byId := by
    by_cases hself : nodeId = edited
    · rw [hself]
      exact hmem
    · rw [Std.ExtTreeMap.mem_iff_isSome_getElem?, Std.ExtTreeMap.mem_iff_isSome_getElem?,
        hothers nodeId hself]
  cases hhash : hashes[nodeId]? with
  | some hash =>
    obtain ⟨graph, -, hmerkle⟩ := inputHashes_eq_some hhashes
    exact (hkept nodeId hash ((merkleHashes_sound hmerkle).1 nodeId hash hhash)).symm
  | none =>
    have habsent : nodeId ∉ hashes' := by
      rw [inputHashes_mem_iff hhashes', ← hsame, ← inputHashes_mem_iff hhashes,
        Std.ExtTreeMap.mem_iff_isSome_getElem?, hhash]
      decide
    exact (Std.ExtTreeMap.getElem?_eq_none habsent).symm

end

namespace DiffInputs

variable {inputs : DiffInputs}

/-- A diff in which each node by itself is a NOOP changes nothing. -/
theorem diff_noops (hnoop : ∀ nodeId ∈ inputs.allIds, (inputs.changeFor nodeId).action = .noop) :
    ∀ change ∈ (diff inputs []).changes, change.action = .noop := by
  have hfirst : ∀ first ∈ inputs.firstPass [], first.action = .noop := by
    intro first hmem
    obtain ⟨plain, hplain, rfl⟩ := List.mem_map.mp hmem
    obtain ⟨nodeId, hid, rfl⟩ := List.mem_map.mp hplain
    rw [if_neg List.not_mem_nil]
    exact hnoop nodeId hid
  intro change hmem
  obtain ⟨first, hin, -, haction⟩ := mem_diff hmem
  rw [haction, refine_noop_iff hin]
  refine ⟨hfirst first hin, fun hstale => ?_⟩
  obtain ⟨source, hsource, hidentity, -⟩ := mem_staleDependents.mp hstale
  rw [reidentifying, hfirst source hsource] at hidentity
  cases hidentity

/-- A node whose row has its hash and none of whose values moved is a NOOP. -/
theorem changeFor_noop_of {nodeId : String} {want : IRNode} {row : StateNode}
    (hwant : inputs.wanted nodeId = some want) (hrow : inputs.prior[nodeId]? = some row)
    (hstatus : row.status = .created) (hhash : inputs.desiredHashes nodeId = row.inputHash)
    (hstill : ∀ name : String, (inputs.verdicts.getD nodeId ∅)[name]? ≠ some .moved) :
    (inputs.changeFor nodeId).action = .noop := by
  unfold changeFor
  rw [hwant, hrow]
  dsimp only
  rw [if_neg (not_not.mpr hstatus), if_pos hhash, if_neg]
  rw [consumesMoved, List.any_eq_true]
  rintro ⟨name, hsettled, -⟩
  exact hstill name (mem_settled.mp hsettled).1

end DiffInputs

section

variable {codec : Codec} {secrets : SecretsRegistry} {registry : ResourceRegistry}
  {resource : Declared} {field : String} {inputs : Dict String Input} {prior : StateGraph}
  {hashes hashes' : Dict String String}

/-- Through an edit of an ignored field, the resource's hash stays exactly when what it refers to is
alike before and after. -/
theorem edited_hash_iff (hexact : codec.Exact) (hprinted : registry.lower.FloatsPrinted)
    (hprinted' : (registry.withInputs resource.id inputs).lower.FloatsPrinted)
    (hhashes : inputHashes codec registry.lower = some hashes)
    (hhashes' : inputHashes codec (registry.withInputs resource.id inputs).lower = some hashes')
    (hmem : resource ∈ registry.resources) (hignored : field ∈ resource.ignoreChanges)
    (hinputs : ∀ name : String, name ≠ field → inputs[name]? = resource.inputs[name]?) :
    hashes[resource.id]? = hashes'[resource.id]? ↔
      SameUpstreams registry.lower (registry.withInputs resource.id inputs).lower resource.lower
        { resource with inputs }.lower := by
  have hnode : registry.lower.byId[resource.id]? = some resource.lower :=
    ResourceRegistry.lower_byId.mpr ⟨resource, hmem, rfl, rfl⟩
  have hnode' := ResourceRegistry.lower_withInputs hmem inputs
  have hin : resource.id ∈ registry.lower.byId :=
    Std.ExtTreeMap.mem_iff_isSome_getElem?.mpr (by rw [hnode]; rfl)
  have hin' : resource.id ∈ (registry.withInputs resource.id inputs).lower.byId :=
    Std.ExtTreeMap.mem_iff_isSome_getElem?.mpr (by rw [hnode']; rfl)
  rw [← getD_eq_iff (mem_inputHashes hhashes hin) (mem_inputHashes hhashes' hin'),
    MerkleHash.eq_iff_alike hexact hprinted hprinted' (inputHashes_getD hhashes hin)
      (inputHashes_getD hhashes' hin')]
  constructor
  · rintro (⟨hfound, hfound', -, -, hlength, hdeps⟩)
    cases hnode.symm.trans hfound
    cases hnode'.symm.trans hfound'
    exact ⟨hlength, hdeps⟩
  · rintro ⟨hlength, hdeps⟩
    exact .node hnode hnode' rfl (Declared.hashed_withInputs hignored hinputs).symm hlength hdeps

/-- A field that is not ignored is as it was before the edit. -/
theorem watched_property (hmem : resource ∈ registry.resources)
    (hignored : field ∈ resource.ignoreChanges)
    (hinputs : ∀ name : String, name ≠ field → inputs[name]? = resource.inputs[name]?)
    {node node' : IRNode} {name : String}
    (hnode' : node' ∈ (registry.withInputs resource.id inputs).lower.nodes)
    (hnode : registry.lower.byId[node'.id]? = some node) (hwatched : name ∉ node'.ignoreChanges) :
    node.properties[name]? = node'.properties[name]? := by
  obtain ⟨changed, hchanged, rfl⟩ := List.mem_map.mp hnode'
  obtain ⟨before, hbefore, rfl⟩ := List.mem_map.mp hchanged
  by_cases hself : before.id = resource.id
  · rw [if_pos hself] at hnode hwatched ⊢
    obtain ⟨found, hfound, hid, rfl⟩ := ResourceRegistry.lower_byId.mp hnode
    have hsame : ∀ first ∈ registry.resources, ∀ second ∈ registry.resources,
        first.id = second.id → first = second := fun first hfirst second hsecond heq =>
      List.inj_on_of_nodup_map registry.distinct hfirst hsecond heq
    obtain rfl : before = resource := hsame before hbefore resource hmem hself
    obtain rfl : found = before := hsame found hfound before hbefore hid
    have hname : name ≠ field := fun heq => hwatched (heq ▸ hignored)
    change (canonicalInputs found.inputs)[name]? = (canonicalInputs inputs)[name]?
    rw [canonicalInputs, canonicalInputs, Std.ExtTreeMap.getElem?_map, Std.ExtTreeMap.getElem?_map,
      hinputs name hname]
  · rw [if_neg hself] at hnode ⊢
    have hbyId := ResourceRegistry.lower_byId.mpr ⟨before, hbefore, rfl, rfl⟩
    cases hnode.symm.trans hbyId
    rfl

/-- **An edit of an ignored field.** No hash changes, and nothing but NOOPs is planned against the
state the config was applied to, exactly when the resource refers to alike nodes before and
after. -/
theorem ignored_edit_iff (hexact : codec.Exact) (hprinted : registry.lower.FloatsPrinted)
    (hprinted' : (registry.withInputs resource.id inputs).lower.FloatsPrinted)
    (hhashes : inputHashes codec registry.lower = some hashes)
    (hhashes' : inputHashes codec (registry.withInputs resource.id inputs).lower = some hashes')
    (hmem : resource ∈ registry.resources) (hignored : field ∈ resource.ignoreChanges)
    (hinputs : ∀ name : String, name ≠ field → inputs[name]? = resource.inputs[name]?)
    (happlied : AppliedTo codec secrets prior registry.lower hashes)
    {mutability : TypeMutability} {verdicts : ConsumedRefs}
    (hverdicts : consumed codec (registry.withInputs resource.id inputs).lower prior secrets =
      .ok verdicts) :
    ((∀ nodeId : String, hashes[nodeId]? = hashes'[nodeId]?) ∧
      ∀ change ∈ (diff ⟨(registry.withInputs resource.id inputs).lower, (hashes'.getD · ""), prior,
        mutability, verdicts⟩ []).changes, change.action = .noop) ↔
      SameUpstreams registry.lower (registry.withInputs resource.id inputs).lower resource.lower
        { resource with inputs }.lower := by
  have hedited := edited_hash_iff hexact hprinted hprinted' hhashes hhashes' hmem hignored hinputs
  have hothers : ∀ nodeId, nodeId ≠ resource.id →
      (registry.withInputs resource.id inputs).lower.byId[nodeId]? =
        registry.lower.byId[nodeId]? :=
    fun _ hne => ResourceRegistry.lower_withInputs_of_ne inputs hne
  have hnode : registry.lower.byId[resource.id]? = some resource.lower :=
    ResourceRegistry.lower_byId.mpr ⟨resource, hmem, rfl, rfl⟩
  have hnode' := ResourceRegistry.lower_withInputs hmem inputs
  constructor
  · rintro ⟨hsame, -⟩
    exact hedited.mp (hsame resource.id)
  · intro hupstreams
    have hsame : ∀ nodeId : String, hashes[nodeId]? = hashes'[nodeId]? := by
      refine inputHashes_eq_of_edited hhashes hhashes' hothers ?_ (hedited.mpr hupstreams)
      rw [Std.ExtTreeMap.mem_iff_isSome_getElem?, Std.ExtTreeMap.mem_iff_isSome_getElem?, hnode,
        hnode']
      exact Iff.rfl
    refine ⟨hsame, DiffInputs.diff_noops fun nodeId hid => ?_⟩
    -- Whatever is declared or recorded was declared before the edit too.
    have hdeclared : ∃ node, registry.lower.byId[nodeId]? = some node := by
      suffices hin : nodeId ∈ registry.lower.byId from
        Option.isSome_iff_exists.mp (Std.ExtTreeMap.mem_iff_isSome_getElem?.mp hin)
      rcases List.mem_append.mp (mem_sortedSet.mp hid) with hid | hid
      · rw [← inputHashes_mem_iff hhashes, Std.ExtTreeMap.mem_iff_isSome_getElem?, hsame,
          ← Std.ExtTreeMap.mem_iff_isSome_getElem?, inputHashes_mem_iff hhashes']
        exact Std.ExtTreeMap.mem_keys.mp hid
      · exact happlied.only nodeId (Std.ExtTreeMap.mem_keys.mp hid)
    obtain ⟨node, hfound⟩ := hdeclared
    obtain ⟨row, hrow, hstatus, hhash, hproperties⟩ := happlied.rows nodeId node hfound
    obtain ⟨want, hwant⟩ : ∃ want,
        (registry.withInputs resource.id inputs).lower.byId[nodeId]? = some want := by
      by_cases hself : nodeId = resource.id
      · rw [hself]
        exact ⟨_, hnode'⟩
      · exact ⟨node, (hothers nodeId hself).trans hfound⟩
    refine DiffInputs.changeFor_noop_of hwant hrow hstatus ?_ fun name hmoved => ?_
    · change hashes'.getD nodeId "" = row.inputHash
      rw [Std.ExtTreeMap.getD_eq_getD_getElem?, ← hsame, hhash, Option.getD_some]
    · obtain ⟨node', hin, rfl, row', hrow', value, hvalue, hwatched, hverdict⟩ :=
        consumed_spec hverdicts hmoved
      cases hrow.symm.trans hrow'
      have hproperty : row.properties[name]? = some value := by
        rw [hproperties, ← hvalue]
        exact watched_property hmem hignored hinputs hin hfound hwatched
      cases hrecorded : row.refDigests[name]? with
      | none =>
        rw [hrecorded] at hverdict
        cases hverdict
      | some recorded =>
        rw [hrecorded] at hverdict
        exact happlied.current node'.id row name value recorded hrow hproperty hrecorded hverdict

end

namespace Ignored

open Hashed

def secrets : SecretsRegistry where
  resolve ref := .ok ref.name
  digest scope text := .ok (scope ++ "=" ++ text)
  sealText := .str
  unsealValue := .ok

def thing (name size : String) : Declared :=
  { id := "s:t:" ++ name, type := "t", provider := "p", providerVersion := "1"
    inputs := (∅ : Dict String Input).insert "size" (.str size) }

def note (target attr : String) : Dict String Input :=
  (∅ : Dict String Input).insert "note" (.ref ⟨"s:t:" ++ target, attr⟩)

/-- Refers to another thing in a field whose changes are ignored. -/
def noted : Declared :=
  { id := "s:t:n", type := "t", provider := "p", providerVersion := "1", inputs := note "a" "id"
    ignoreChanges := ["note"] }

def registry : ResourceRegistry := ⟨[thing "a" "1", thing "b" "2", noted], by decide⟩

/-- The config with the note taken from elsewhere. -/
def renoted (target attr : String) : ResourceRegistry :=
  registry.withInputs noted.id (note target attr)

def hashes (registry : ResourceRegistry) : Dict String String :=
  (inputHashes codec registry.lower).getD ∅

/-- The row of a resource as the first config leaves it. -/
def applied (resource : Declared) (refDigests : Dict String String) : StateNode :=
  { id := resource.id, type := "t", provider := "p", providerVersion := "1"
    inputHash := (hashes registry).getD resource.id "", refDigests
    outputs := (∅ : Dict String Value).insert "id" (.str resource.id)
    properties := resource.lower.properties, dependencies := resource.dependencies }

def prior : StateGraph :=
  ([applied (thing "a" "1") ∅, applied (thing "b" "2") ∅,
    applied noted ((∅ : Dict String String).insert "note" "sha256:\x22s:t:a\x22")] :
      List StateNode).foldl (fun table row => table.insert row.id row) ∅

/-- The diff of the edited config against that state. -/
def replanned (target attr : String) : ChangeSet :=
  diff ⟨(renoted target attr).lower, ((hashes (renoted target attr)).getD · ""), prior,
    fun _ _ => none,
    (consumed codec (renoted target attr).lower prior secrets).toOption.getD ∅⟩ []

instance (value : Value) : Decidable value.FloatsPrinted := inferInstanceAs (Decidable (_ = false))

theorem lower_printed {registry : ResourceRegistry}
    (hall : ∀ resource ∈ registry.resources, ∀ entry ∈ resource.lower.properties.toList,
      entry.2.FloatsPrinted) : registry.lower.FloatsPrinted := by
  intro nodeId node hnode name value hvalue
  obtain ⟨resource, hresource, -, rfl⟩ := ResourceRegistry.lower_byId.mp hnode
  exact hall resource hresource (name, value)
    (Std.ExtTreeMap.mem_toList_iff_getElem?_eq_some.mpr hvalue)

theorem hashes_eq (registry : ResourceRegistry)
    (hsome : (inputHashes codec registry.lower).isSome = true) :
    inputHashes codec registry.lower = some (hashes registry) := by
  obtain ⟨found, hfound⟩ := Option.isSome_iff_exists.mp hsome
  rw [hashes, hfound, Option.getD_some]

theorem prior_appliedTo : AppliedTo codec secrets prior registry.lower (hashes registry) := by
  refine ⟨fun nodeId node hnode => ?_, fun nodeId hmem => ?_, ?_⟩
  · obtain ⟨resource, hresource, rfl, rfl⟩ := ResourceRegistry.lower_byId.mp hnode
    have hall : ∀ resource ∈ registry.resources, (prior[resource.id]?).any fun row =>
        decide (row.status = .created) &&
          decide ((hashes registry)[resource.id]? = some row.inputHash) &&
            decide (row.properties = resource.lower.properties) := by
      decide +kernel
    obtain ⟨row, hrow, happlied⟩ := (Option.any_eq_true _ _).mp (hall resource hresource)
    simp only [Bool.and_eq_true, decide_eq_true_eq] at happlied
    exact ⟨row, hrow, happlied.1.1, happlied.1.2, happlied.2⟩
  · have hall : ∀ nodeId ∈ prior.keys, nodeId ∈ registry.lower.byId := by decide +kernel
    exact hall nodeId (Std.ExtTreeMap.mem_keys.mpr hmem)
  · intro nodeId row name value recorded hrow hvalue hrecorded
    have hall : ∀ entry ∈ prior.toList, ∀ field ∈ entry.2.properties.toList,
        ∀ record ∈ entry.2.refDigests.toList, record.1 = field.1 →
          fieldVerdict codec prior secrets field.1 field.2 (some record.2) ≠ .ok (some .moved) := by
      decide +kernel
    exact hall (nodeId, row) (Std.ExtTreeMap.mem_toList_iff_getElem?_eq_some.mpr hrow) (name, value)
      (Std.ExtTreeMap.mem_toList_iff_getElem?_eq_some.mpr hvalue) (name, recorded)
      (Std.ExtTreeMap.mem_toList_iff_getElem?_eq_some.mpr hrecorded) rfl

theorem note_apart (target attr : String) (name : String) (hname : name ≠ "note") :
    (note target attr)[name]? = noted.inputs[name]? := by
  have hcompare : ¬ compare "note" name = .eq := fun heq =>
    hname (Std.LawfulEqCmp.eq_of_compare heq).symm
  change ((∅ : Dict String Input).insert "note" _)[name]? =
    ((∅ : Dict String Input).insert "note" _)[name]?
  rw [Std.ExtTreeMap.getElem?_insert, Std.ExtTreeMap.getElem?_insert, if_neg hcompare,
    if_neg hcompare]

end Ignored

/-- Another output of the same thing: nothing is planned. -/
theorem ignored_edit_iff_same : ∃ verdicts,
    consumed Hashed.codec (Ignored.renoted "a" "arn").lower Ignored.prior Ignored.secrets =
      .ok verdicts ∧
    (∀ nodeId : String, (Ignored.hashes Ignored.registry)[nodeId]? =
      (Ignored.hashes (Ignored.renoted "a" "arn"))[nodeId]?) ∧
    ∀ change ∈ (diff ⟨(Ignored.renoted "a" "arn").lower,
      ((Ignored.hashes (Ignored.renoted "a" "arn")).getD · ""), Ignored.prior, fun _ _ => none,
        verdicts⟩ []).changes, change.action = .noop := by
  have hok : (consumed Hashed.codec (Ignored.renoted "a" "arn").lower Ignored.prior
      Ignored.secrets).isOk = true := by
    decide +kernel
  cases hverdicts : consumed Hashed.codec (Ignored.renoted "a" "arn").lower Ignored.prior
      Ignored.secrets with
  | error fault =>
    rw [hverdicts] at hok
    cases hok
  | ok verdicts =>
    refine ⟨verdicts, rfl, ?_⟩
    refine (ignored_edit_iff Hashed.codec_exact (Ignored.lower_printed (by decide +kernel))
      (Ignored.lower_printed (by decide +kernel))
      (Ignored.hashes_eq Ignored.registry (by decide +kernel))
      (Ignored.hashes_eq (Ignored.renoted "a" "arn") (by decide +kernel))
      (by simp [Ignored.registry]) (show "note" ∈ Ignored.noted.ignoreChanges by decide)
      (Ignored.note_apart "a" "arn") Ignored.prior_appliedTo hverdicts).mpr ?_
    have hdeps : Ignored.noted.lower.hashedDeps = ["s:t:a"] ∧
        { Ignored.noted with inputs := Ignored.note "a" "arn" }.lower.hashedDeps = ["s:t:a"] := by
      decide +kernel
    rw [SameUpstreams, hdeps.1, hdeps.2]
    refine ⟨rfl, fun pair hpair => ?_⟩
    obtain rfl := List.mem_singleton.mp hpair
    have hnode : Ignored.registry.lower.byId["s:t:a"]? = some (Ignored.thing "a" "1").lower := by
      decide +kernel
    have hnode' : (Ignored.renoted "a" "arn").lower.byId["s:t:a"]? =
        some (Ignored.thing "a" "1").lower := by
      decide +kernel
    have hnone : (Ignored.thing "a" "1").lower.hashedDeps = [] := by decide +kernel
    refine .node hnode hnode' rfl rfl rfl fun pair hpair => ?_
    rw [hnone] at hpair
    cases hpair

/-- A note taken from another thing changes the hash, and the node is planned for an UPDATE. -/
theorem ignored_edit_replans : "note" ∈ Ignored.noted.ignoreChanges ∧
    AppliedTo Hashed.codec Ignored.secrets Ignored.prior Ignored.registry.lower
      (Ignored.hashes Ignored.registry) ∧
    (Ignored.hashes Ignored.registry)["s:t:n"]? ≠
      (Ignored.hashes (Ignored.renoted "b" "id"))["s:t:n"]? ∧
    ((Ignored.replanned "b" "id").changes.map fun change => (change.nodeId, change.action)) =
      [("s:t:a", .noop), ("s:t:b", .noop), ("s:t:n", .update)] :=
  ⟨by decide, Ignored.prior_appliedTo, by decide +kernel, by decide +kernel⟩

end Atlantide
