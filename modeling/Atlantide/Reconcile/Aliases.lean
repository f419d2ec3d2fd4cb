import Atlantide.Graph.Order
import Atlantide.IR.Merkle
import Atlantide.Reconcile.Applied
import Atlantide.Reconcile.StateIr

/-! # Renames without replacement

A node renamed in the config may name its old id, or its bare old name, as an alias. Its row is then
moved to the new id, in a copy of the state for the plan and in the state itself under the lease, and
every row is brought in line: its references, its edges and its hash. -/

namespace Atlantide

/-- The full node id for an alias. -/
def expandAlias (named newId : String) : String :=
  if ':' ∈ named.toList then named
  else stackOf newId ++ ":" ++ typeNameOf newId ++ ":" ++ named

/-- The renames with the node's own: from the first of its aliases that is recorded and not taken. -/
def addRename (prior : StateGraph) (remap : Dict String String) (node : IRNode) :
    Dict String String :=
  if node.id ∈ prior then remap
  else
    match (node.aliases.map (expandAlias · node.id)).find? fun oldId =>
        oldId ∈ prior ∧ oldId ∉ remap with
    | some oldId => remap.insert oldId node.id
    | none => remap

/-- The old ids of the nodes that the aliases resolve, with the new ones. -/
def aliasRemap (prior : StateGraph) (ir : IRGraph) : Dict String String :=
  ir.nodes.foldl (addRename prior) ∅

namespace Value

/-- The marker with its target's new id, if the value is a marker of a renamed node. -/
def moved (remap : Dict String String) (value : Value) : Option Value := do
  let ref ← value.refFromMarker
  let newId ← remap[ref.nodeId]?
  pure (.dict [(refKey, .str (newId ++ "#" ++ ref.attr))])

mutual

/-- Points every `$ref` marker at its target's new id. -/
def remapRefs (remap : Dict String String) : Value → Value
  | list items => list (remapItems remap items)
  | dict fields => ((dict fields).moved remap).getD (dict (remapFields remap fields))
  | value => value

def remapItems (remap : Dict String String) : List Value → List Value
  | [] => []
  | item :: items => remapRefs remap item :: remapItems remap items

def remapFields (remap : Dict String String) : List (String × Value) → List (String × Value)
  | [] => []
  | (name, value) :: fields => (name, remapRefs remap value) :: remapFields remap fields

end

end Value

/-- One row with its id, its edges and its references migrated. -/
def StateNode.rekey (remap : Dict String String) (row : StateNode) : StateNode :=
  { row with
    id := remap.getD row.id row.id
    properties := row.properties.map fun _ value => value.remapRefs remap
    dependencies := row.dependencies.map fun dep => remap.getD dep dep
    dependsOn := row.dependsOn.map fun dep => remap.getD dep dep }

/-- The rows under their new ids. -/
def rekeyed (remap : Dict String String) (prior : StateGraph) : StateGraph :=
  (prior.toList.map fun entry => entry.2.rekey remap).foldl
    (fun table row => table.insert row.id row) ∅

/-- The state as a config, with what the rows say their nodes set. -/
def syntheticIr (state : StateGraph) (ir : IRGraph) : IRGraph :=
  ⟨state.toList.map fun entry =>
    { entry.2.irNode state with
      properties := entry.2.properties
      ignoreChanges := ((ir.byId[entry.2.id]?).map (·.ignoreChanges)).getD [] }⟩

/-- The hash of every row's node; none where the rows make no graph. -/
def rehash (codec : Codec) (state : StateGraph) (ir : IRGraph) : Option (Dict String String) := do
  let graph ← (buildGraph (syntheticIr state ir)).toOption
  merkleHashes codec (syntheticIr state ir) (topologicalOrder graph)

/-- The row with the hash it has after the migration; a poisoned one stays poisoned. -/
def StateNode.rehashed (hashes : Dict String String) (row : StateNode) : StateNode :=
  if row.inputHash = noInputHash then row else { row with inputHash := hashes.getD row.id "" }

/-- The state with every renamed node under its new id, and the renames; none where the migrated
rows make no graph. -/
def resolveAliases (codec : Codec) (prior : StateGraph) (ir : IRGraph) :
    Option (StateGraph × Dict String String) :=
  let remap := aliasRemap prior ir
  if remap.isEmpty then some (prior, ∅)
  else (rehash codec (rekeyed remap prior) ir).map fun hashes =>
    ((rekeyed remap prior).map fun _ row => row.rehashed hashes, remap)

/-- Drops rows, then overlays others. -/
def replaceMany (rows : StateGraph) (deleteIds : List String) (nodes : List StateNode) :
    StateGraph :=
  nodes.foldl (fun rows node => rows.insert node.id node) (deleteIds.foldl (·.erase ·) rows)

/-- The migrated rows that are not stored as they are. -/
def changedRows (prior migrated : StateGraph) : List StateNode :=
  (migrated.toList.filter fun entry => prior[entry.1]? ≠ some entry.2).map (·.2)

/-- The rows after the rekey is written back: the old ids dropped, the changed nodes put. -/
def persistMigration (prior migrated : StateGraph) (remap : Dict String String) : StateGraph :=
  replaceMany prior remap.keys (changedRows prior migrated)

/-- The ids the rekey writes. -/
def persistTouches (prior migrated : StateGraph) (remap : Dict String String) : List String :=
  remap.keys ++ (changedRows prior migrated).map (·.id)

/-- The rows an apply that holds `scope` goes on with; none where the migration fails, or would
write a row the lock does not cover. -/
def aliasMigration (codec : Codec) (scope : List String) (prior : StateGraph) (ir : IRGraph) :
    Option StateGraph :=
  match resolveAliases codec prior ir with
  | none => none
  | some (migrated, remap) =>
    if remap.isEmpty then some prior
    else if ∀ nodeId ∈ persistTouches prior migrated remap, nodeId ∈ scope then
      some (persistMigration prior migrated remap)
    else none

/-! ## What a migration moves -/

section

variable {codec : Codec} {prior : StateGraph} {ir : IRGraph} {remap : Dict String String}
  {nodeId oldId newId : String} {row : StateNode}

/-- Renames lead from recorded nodes to ids that have no row. -/
def Fresh (remap : Dict String String) (prior : StateGraph) : Prop :=
  ∀ oldId newId : String, remap[oldId]? = some newId → oldId ∈ prior ∧ newId ∉ prior

theorem Fresh.addRename (hfresh : Fresh remap prior) (node : IRNode) :
    Fresh (addRename prior remap node) prior := by
  intro oldId newId hfound
  unfold Atlantide.addRename at hfound
  split at hfound
  next => exact hfresh oldId newId hfound
  next hnew =>
    split at hfound
    next old hold =>
      rw [Std.ExtTreeMap.getElem?_insert] at hfound
      split at hfound
      next hsame =>
        obtain rfl : old = oldId := Std.LawfulEqCmp.eq_of_compare hsame
        cases hfound
        have hrecorded := List.find?_some hold
        exact ⟨(of_decide_eq_true hrecorded).1, hnew⟩
      next => exact hfresh oldId newId hfound
    next => exact hfresh oldId newId hfound

theorem aliasRemap_fresh (prior : StateGraph) (ir : IRGraph) :
    Fresh (aliasRemap prior ir) prior := by
  have hfold : ∀ (nodes : List IRNode) (remap : Dict String String), Fresh remap prior →
      Fresh (nodes.foldl (addRename prior) remap) prior := by
    intro nodes
    induction nodes with
    | nil => exact fun _ hfresh => hfresh
    | cons node nodes ih => exact fun remap hfresh => ih _ (hfresh.addRename node)
  refine hfold ir.nodes ∅ fun oldId newId hnone => ?_
  rw [Std.ExtTreeMap.getElem?_empty] at hnone
  cases hnone

theorem mem_rekeyed_items (hmem : row ∈ prior.toList.map fun entry => entry.2.rekey remap) :
    ∃ (nodeId : String) (before : StateNode), prior[nodeId]? = some before ∧
      row = before.rekey remap := by
  obtain ⟨entry, hentry, rfl⟩ := List.mem_map.mp hmem
  exact ⟨entry.1, entry.2, Std.ExtTreeMap.mem_toList_iff_getElem?_eq_some.mp hentry, rfl⟩

theorem getD_of_not_mem (hkept : oldId ∉ remap) : remap.getD oldId oldId = oldId := by
  rw [Std.ExtTreeMap.getD_eq_getD_getElem?, Std.ExtTreeMap.getElem?_eq_none hkept]
  rfl

theorem getD_of_renamed (hrenamed : remap[oldId]? = some newId) :
    remap.getD oldId oldId = newId := by
  rw [Std.ExtTreeMap.getD_eq_getD_getElem?, hrenamed]
  rfl

/-- A row that is not renamed keeps its place. -/
theorem getElem?_rekeyed_of_kept (hfresh : Fresh remap prior) (hkeyed : prior.Keyed)
    (hrow : prior[nodeId]? = some row) (hkept : nodeId ∉ remap) :
    (rekeyed remap prior)[nodeId]? = some (row.rekey remap) := by
  have hid : (row.rekey remap).id = nodeId := by
    rw [StateNode.rekey, hkeyed nodeId row hrow, getD_of_not_mem hkept]
  refine getElem?_foldl_insert_of_forall_eq (.inl ?_) hid fun other hother hsame => ?_
  · exact List.mem_map.mpr
      ⟨(nodeId, row), Std.ExtTreeMap.mem_toList_iff_getElem?_eq_some.mpr hrow, rfl⟩
  · obtain ⟨key, before, hbefore, rfl⟩ := mem_rekeyed_items hother
    rw [StateNode.rekey, hkeyed key before hbefore] at hsame
    by_cases hmoved : key ∈ remap
    · obtain ⟨target, htarget⟩ := Option.isSome_iff_exists.mp
        (Std.ExtTreeMap.mem_iff_isSome_getElem?.mp hmoved)
      rw [getD_of_renamed htarget] at hsame
      subst hsame
      exact ((hfresh key target htarget).2 (Std.ExtTreeMap.mem_iff_isSome_getElem?.mpr
        (by rw [hrow]; rfl))).elim
    · rw [getD_of_not_mem hmoved] at hsame
      subst hsame
      rw [hrow] at hbefore
      cases hbefore
      rfl

/-- A renamed node's old id has no row left. -/
theorem getElem?_rekeyed_of_renamed (hfresh : Fresh remap prior) (hkeyed : prior.Keyed)
    (hrenamed : oldId ∈ remap) : (rekeyed remap prior)[oldId]? = none := by
  rw [rekeyed, getElem?_foldl_insert_of_forall_ne, Std.ExtTreeMap.getElem?_empty]
  intro other hother hsame
  obtain ⟨key, before, hbefore, rfl⟩ := mem_rekeyed_items hother
  rw [StateNode.rekey, hkeyed key before hbefore] at hsame
  obtain ⟨newId, hnew⟩ := Option.isSome_iff_exists.mp
    (Std.ExtTreeMap.mem_iff_isSome_getElem?.mp hrenamed)
  by_cases hmoved : key ∈ remap
  · obtain ⟨target, htarget⟩ := Option.isSome_iff_exists.mp
      (Std.ExtTreeMap.mem_iff_isSome_getElem?.mp hmoved)
    rw [getD_of_renamed htarget] at hsame
    subst hsame
    exact (hfresh key target htarget).2 (hfresh target newId hnew).1
  · rw [getD_of_not_mem hmoved] at hsame
    subst hsame
    exact hmoved hrenamed

/-- An id that is neither recorded nor renamed to has no row. -/
theorem getElem?_rekeyed_of_absent (hkeyed : prior.Keyed) (habsent : nodeId ∉ prior)
    (hnew : ∀ oldId : String, remap[oldId]? ≠ some nodeId) : (rekeyed remap prior)[nodeId]? = none := by
  rw [rekeyed, getElem?_foldl_insert_of_forall_ne, Std.ExtTreeMap.getElem?_empty]
  intro other hother hsame
  obtain ⟨key, before, hbefore, rfl⟩ := mem_rekeyed_items hother
  rw [StateNode.rekey, hkeyed key before hbefore] at hsame
  by_cases hmoved : key ∈ remap
  · obtain ⟨target, htarget⟩ := Option.isSome_iff_exists.mp
      (Std.ExtTreeMap.mem_iff_isSome_getElem?.mp hmoved)
    rw [getD_of_renamed htarget] at hsame
    exact hnew key (hsame ▸ htarget)
  · rw [getD_of_not_mem hmoved] at hsame
    subst hsame
    exact habsent (Std.ExtTreeMap.mem_iff_isSome_getElem?.mpr (by rw [hbefore]; rfl))

/-- A renamed node has a row under its new id. -/
theorem mem_rekeyed_of_new (hfresh : Fresh remap prior) (hkeyed : prior.Keyed)
    (hrenamed : remap[oldId]? = some newId) : newId ∈ rekeyed remap prior := by
  obtain ⟨row, hrow⟩ := Option.isSome_iff_exists.mp
    (Std.ExtTreeMap.mem_iff_isSome_getElem?.mp (hfresh oldId newId hrenamed).1)
  refine mem_foldl_insert (.inl (List.mem_map.mpr ⟨row.rekey remap, ?_, ?_⟩))
  · exact List.mem_map.mpr
      ⟨(oldId, row), Std.ExtTreeMap.mem_toList_iff_getElem?_eq_some.mpr hrow, rfl⟩
  · rw [StateNode.rekey, hkeyed oldId row hrow, getD_of_renamed hrenamed]

theorem rekeyed_keyed : (rekeyed remap prior).Keyed := by
  have hfold : ∀ (rows : List StateNode) (start : StateGraph), start.Keyed →
      (rows.foldl (fun (table : StateGraph) row => table.insert row.id row) start).Keyed := by
    intro rows
    induction rows with
    | nil => exact fun start hstart => hstart
    | cons first rows ih =>
      intro start hstart
      refine ih _ fun key row hrow => ?_
      rw [Std.ExtTreeMap.getElem?_insert] at hrow
      split at hrow
      next hsame =>
        cases hrow
        exact Std.LawfulEqCmp.eq_of_compare hsame
      next => exact hstart key row hrow
  refine hfold _ ∅ fun key row hrow => ?_
  rw [Std.ExtTreeMap.getElem?_empty] at hrow
  cases hrow

@[simp]
theorem StateNode.rehashed_id (hashes : Dict String String) (row : StateNode) :
    (row.rehashed hashes).id = row.id := by
  unfold rehashed
  split <;> rfl

theorem getElem?_foldl_erase (ids : List String) (rows : StateGraph) :
    (ids.foldl (·.erase ·) rows)[nodeId]? = if nodeId ∈ ids then none else rows[nodeId]? := by
  induction ids generalizing rows with
  | nil => rfl
  | cons first ids ih =>
    rw [List.foldl_cons, ih, Std.ExtTreeMap.getElem?_erase]
    by_cases hmem : nodeId ∈ ids
    · rw [if_pos hmem, if_pos (List.mem_cons_of_mem first hmem)]
    · rw [if_neg hmem]
      by_cases hsame : first = nodeId
      · rw [hsame, if_pos Std.ReflCmp.compare_self, if_pos (List.mem_cons_self ..)]
      · rw [if_neg fun heq => hsame (Std.LawfulEqCmp.eq_of_compare heq), if_neg]
        exact List.not_mem_cons_of_ne_of_not_mem (Ne.symm hsame) hmem

/-- The state every row of which is migrated. -/
def migratedRows (remap hashes : Dict String String) (prior : StateGraph) : StateGraph :=
  (rekeyed remap prior).map fun _ row => row.rehashed hashes

theorem getElem?_migratedRows (hashes : Dict String String) :
    (migratedRows remap hashes prior)[nodeId]? =
      ((rekeyed remap prior)[nodeId]?).map (·.rehashed hashes) := by
  rw [migratedRows, Std.ExtTreeMap.getElem?_map]

theorem mem_changedRows {migrated : StateGraph} (hmigrated : migrated.Keyed) :
    row ∈ changedRows prior migrated ↔
      migrated[row.id]? = some row ∧ prior[row.id]? ≠ some row := by
  rw [changedRows, List.mem_map]
  constructor
  · rintro ⟨⟨key, other⟩, hentry, rfl⟩
    obtain ⟨hmem, hdiffers⟩ := List.mem_filter.mp hentry
    have hother := Std.ExtTreeMap.mem_toList_iff_getElem?_eq_some.mp hmem
    obtain rfl := hmigrated key other hother
    exact ⟨hother, of_decide_eq_true hdiffers⟩
  · rintro ⟨hrow, hdiffers⟩
    exact ⟨(row.id, row), List.mem_filter.mpr
      ⟨Std.ExtTreeMap.mem_toList_iff_getElem?_eq_some.mpr hrow, decide_eq_true hdiffers⟩, rfl⟩

theorem migratedRows_keyed (hashes : Dict String String) :
    (migratedRows remap hashes prior).Keyed := by
  intro key row hrow
  rw [getElem?_migratedRows] at hrow
  obtain ⟨before, hbefore, rfl⟩ := Option.map_eq_some_iff.mp hrow
  rw [StateNode.rehashed_id]
  exact rekeyed_keyed key before hbefore

/-- **What is written back is the migrated state.** -/
theorem persistMigration_eq (hfresh : Fresh remap prior) (hkeyed : prior.Keyed)
    (hashes : Dict String String) :
    persistMigration prior (migratedRows remap hashes prior) remap =
      migratedRows remap hashes prior := by
  have hmigrated : (migratedRows remap hashes prior).Keyed := migratedRows_keyed hashes
  generalize hrows : migratedRows remap hashes prior = migrated at hmigrated
  have hitem : ∀ row, row ∈ changedRows prior migrated ↔
      migrated[row.id]? = some row ∧ prior[row.id]? ≠ some row :=
    fun row => mem_changedRows hmigrated
  refine Std.ExtTreeMap.ext_getElem? fun nodeId => ?_
  rw [persistMigration, replaceMany]
  cases hrow : migrated[nodeId]? with
  | some row =>
    obtain rfl := hmigrated nodeId row hrow
    by_cases hsame : prior[row.id]? = some row
    · rw [getElem?_foldl_insert_of_forall_ne, getElem?_foldl_erase, if_neg, hsame]
      · intro hmem
        rw [← hrows, getElem?_migratedRows, getElem?_rekeyed_of_renamed hfresh hkeyed
          (Std.ExtTreeMap.mem_keys.mp hmem)] at hrow
        cases hrow
      · intro other hother hid
        obtain ⟨hfound, hdiffers⟩ := (hitem other).mp hother
        rw [hid, hrow, Option.some.injEq] at hfound
        exact hdiffers (hfound ▸ hsame)
    · refine getElem?_foldl_insert_of_forall_eq (.inl ((hitem row).mpr ⟨hrow, hsame⟩)) rfl ?_
      intro other hother hid
      obtain ⟨hfound, -⟩ := (hitem other).mp hother
      rw [hid, hrow, Option.some.injEq] at hfound
      exact hfound.symm
  | none =>
    rw [getElem?_foldl_insert_of_forall_ne, getElem?_foldl_erase]
    · split
      next => rfl
      next hkept =>
        rw [Std.ExtTreeMap.mem_keys] at hkept
        cases hprior : prior[nodeId]? with
        | none => rfl
        | some row =>
          rw [← hrows, getElem?_migratedRows,
            getElem?_rekeyed_of_kept hfresh hkeyed hprior hkept] at hrow
          cases hrow
    · intro other hother hid
      obtain ⟨hfound, -⟩ := (hitem other).mp hother
      rw [hid, hrow] at hfound
      cases hfound

/-- What the aliases make of the state: nothing, or the migrated rows. -/
theorem resolveAliases_eq_some {migrated : StateGraph}
    (hresolved : resolveAliases codec prior ir = some (migrated, remap)) :
    (remap = ∅ ∧ (aliasRemap prior ir).isEmpty ∧ migrated = prior) ∨
      ¬ remap.isEmpty ∧ remap = aliasRemap prior ir ∧
        ∃ hashes, rehash codec (rekeyed remap prior) ir = some hashes ∧
          migrated = migratedRows remap hashes prior := by
  unfold resolveAliases at hresolved
  dsimp only at hresolved
  split at hresolved
  next hempty =>
    cases hresolved
    exact .inl ⟨rfl, hempty, rfl⟩
  next hnonempty =>
    obtain ⟨hashes, hhashes, hpair⟩ := Option.map_eq_some_iff.mp hresolved
    cases hpair
    exact .inr ⟨hnonempty, rfl, hashes, hhashes, rfl⟩

/-- A migration writes nothing where nothing is renamed, and brings every row in line otherwise. -/
theorem aliasMigration_eq_some (hkeyed : prior.Keyed) {scope : List String} {after : StateGraph}
    (hmigration : aliasMigration codec scope prior ir = some after) :
    ((aliasRemap prior ir).isEmpty ∧ after = prior) ∨
      ¬ (aliasRemap prior ir).isEmpty ∧ ∃ hashes, rehash codec (rekeyed (aliasRemap prior ir) prior) ir = some hashes ∧
        after = migratedRows (aliasRemap prior ir) hashes prior ∧
        ∀ nodeId ∈ persistTouches prior after (aliasRemap prior ir), nodeId ∈ scope := by
  unfold aliasMigration at hmigration
  split at hmigration
  next => cases hmigration
  next migrated remap hresolved =>
    rcases resolveAliases_eq_some hresolved with
      ⟨rfl, hempty, rfl⟩ | ⟨hnonempty, rfl, hashes, hhashes, rfl⟩
    · cases hmigration
      exact .inl ⟨hempty, rfl⟩
    · rw [if_neg hnonempty] at hmigration
      split at hmigration
      next hcovered =>
        rw [persistMigration_eq (aliasRemap_fresh prior ir) hkeyed] at hmigration
        cases hmigration
        exact .inr ⟨hnonempty, hashes, hhashes, rfl, hcovered⟩
      next => cases hmigration

/-! ## What a migration leaves alone -/

/-- The row names no renamed node, and its hash is the one its node has now, unless it is poisoned. -/
def StateNode.Settled (remap hashes : Dict String String) (row : StateNode) : Prop :=
  row.rekey remap = row ∧ (row.inputHash = noInputHash ∨ hashes.getD row.id "" = row.inputHash)

theorem rehashed_rekey_eq (hashes : Dict String String) :
    (row.rekey remap).rehashed hashes = row ↔ row.Settled remap hashes := by
  have hhash : (row.rekey remap).inputHash = row.inputHash := rfl
  unfold StateNode.Settled StateNode.rehashed
  by_cases hpoisoned : row.inputHash = noInputHash
  · rw [if_pos (hhash.trans hpoisoned)]
    exact ⟨fun h => ⟨h, .inl hpoisoned⟩, fun h => h.1⟩
  · rw [if_neg fun h => hpoisoned (hhash.symm.trans h)]
    constructor
    · intro hsame
      have hrekey : row.rekey remap = row := by
        calc row.rekey remap
            = { ({ row.rekey remap with inputHash := hashes.getD (row.rekey remap).id "" } :
                StateNode) with inputHash := row.inputHash } := rfl
          _ = { row with inputHash := row.inputHash } := by rw [hsame]
          _ = row := rfl
      refine ⟨hrekey, .inr ?_⟩
      rw [hrekey] at hsame
      exact congrArg StateNode.inputHash hsame
    · rintro ⟨hrekey, hpoison | hfound⟩
      · exact (hpoisoned hpoison).elim
      · rw [hrekey, hfound]

/-- Whether a migration leaves what an id holds as it is. -/
theorem getElem?_migratedRows_eq (hfresh : Fresh remap prior) (hkeyed : prior.Keyed)
    (hashes : Dict String String) :
    (migratedRows remap hashes prior)[nodeId]? = prior[nodeId]? ↔
      (∀ oldId : String, remap[oldId]? ≠ some nodeId) ∧
        ∀ row, prior[nodeId]? = some row → row.Settled remap hashes := by
  rw [getElem?_migratedRows]
  cases hprior : prior[nodeId]? with
  | none =>
    have habsent : nodeId ∉ prior := by
      rw [Std.ExtTreeMap.mem_iff_isSome_getElem?, hprior]
      exact Bool.false_ne_true
    rw [Option.map_eq_none_iff]
    constructor
    · intro hnone
      refine ⟨fun oldId hrenamed => ?_, nofun⟩
      have hmem := mem_rekeyed_of_new hfresh hkeyed hrenamed
      rw [Std.ExtTreeMap.mem_iff_isSome_getElem?, hnone] at hmem
      cases hmem
    · rintro ⟨hnew, -⟩
      exact getElem?_rekeyed_of_absent hkeyed habsent hnew
  | some row =>
    have hrecorded : nodeId ∈ prior :=
      Std.ExtTreeMap.mem_iff_isSome_getElem?.mpr (by rw [hprior]; rfl)
    have hold : ∀ oldId : String, remap[oldId]? ≠ some nodeId :=
      fun oldId hrenamed => (hfresh oldId nodeId hrenamed).2 hrecorded
    by_cases hrenamed : nodeId ∈ remap
    · obtain ⟨newId, hnew⟩ := Option.isSome_iff_exists.mp
        (Std.ExtTreeMap.mem_iff_isSome_getElem?.mp hrenamed)
      rw [getElem?_rekeyed_of_renamed hfresh hkeyed hrenamed]
      constructor
      · nofun
      · rintro ⟨-, hsettled⟩
        have hid := congrArg StateNode.id (hsettled row rfl).1
        rw [StateNode.rekey, hkeyed nodeId row hprior, getD_of_renamed hnew] at hid
        obtain rfl : newId = nodeId := hid
        exact ((hfresh newId newId hnew).2 hrecorded).elim
    · rw [getElem?_rekeyed_of_kept hfresh hkeyed hprior hrenamed, Option.map_some,
        Option.some.injEq, rehashed_rekey_eq]
      constructor
      · rintro hsettled
        refine ⟨hold, fun other hother => ?_⟩
        cases hother
        exact hsettled
      · exact fun hboth => hboth.2 row rfl

end

end Atlantide
