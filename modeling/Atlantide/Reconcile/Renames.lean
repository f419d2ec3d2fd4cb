import Atlantide.IR.MerkleHash
import Atlantide.Reconcile.Aliases

/-! # What a rename does to the other rows

The renames lead from recorded ids to distinct ids that have no row, so no row is lost. The row of
an id that is still declared moves all the same if a new node names that id. A row that no rename
reaches keeps its contents, but its hash is taken anew from them. -/

namespace Atlantide

section

variable {codec : Codec} {prior migrated : StateGraph} {ir : IRGraph} {remap : Dict String String}
  {nodeId oldId newId : String} {row : StateNode}

/-! ## Where the renames lead -/

/-- What one node adds to the renames. -/
theorem addRename_cases (prior : StateGraph) (remap : Dict String String) (node : IRNode) :
    addRename prior remap node = remap ∨
      ∃ named ∈ node.aliases, node.id ∉ prior ∧ expandAlias named node.id ∈ prior ∧
        expandAlias named node.id ∉ remap ∧
        addRename prior remap node = remap.insert (expandAlias named node.id) node.id := by
  unfold addRename
  split
  next => exact .inl rfl
  next hnew =>
    split
    next oldId hold =>
      right
      obtain ⟨named, hnamed, rfl⟩ := List.mem_map.mp (List.mem_of_find?_eq_some hold)
      have hfound := List.find?_some hold
      obtain ⟨hrecorded, hfree⟩ := of_decide_eq_true hfound
      exact ⟨named, hnamed, hnew, hrecorded, hfree, rfl⟩
    next => exact .inl rfl

/-- Every rename was asked for by a node that the config declares and the state does not hold. -/
def NamedBy (nodes : List IRNode) (prior : StateGraph) (remap : Dict String String) : Prop :=
  ∀ oldId newId : String, remap[oldId]? = some newId →
    ∃ node ∈ nodes, node.id = newId ∧ newId ∉ prior ∧
      ∃ named ∈ node.aliases, expandAlias named newId = oldId

/-- No two rows are renamed to one id. -/
def OneToOne (remap : Dict String String) : Prop :=
  ∀ oldId other newId : String, remap[oldId]? = some newId → remap[other]? = some newId →
    oldId = other

theorem getElem?_insert_cases {old new : String}
    (hfound : (remap.insert old new)[oldId]? = some newId) :
    (oldId = old ∧ newId = new) ∨ remap[oldId]? = some newId := by
  rw [Std.ExtTreeMap.getElem?_insert] at hfound
  split at hfound
  next hsame =>
    cases hfound
    exact .inl ⟨(Std.LawfulEqCmp.eq_of_compare hsame).symm, rfl⟩
  next => exact .inr hfound

theorem NamedBy.addRename {nodes : List IRNode} (hnamed : NamedBy nodes prior remap)
    (node : IRNode) : NamedBy (nodes ++ [node]) prior (addRename prior remap node) := by
  have hkept : NamedBy (nodes ++ [node]) prior remap := by
    intro oldId newId hfound
    obtain ⟨other, hother, hrest⟩ := hnamed oldId newId hfound
    exact ⟨other, List.mem_append_left _ hother, hrest⟩
  rcases addRename_cases prior remap node with hsame | ⟨named, hmem, hnew, -, -, hinsert⟩
  · rwa [hsame]
  · rw [hinsert]
    intro oldId newId hfound
    rcases getElem?_insert_cases hfound with ⟨rfl, rfl⟩ | hold
    · exact ⟨node, List.mem_append_right _ (List.mem_singleton_self node), rfl, hnew, named, hmem, rfl⟩
    · exact hkept oldId newId hold

/-- A node whose id nobody was renamed to adds no clash. -/
theorem OneToOne.addRename (hone : OneToOne remap) {node : IRNode}
    (hunused : ∀ oldId : String, remap[oldId]? ≠ some node.id) :
    OneToOne (addRename prior remap node) := by
  rcases addRename_cases prior remap node with hsame | ⟨named, -, -, -, -, hinsert⟩
  · rwa [hsame]
  · rw [hinsert]
    intro oldId other newId hfound hother
    rcases getElem?_insert_cases hfound with ⟨rfl, rfl⟩ | hold
    · rcases getElem?_insert_cases hother with ⟨rfl, -⟩ | hold
      · rfl
      · exact (hunused other hold).elim
    · rcases getElem?_insert_cases hother with ⟨rfl, rfl⟩ | hold'
      · exact (hunused oldId hold).elim
      · exact hone oldId other newId hold hold'

theorem aliasRemap_namedBy (prior : StateGraph) (ir : IRGraph) :
    NamedBy ir.nodes prior (aliasRemap prior ir) := by
  have hfold : ∀ (nodes done : List IRNode) (remap : Dict String String),
      NamedBy done prior remap →
        NamedBy (done ++ nodes) prior (nodes.foldl (addRename prior) remap) := by
    intro nodes
    induction nodes with
    | nil =>
      intro done remap hnamed
      rwa [List.append_nil]
    | cons node nodes ih =>
      intro done remap hnamed
      have hrest := ih (done ++ [node]) _ (hnamed.addRename node)
      rwa [List.append_assoc] at hrest
  refine hfold ir.nodes [] ∅ fun oldId newId hnone => ?_
  rw [Std.ExtTreeMap.getElem?_empty] at hnone
  cases hnone

/-- **The renames are one to one.** -/
theorem aliasRemap_oneToOne (prior : StateGraph) (hdistinct : (ir.nodes.map (·.id)).Nodup) :
    OneToOne (aliasRemap prior ir) := by
  have hfold : ∀ (nodes done : List IRNode) (remap : Dict String String),
      NamedBy done prior remap → OneToOne remap → ((done ++ nodes).map (·.id)).Nodup →
        OneToOne (nodes.foldl (addRename prior) remap) := by
    intro nodes
    induction nodes with
    | nil => exact fun _ _ _ hone _ => hone
    | cons node nodes ih =>
      intro done remap hnamed hone hnodup
      refine ih (done ++ [node]) _ (hnamed.addRename node) (hone.addRename ?_) ?_
      · intro oldId hfound
        obtain ⟨other, hother, hid, -⟩ := hnamed oldId node.id hfound
        rw [List.map_append, List.map_cons] at hnodup
        exact (List.nodup_append.mp hnodup).2.2 _ (List.mem_map_of_mem hother) _
          (List.mem_cons_self ..) hid
      · rwa [List.append_assoc]
  refine hfold ir.nodes [] ∅ (fun oldId newId hnone => ?_) (fun oldId _ newId hnone => ?_) hdistinct
  all_goals
    rw [Std.ExtTreeMap.getElem?_empty] at hnone
    cases hnone

/-! ## No row is lost -/

/-- A table made of items of distinct new names has an entry for each. -/
theorem size_foldl_insert {items : List StateNode} : ∀ {table : StateGraph},
    (items.map (·.id)).Nodup → (∀ item ∈ items, item.id ∉ table) →
      (items.foldl (fun (table : StateGraph) item => table.insert item.id item) table).size =
        table.size + items.length := by
  induction items with
  | nil => exact fun _ _ => rfl
  | cons item items ih =>
    intro table hnodup hnew
    obtain ⟨hfirst, hrest⟩ := List.forall_mem_cons.mp hnew
    rw [List.map_cons, List.nodup_cons] at hnodup
    rw [List.foldl_cons, ih hnodup.2, Std.ExtTreeMap.size_insert,
      if_neg fun hcontains => hfirst (Std.ExtTreeMap.contains_iff_mem.mp hcontains),
      List.length_cons]
    · omega
    · intro other hother hmem
      rcases Std.ExtTreeMap.mem_insert.mp hmem with hsame | hold
      · refine hnodup.1 ?_
        rw [Std.LawfulEqCmp.eq_of_compare hsame]
        exact List.mem_map_of_mem hother
      · exact hrest other hother hold

/-- Distinct ids stay distinct. -/
theorem getD_injective (hfresh : Fresh remap prior) (hone : OneToOne remap) (hold : oldId ∈ prior)
    (hnew : newId ∈ prior) (hsame : remap.getD oldId oldId = remap.getD newId newId) :
    oldId = newId := by
  by_cases hmoved : oldId ∈ remap
  · obtain ⟨target, htarget⟩ := Option.isSome_iff_exists.mp
      (Std.ExtTreeMap.mem_iff_isSome_getElem?.mp hmoved)
    rw [getD_of_renamed htarget] at hsame
    by_cases hmoved' : newId ∈ remap
    · obtain ⟨other, hother⟩ := Option.isSome_iff_exists.mp
        (Std.ExtTreeMap.mem_iff_isSome_getElem?.mp hmoved')
      rw [getD_of_renamed hother] at hsame
      subst hsame
      exact hone oldId newId target htarget hother
    · rw [getD_of_not_mem hmoved'] at hsame
      exact ((hfresh oldId target htarget).2 (hsame ▸ hnew)).elim
  · rw [getD_of_not_mem hmoved] at hsame
    by_cases hmoved' : newId ∈ remap
    · obtain ⟨other, hother⟩ := Option.isSome_iff_exists.mp
        (Std.ExtTreeMap.mem_iff_isSome_getElem?.mp hmoved')
      rw [getD_of_renamed hother] at hsame
      exact ((hfresh newId other hother).2 (hsame ▸ hold)).elim
    · rwa [getD_of_not_mem hmoved'] at hsame

/-- The rekeyed rows are as many as before. -/
theorem size_rekeyed (hfresh : Fresh remap prior) (hone : OneToOne remap) (hkeyed : prior.Keyed) :
    (rekeyed remap prior).size = prior.size := by
  have hids : (prior.toList.map fun entry => entry.2.rekey remap).map (·.id) =
      prior.keys.map fun nodeId => remap.getD nodeId nodeId := by
    rw [← Std.ExtTreeMap.map_fst_toList_eq_keys, List.map_map, List.map_map]
    refine List.map_congr_left fun entry hmem => ?_
    have hid := hkeyed entry.1 entry.2 (Std.ExtTreeMap.mem_toList_iff_getElem?_eq_some.mp hmem)
    change remap.getD entry.2.id entry.2.id = remap.getD entry.1 entry.1
    rw [hid]
  rw [rekeyed, size_foldl_insert, List.length_map, Std.ExtTreeMap.length_toList]
  · simp
  · rw [hids]
    refine Std.ExtTreeMap.nodup_keys.map_on fun oldId hold newId hnew hsame => ?_
    exact getD_injective hfresh hone (Std.ExtTreeMap.mem_keys.mp hold)
      (Std.ExtTreeMap.mem_keys.mp hnew) hsame
  · exact fun _ _ => Std.ExtTreeMap.not_mem_empty

/-- Every row stands under its new id. -/
theorem getElem?_rekeyed (hfresh : Fresh remap prior) (hone : OneToOne remap)
    (hkeyed : prior.Keyed) (hrow : prior[nodeId]? = some row) :
    (rekeyed remap prior)[remap.getD nodeId nodeId]? = some (row.rekey remap) := by
  have hid : (row.rekey remap).id = remap.getD nodeId nodeId := by
    rw [StateNode.rekey, hkeyed nodeId row hrow]
  refine getElem?_foldl_insert_of_forall_eq (.inl ?_) hid fun other hother hsame => ?_
  · exact List.mem_map.mpr
      ⟨(nodeId, row), Std.ExtTreeMap.mem_toList_iff_getElem?_eq_some.mpr hrow, rfl⟩
  · obtain ⟨key, before, hbefore, rfl⟩ := mem_rekeyed_items hother
    rw [StateNode.rekey, hkeyed key before hbefore] at hsame
    obtain rfl : key = nodeId := by
      refine getD_injective hfresh hone ?_ ?_ hsame
      · exact Std.ExtTreeMap.mem_iff_isSome_getElem?.mpr (by rw [hbefore]; rfl)
      · exact Std.ExtTreeMap.mem_iff_isSome_getElem?.mpr (by rw [hrow]; rfl)
    rw [hrow] at hbefore
    cases hbefore
    rfl

/-! ## A row that no rename reaches -/

/-- Whether a marker of a renamed node is in the value. -/
def Value.movesAny (remap : Dict String String) (value : Value) : Bool :=
  value.any fun part => (part.moved remap).isSome

theorem Value.remapItems_eq (items : List Value) :
    remapItems remap items = items.map (remapRefs remap) := by
  induction items with
  | nil => rfl
  | cons item items ih => rw [remapItems, ih, List.map_cons]

theorem Value.remapFields_eq (fields : List (String × Value)) :
    remapFields remap fields = fields.map fun entry => (entry.1, remapRefs remap entry.2) := by
  induction fields with
  | nil => rfl
  | cons entry fields ih => rw [remapFields, ih, List.map_cons]

theorem Value.movesAny_empty (value : Value) : value.movesAny ∅ = false := by
  induction value using ind with
  | step value ih =>
    have hself : value.moved ∅ = none := by
      unfold moved
      cases value.refFromMarker with
      | none => rfl
      | some ref =>
        rw [Option.bind_eq_bind, Option.bind_some, Std.ExtTreeMap.getElem?_empty]
        rfl
    rw [movesAny, any_eq, hself, Option.isSome_none, Bool.false_or, List.any_eq_false]
    exact fun child hmem => Bool.eq_false_iff.mp (ih child hmem)

/-- A value without markers of renamed nodes stays as it is. -/
theorem Value.remapRefs_eq_self (value : Value) (hstays : value.movesAny remap = false) :
    value.remapRefs remap = value := by
  induction value using ind with
  | step value ih =>
    rw [movesAny, any_eq, Bool.or_eq_false_iff, List.any_eq_false] at hstays
    obtain ⟨hself, hchildren⟩ := hstays
    have hsame : ∀ child ∈ value.children, child.remapRefs remap = child :=
      fun child hmem => ih child hmem (Bool.eq_false_iff.mpr (hchildren child hmem))
    cases value with
    | list items =>
      rw [remapRefs, remapItems_eq]
      refine congrArg list ?_
      calc items.map (remapRefs remap)
          = items.map id := List.map_congr_left hsame
        _ = items := List.map_id items
    | dict fields =>
      rw [remapRefs, Option.not_isSome_iff_eq_none.mp (Bool.eq_false_iff.mp hself),
        Option.getD_none, remapFields_eq]
      refine congrArg dict ?_
      calc fields.map (fun entry => (entry.1, remapRefs remap entry.2))
          = fields.map id := by
            refine List.map_congr_left fun entry hmem => ?_
            exact Prod.ext rfl (hsame entry.2 (List.mem_map_of_mem hmem))
        _ = fields := List.map_id fields
    | _ => rfl

/-- Whether the row names a renamed node: in a marker, or by an edge to its old id or its new one. -/
def StateNode.Names (row : StateNode) (remap : Dict String String) : Prop :=
  (∃ (name : String) (value : Value), row.properties[name]? = some value ∧ value.movesAny remap) ∨
    (∃ dep ∈ row.edges, dep ∈ remap) ∨
    ∃ dep ∈ row.edges, ∃ oldId : String, remap[oldId]? = some dep

instance (row : StateNode) (remap : Dict String String) : Decidable (row.Names remap) :=
  decidable_of_iff
    ((∃ entry ∈ row.properties.toList, entry.2.movesAny remap) ∨ (∃ dep ∈ row.edges, dep ∈ remap) ∨
      ∃ dep ∈ row.edges, ∃ entry ∈ remap.toList, entry.2 = dep) (by
    simp only [StateNode.Names, Prod.exists, Std.ExtTreeMap.mem_toList_iff_getElem?_eq_some,
      exists_eq_right])

theorem StateNode.not_names_empty (row : StateNode) : ¬ row.Names ∅ := by
  rintro (⟨_, value, -, hmoves⟩ | ⟨_, -, hmem⟩ | ⟨_, -, oldId, hfound⟩)
  · rw [value.movesAny_empty] at hmoves
    cases hmoves
  · exact Std.ExtTreeMap.not_mem_empty hmem
  · rw [Std.ExtTreeMap.getElem?_empty] at hfound
    cases hfound

theorem map_getD_eq_self {deps : List String} (hkept : ∀ dep ∈ deps, dep ∉ remap) :
    (deps.map fun dep => remap.getD dep dep) = deps := by
  calc (deps.map fun dep => remap.getD dep dep)
      = deps.map id := List.map_congr_left fun dep hdep => getD_of_not_mem (hkept dep hdep)
    _ = deps := List.map_id deps

/-- A row that is not renamed and names no renamed node keeps its contents. -/
theorem StateNode.rekey_eq_self (hkept : row.id ∉ remap) (hnames : ¬ row.Names remap) :
    row.rekey remap = row := by
  have hedges : ∀ dep ∈ row.edges, dep ∉ remap :=
    fun dep hdep hmem => hnames (.inr (.inl ⟨dep, hdep, hmem⟩))
  have hproperties : (row.properties.map fun _ value => value.remapRefs remap) =
      row.properties := by
    refine Std.ExtTreeMap.ext_getElem? fun name => ?_
    rw [Std.ExtTreeMap.getElem?_map]
    cases hvalue : row.properties[name]? with
    | none => rfl
    | some value =>
      refine congrArg some (value.remapRefs_eq_self ?_)
      exact Bool.eq_false_iff.mpr fun hmoves => hnames (.inl ⟨name, value, hvalue, hmoves⟩)
  have hdeps := map_getD_eq_self fun dep hdep => hedges dep (List.mem_append_left _ hdep)
  have hdependsOn := map_getD_eq_self fun dep hdep => hedges dep (List.mem_append_right _ hdep)
  rw [rekey, hproperties, hdeps, hdependsOn, getD_of_not_mem hkept]

/-- **What a migration keeps.** The renames are one to one and lead to ids without a row, no row is
lost, and every row stands under its own id unless a node that has no row yet names that id. -/
theorem resolveAliases_keeps_rows (hkeyed : prior.Keyed)
    (hdistinct : (ir.nodes.map (·.id)).Nodup) :
    OneToOne (aliasRemap prior ir) ∧ Fresh (aliasRemap prior ir) prior ∧
      ∀ (migrated : StateGraph) (remap : Dict String String),
        resolveAliases codec prior ir = some (migrated, remap) →
          migrated.size = prior.size ∧
          ∀ (nodeId : String) (row : StateNode), prior[nodeId]? = some row →
            (∃ hash, migrated[nodeId]? = some { row.rekey remap with inputHash := hash }) ∨
            ∃ node ∈ ir.nodes, node.id ∉ prior ∧
              (∃ named ∈ node.aliases, expandAlias named node.id = nodeId) ∧
              ∃ hash, migrated[node.id]? = some { row.rekey remap with inputHash := hash } := by
  have hone := aliasRemap_oneToOne prior hdistinct
  have hfresh := aliasRemap_fresh prior ir
  refine ⟨hone, hfresh, fun migrated remap hresolved => ?_⟩
  rcases resolveAliases_eq_some hresolved with
    ⟨rfl, -, rfl⟩ | ⟨-, rfl, hashes, -, rfl⟩
  · refine ⟨rfl, fun nodeId row hrow => .inl ⟨row.inputHash, ?_⟩⟩
    rw [StateNode.rekey_eq_self Std.ExtTreeMap.not_mem_empty row.not_names_empty]
    exact hrow
  · refine ⟨?_, fun nodeId row hrow => ?_⟩
    · rw [migratedRows, Std.ExtTreeMap.size_map, size_rekeyed hfresh hone hkeyed]
    · have hstands := getElem?_rekeyed hfresh hone hkeyed hrow
      have hmigrated : ∃ hash, (migratedRows (aliasRemap prior ir) hashes prior)[
          (aliasRemap prior ir).getD nodeId nodeId]? =
            some { row.rekey (aliasRemap prior ir) with inputHash := hash } := by
        rw [getElem?_migratedRows, hstands, Option.map_some, StateNode.rehashed]
        split
        next => exact ⟨row.inputHash, rfl⟩
        next => exact ⟨_, rfl⟩
      by_cases hmoved : nodeId ∈ aliasRemap prior ir
      · right
        obtain ⟨newId, hnew⟩ := Option.isSome_iff_exists.mp
          (Std.ExtTreeMap.mem_iff_isSome_getElem?.mp hmoved)
        obtain ⟨node, hnode, rfl, hunrecorded, hnamed⟩ :=
          aliasRemap_namedBy prior ir nodeId newId hnew
        rw [getD_of_renamed hnew] at hmigrated
        exact ⟨node, hnode, hunrecorded, hnamed, hmigrated⟩
      · left
        rwa [getD_of_not_mem hmoved] at hmigrated

/-! ## The hash of a row that no rename reaches -/

/-- A rename reaches a row that is renamed, one that names a renamed node, and every row that
depends on one it reaches. -/
inductive Reached (prior : StateGraph) (remap : Dict String String) : String → Prop
  | renamed {nodeId : String} (moved : nodeId ∈ remap) : Reached prior remap nodeId
  | naming {nodeId : String} {row : StateNode} (recorded : prior[nodeId]? = some row)
      (names : row.Names remap) : Reached prior remap nodeId
  | through {nodeId dep : String} {row : StateNode} (recorded : prior[nodeId]? = some row)
      (depends : dep ∈ row.dependencies) (reached : Reached prior remap dep) :
      Reached prior remap nodeId

/-- No rename reaches a set of rows that names none and depends on itself alone. -/
theorem not_reached {ids : List String}
    (hclosed : ∀ nodeId ∈ ids, nodeId ∉ remap ∧ ∀ row ∈ prior[nodeId]?, ¬ row.Names remap ∧
      ∀ dep ∈ row.dependencies, dep ∈ ids) :
    ∀ nodeId ∈ ids, ¬ Reached prior remap nodeId := by
  intro nodeId hmem hreached
  induction hreached with
  | renamed hmoved => exact (hclosed _ hmem).1 hmoved
  | naming hrow hnames => exact ((hclosed _ hmem).2 _ hrow).1 hnames
  | through hrow hdep _ ih => exact ih (((hclosed _ hmem).2 _ hrow).2 _ hdep)

/-- The row as a node of the config that the rehash takes. -/
def StateNode.synthetic (row : StateNode) (state : StateGraph) (ir : IRGraph) : IRNode :=
  { row.irNode state with
    properties := row.properties
    ignoreChanges := ((ir.byId[row.id]?).map (·.ignoreChanges)).getD [] }

theorem syntheticIr_byId {state : StateGraph} (hkeyed : state.Keyed) (ir : IRGraph)
    (nodeId : String) :
    (syntheticIr state ir).byId[nodeId]? = (state[nodeId]?).map (·.synthetic state ir) := by
  have hids : ((syntheticIr state ir).nodes.map (·.id)) = state.keys := by
    rw [← Std.ExtTreeMap.map_fst_toList_eq_keys, syntheticIr, List.map_map]
    refine List.map_congr_left fun entry hmem => ?_
    exact hkeyed entry.1 entry.2 (Std.ExtTreeMap.mem_toList_iff_getElem?_eq_some.mp hmem)
  refine Option.ext fun node => ?_
  rw [IRGraph.byId, getElem?_foldl_insert (hids ▸ Std.ExtTreeMap.nodup_keys), Option.map_eq_some_iff]
  simp only [Std.ExtTreeMap.getElem?_empty, reduceCtorEq, false_and, or_false, syntheticIr,
    List.mem_map, Prod.exists, Std.ExtTreeMap.mem_toList_iff_getElem?_eq_some]
  constructor
  · rintro ⟨⟨key, row, hrow, rfl⟩, hid⟩
    obtain rfl : key = nodeId := (hkeyed key row hrow).symm.trans hid
    exact ⟨row, hrow, rfl⟩
  · rintro ⟨row, hrow, rfl⟩
    exact ⟨⟨nodeId, row, hrow, rfl⟩, hkeyed nodeId row hrow⟩

/-- An unreached row stands as it was among the rekeyed ones. -/
theorem getElem?_rekeyed_of_unreached (hfresh : Fresh remap prior) (hkeyed : prior.Keyed)
    (hrow : prior[nodeId]? = some row) (hreached : ¬ Reached prior remap nodeId) :
    (rekeyed remap prior)[nodeId]? = some row := by
  have hkept : nodeId ∉ remap := fun hmem => hreached (.renamed hmem)
  have hsame : row.rekey remap = row :=
    StateNode.rekey_eq_self (hkeyed nodeId row hrow ▸ hkept) fun hnames =>
      hreached (.naming hrow hnames)
  rw [getElem?_rekeyed_of_kept hfresh hkeyed hrow hkept, hsame]

theorem mem_rekeyed_of_not_named (hfresh : Fresh remap prior) (hkeyed : prior.Keyed) {dep : String}
    (hkept : dep ∉ remap) (hnew : ∀ oldId : String, remap[oldId]? ≠ some dep) :
    dep ∈ rekeyed remap prior ↔ dep ∈ prior := by
  constructor
  · intro hmem
    by_contra habsent
    rw [Std.ExtTreeMap.mem_iff_isSome_getElem?,
      getElem?_rekeyed_of_absent hkeyed habsent hnew] at hmem
    cases hmem
  · intro hmem
    obtain ⟨row, hrow⟩ := Option.isSome_iff_exists.mp
      (Std.ExtTreeMap.mem_iff_isSome_getElem?.mp hmem)
    rw [Std.ExtTreeMap.mem_iff_isSome_getElem?,
      getElem?_rekeyed_of_kept hfresh hkeyed hrow hkept]
    rfl

/-- The edges of a row that names no renamed node lead to the same rows before and after. -/
theorem StateNode.irNode_rekeyed (hfresh : Fresh remap prior) (hkeyed : prior.Keyed)
    (hnames : ¬ row.Names remap) : row.irNode (rekeyed remap prior) = row.irNode prior := by
  have hsame : ∀ dep ∈ row.edges,
      decide (dep ∈ rekeyed remap prior) = decide (dep ∈ prior) := by
    intro dep hdep
    refine decide_eq_decide.mpr (mem_rekeyed_of_not_named hfresh hkeyed ?_ ?_)
    · exact fun hmem => hnames (.inr (.inl ⟨dep, hdep, hmem⟩))
    · exact fun oldId hfound => hnames (.inr (.inr ⟨dep, hdep, oldId, hfound⟩))
  have hdeps : row.dependencies.filter (· ∈ rekeyed remap prior) =
      row.dependencies.filter (· ∈ prior) :=
    List.filter_congr fun dep hdep => hsame dep (List.mem_append_left _ hdep)
  have hdependsOn : row.dependsOn.filter (· ∈ rekeyed remap prior) =
      row.dependsOn.filter (· ∈ prior) :=
    List.filter_congr fun dep hdep => hsame dep (List.mem_append_right _ hdep)
  rw [irNode, hdeps, hdependsOn, irNode]

/-- The config that the rehash takes has the same node for an id that no rename reaches. -/
theorem syntheticIr_unreached (hfresh : Fresh remap prior) (hkeyed : prior.Keyed)
    (hreached : ¬ Reached prior remap nodeId) (hrecorded : nodeId ∈ prior) :
    (syntheticIr (rekeyed remap prior) ir).byId[nodeId]? = (syntheticIr prior ir).byId[nodeId]? := by
  obtain ⟨row, hrow⟩ := Option.isSome_iff_exists.mp
    (Std.ExtTreeMap.mem_iff_isSome_getElem?.mp hrecorded)
  have hnames : ¬ row.Names remap := fun hnames => hreached (.naming hrow hnames)
  rw [syntheticIr_byId rekeyed_keyed, syntheticIr_byId hkeyed, hrow,
    getElem?_rekeyed_of_unreached hfresh hkeyed hrow hreached, Option.map_some, Option.map_some,
    StateNode.synthetic, StateNode.irNode_rekeyed hfresh hkeyed hnames, StateNode.synthetic]

/-- A row depends on recorded ids alone, and is reached where one of them is. -/
theorem syntheticIr_closed (hkeyed : prior.Keyed) (hreached : ¬ Reached prior remap nodeId)
    {node : IRNode} (hfound : (syntheticIr prior ir).byId[nodeId]? = some node) :
    ∀ dep ∈ node.dependencies, ¬ Reached prior remap dep ∧ dep ∈ prior := by
  rw [syntheticIr_byId hkeyed] at hfound
  obtain ⟨row, hrow, rfl⟩ := Option.map_eq_some_iff.mp hfound
  intro dep hdep
  obtain ⟨hdep, hpresent⟩ := List.mem_filter.mp hdep
  exact ⟨fun hdown => hreached (.through hrow hdep hdown), of_decide_eq_true hpresent⟩

/-- The rename leaves the hash of an unreached id's contents as it is. -/
theorem merkleHash_rekeyed (hfresh : Fresh remap prior) (hkeyed : prior.Keyed)
    (hreached : ¬ Reached prior remap nodeId) (hrecorded : nodeId ∈ prior) {hash : String} :
    MerkleHash codec (syntheticIr (rekeyed remap prior) ir) nodeId hash ↔
      MerkleHash codec (syntheticIr prior ir) nodeId hash := by
  have hsame : ∀ nodeId, ¬ Reached prior remap nodeId ∧ nodeId ∈ prior →
      (syntheticIr (rekeyed remap prior) ir).byId[nodeId]? =
        (syntheticIr prior ir).byId[nodeId]? :=
    fun nodeId hkept => syntheticIr_unreached hfresh hkeyed hkept.1 hkept.2
  have hclosed : ∀ nodeId node, ¬ Reached prior remap nodeId ∧ nodeId ∈ prior →
      (syntheticIr prior ir).byId[nodeId]? = some node →
        ∀ dep ∈ node.dependencies, ¬ Reached prior remap dep ∧ dep ∈ prior :=
    fun nodeId node hkept hfound => syntheticIr_closed hkeyed hkept.1 hfound
  constructor
  · intro hhash
    refine hhash.transfer ⟨hreached, hrecorded⟩ (fun nodeId hkept => (hsame nodeId hkept).symm) ?_
    intro nodeId node hkept hfound
    exact hclosed nodeId node hkept ((hsame nodeId hkept).symm.trans hfound)
  · exact fun hhash => hhash.transfer ⟨hreached, hrecorded⟩ hsame hclosed

/-- The hash that the rehash gives a recorded id. -/
theorem rehash_getD {state : StateGraph} (hkeyed : state.Keyed) {hashes : Dict String String}
    (hhashes : rehash codec state ir = some hashes) (hrecorded : nodeId ∈ state) :
    MerkleHash codec (syntheticIr state ir) nodeId (hashes.getD nodeId "") := by
  refine inputHashes_getD (show inputHashes codec (syntheticIr state ir) = some hashes from hhashes) ?_
  rw [Std.ExtTreeMap.mem_iff_isSome_getElem?, syntheticIr_byId hkeyed, Option.isSome_map]
  exact Std.ExtTreeMap.mem_iff_isSome_getElem?.mp hrecorded

/-- The recorded hash is the one of what the row records, unless the row is poisoned. -/
def StateNode.HashCurrent (row : StateNode) (codec : Codec) (prior : StateGraph) (ir : IRGraph) :
    Prop :=
  row.inputHash = noInputHash ∨ MerkleHash codec (syntheticIr prior ir) row.id row.inputHash

/-- **What a rename leaves alone.** Every row that it does not reach comes out as it was exactly when
nothing is renamed, or each of these rows records the hash of its own contents. -/
theorem resolveAliases_frame_iff (hkeyed : prior.Keyed)
    (hresolved : resolveAliases codec prior ir = some (migrated, remap)) :
    (∀ (nodeId : String) (row : StateNode), prior[nodeId]? = some row →
      ¬ Reached prior remap nodeId → migrated[nodeId]? = some row) ↔
    remap.isEmpty ∨ ∀ (nodeId : String) (row : StateNode), prior[nodeId]? = some row →
      ¬ Reached prior remap nodeId → row.HashCurrent codec prior ir := by
  rcases resolveAliases_eq_some hresolved with
    ⟨rfl, -, rfl⟩ | ⟨hnonempty, rfl, hashes, hhashes, rfl⟩
  · exact ⟨fun _ => .inl Std.ExtTreeMap.isEmpty_empty, fun _ _ _ hrow _ => hrow⟩
  · have hfresh := aliasRemap_fresh prior ir
    have hrow_iff : ∀ (nodeId : String) (row : StateNode), prior[nodeId]? = some row →
        ¬ Reached prior (aliasRemap prior ir) nodeId →
          ((migratedRows (aliasRemap prior ir) hashes prior)[nodeId]? = some row ↔
            row.HashCurrent codec prior ir) := by
      intro nodeId row hrow hreached
      have hrecorded : nodeId ∈ prior :=
        Std.ExtTreeMap.mem_iff_isSome_getElem?.mpr (by rw [hrow]; rfl)
      have hstands := getElem?_rekeyed_of_unreached hfresh hkeyed hrow hreached
      have hhash := rehash_getD rekeyed_keyed hhashes
        (Std.ExtTreeMap.mem_iff_isSome_getElem?.mpr (by rw [hstands]; rfl))
      have hkept : nodeId ∉ aliasRemap prior ir := fun hmem => hreached (.renamed hmem)
      have hsame : row.rekey (aliasRemap prior ir) = row :=
        StateNode.rekey_eq_self (hkeyed nodeId row hrow ▸ hkept) fun hnames =>
          hreached (.naming hrow hnames)
      rw [getElem?_migratedRows, hstands, Option.map_some, Option.some.injEq]
      have hsettled := @rehashed_rekey_eq (aliasRemap prior ir) row hashes
      rw [hsame] at hsettled
      rw [hsettled, StateNode.Settled, StateNode.HashCurrent, hkeyed nodeId row hrow,
        ← merkleHash_rekeyed hfresh hkeyed hreached hrecorded]
      constructor
      · rintro ⟨-, hpoisoned | hcurrent⟩
        · exact .inl hpoisoned
        · exact .inr (hcurrent ▸ hhash)
      · rintro (hpoisoned | hcurrent)
        · exact ⟨hsame, .inl hpoisoned⟩
        · exact ⟨hsame, .inr (hhash.unique hcurrent)⟩
    constructor
    · intro hall
      right
      exact fun nodeId row hrow hreached =>
        (hrow_iff nodeId row hrow hreached).mp (hall nodeId row hrow hreached)
    · rintro (hempty | hall)
      · exact (hnonempty hempty).elim
      · exact fun nodeId row hrow hreached =>
          (hrow_iff nodeId row hrow hreached).mpr (hall nodeId row hrow hreached)

end

namespace Renamed

def text : Value → String
  | .str text => text
  | _ => ""

/-- Nodes that set different texts, or depend on such nodes, have different hashes. -/
def codec : Codec where
  canonical
    | .dict [(_, .list deps), (_, .dict properties), _] =>
      String.join (properties.map fun entry => entry.1 ++ text entry.2) ++
        "(" ++ String.join (deps.map text) ++ ")"
    | _ => ""
  sha256 := id
  transform _ _ := .error .shape

def sized (size : String) : Dict String Value := insert ("size", .str size) ∅

def row (id : String) (properties : Dict String Value) (deps : List String) (hash : String) :
    StateNode :=
  { id := id, type := "t", provider := "p", providerVersion := "1", inputHash := hash
    properties := properties, dependencies := deps }

def node (id : String) (properties : Dict String Value) (deps aliases : List String) : IRNode :=
  { id := id, type := "t", provider := "p", providerVersion := "1", properties := properties
    dependencies := deps, aliases := aliases }

/-- Three nodes; `a` was applied again, with another size, and `d`, which depends on it, was not. -/
def prior : StateGraph :=
  insert ("s:t:a", row "s:t:a" (sized "2") [] "size2()")
    (insert ("s:t:b", row "s:t:b" ∅ [] "()")
      (insert ("s:t:d", row "s:t:d" ∅ ["s:t:a"] "(size1())") ∅))

/-- `b` is still declared, and a new node names it as an alias. -/
def taking : IRGraph := ⟨[node "s:t:b" ∅ [] [], node "s:t:c" ∅ [] ["b"]]⟩

/-- `b` is renamed to `c`. -/
def wanted : IRGraph :=
  ⟨[node "s:t:a" (sized "2") [] [], node "s:t:c" ∅ [] ["b"], node "s:t:d" ∅ ["s:t:a"] []]⟩

/-- What is computed of the rows and of the config that renames `b`. -/
theorem wanted_evaluated :
    (prior.toList.all fun entry => entry.2.id = entry.1) = true ∧
      (prior["s:t:d"]?).map (·.inputHash) = some "(size1())" ∧
      ¬ (aliasRemap prior wanted).isEmpty ∧
      (∀ nodeId ∈ ["s:t:a", "s:t:d"], nodeId ∉ aliasRemap prior wanted ∧
        ∀ row ∈ prior[nodeId]?, ¬ row.Names (aliasRemap prior wanted) ∧
          ∀ dep ∈ row.dependencies, dep ∈ ["s:t:a", "s:t:d"]) ∧
      ((resolveAliases codec prior wanted).any fun result =>
        decide ((result.1["s:t:d"]?).map (·.inputHash) = some "(size2())")) = true := by
  decide +kernel

theorem prior_keyed : prior.Keyed := by
  intro nodeId row hrow
  simpa using List.all_eq_true.mp wanted_evaluated.1 (nodeId, row)
    (Std.ExtTreeMap.mem_toList_iff_getElem?_eq_some.mpr hrow)

theorem resolveAliases_keeps_rows_taking : OneToOne (aliasRemap prior taking) :=
  (@resolveAliases_keeps_rows codec prior taking prior_keyed (by decide +kernel)).1

/-- A declared node's row goes to the new node that names its id. -/
theorem declared_row_taken :
    "s:t:b" ∈ taking.nodes.map (·.id) ∧ "s:t:b" ∈ prior ∧
      ∃ migrated remap, resolveAliases codec prior taking = some (migrated, remap) ∧
        migrated["s:t:b"]? = none := by
  have htaken : ((resolveAliases codec prior taking).any fun result =>
      decide (result.1["s:t:b"]? = none)) = true := by
    decide +kernel
  obtain ⟨⟨migrated, remap⟩, hresolved, hnone⟩ := (Option.any_eq_true _ _).mp htaken
  exact ⟨by decide +kernel, by decide +kernel, migrated, remap, hresolved,
    of_decide_eq_true hnone⟩

theorem d_unreached : ¬ Reached prior (aliasRemap prior wanted) "s:t:d" := by
  exact not_reached wanted_evaluated.2.2.2.1 _ (by decide)

theorem d_rehashed : ∃ migrated remap, resolveAliases codec prior wanted =
    some (migrated, remap) ∧ ¬ Reached prior remap "s:t:d" ∧
      (migrated["s:t:d"]?).map (·.inputHash) = some "(size2())" := by
  obtain ⟨⟨migrated, remap⟩, hresolved, hhash⟩ :=
    (Option.any_eq_true _ _).mp wanted_evaluated.2.2.2.2
  refine ⟨migrated, remap, hresolved, ?_, of_decide_eq_true hhash⟩
  rcases resolveAliases_eq_some hresolved with ⟨-, hempty, -⟩ | ⟨-, rfl, -⟩
  · exact absurd hempty wanted_evaluated.2.2.1
  · exact d_unreached

theorem d_recorded : (prior["s:t:d"]?).map (·.inputHash) = some "(size1())" := wanted_evaluated.2.1

/-- The frame fails, since the row of `d` does not record the hash of its contents. -/
theorem resolveAliases_frame_iff_wanted : ∃ migrated remap,
    resolveAliases codec prior wanted = some (migrated, remap) ∧
      ¬ (remap.isEmpty ∨ ∀ (nodeId : String) (row : StateNode), prior[nodeId]? = some row →
        ¬ Reached prior remap nodeId → row.HashCurrent codec prior wanted) := by
  obtain ⟨migrated, remap, hresolved, hreached, hafter⟩ := d_rehashed
  refine ⟨migrated, remap, hresolved, fun hcurrent => ?_⟩
  have hframe := (resolveAliases_frame_iff prior_keyed hresolved).mpr hcurrent
  obtain ⟨row, hrow, hbefore⟩ := Option.map_eq_some_iff.mp d_recorded
  rw [hframe "s:t:d" row hrow hreached, Option.map_some, hbefore] at hafter
  exact absurd hafter (by decide)

/-- A rename of `b` makes the row of `d` pass for one that was applied after its upstream: the
hash it has then is the one that the config wants. -/
theorem stale_hash_refreshed : ∃ migrated remap, resolveAliases codec prior wanted =
    some (migrated, remap) ∧ ¬ Reached prior remap "s:t:d" ∧
      (migrated["s:t:d"]?).map (·.inputHash) ≠ (prior["s:t:d"]?).map (·.inputHash) ∧
      (migrated["s:t:d"]?).map (·.inputHash) =
        (merkleHashes codec wanted ["s:t:a", "s:t:c", "s:t:d"]).bind (·["s:t:d"]?) := by
  obtain ⟨migrated, remap, hresolved, hreached, hafter⟩ := d_rehashed
  refine ⟨migrated, remap, hresolved, hreached, ?_, ?_⟩
  · rw [hafter, d_recorded]
    decide
  · rw [hafter]
    decide +kernel

end Renamed

end Atlantide
