import Atlantide.Reconcile.Diff

/-! # What the diff leaves unchanged behind a recreated upstream

The second pass re-classifies a node knowing what moves, after the nodes to pull back were computed
from the first pass. An UPDATE it promotes to a REPLACE pulls nothing back. -/

namespace Atlantide

open Closure

theorem IRGraph.byId_id {ir : IRGraph} {nodeId : String} {node : IRNode}
    (hnode : ir.byId[nodeId]? = some node) : node.id = nodeId := by
  suffices h : ∀ (nodes : List IRNode) (table : Dict String IRNode),
      (∀ key (entry : IRNode), table[key]? = some entry → entry.id = key) →
      ∀ key (entry : IRNode), (nodes.foldl (fun table node => table.insert node.id node) table)[key]? =
        some entry → entry.id = key from
    h ir.nodes ∅ (fun key entry hentry => by simp at hentry) nodeId node hnode
  intro nodes
  induction nodes with
  | nil => exact fun table htable => htable
  | cons first nodes ih =>
    intro table htable
    apply ih
    intro key entry hentry
    rw [Std.ExtTreeMap.getElem?_insert] at hentry
    split at hentry
    next hsame =>
      cases hentry
      exact Std.LawfulEqCmp.eq_of_compare hsame
    next => exact htable key entry hentry

namespace DiffInputs

variable {inputs : DiffInputs} {replace moved : List String} {change : Change}
  {want : IRNode} {row : StateNode}

theorem classify_action (want : IRNode) (row : StateNode) (moved : List String) :
    (inputs.classify want row moved).action = .update ∨
      (inputs.classify want row moved).action = .replace := by
  rw [classify, classifyNode_action]
  split
  · exact .inr rfl
  · exact .inl rfl

theorem changeFor_nodeId (nodeId : String) : (inputs.changeFor nodeId).nodeId = nodeId := by
  unfold changeFor
  split
  · rfl
  · rfl
  next want row hwant hrow =>
    have hid : want.id = nodeId := IRGraph.byId_id hwant
    split_ifs
    · rfl
    · exact (classifyNode_nodeId ..).trans hid
    · rfl
    · exact (classifyNode_nodeId ..).trans hid

theorem forced_nodeId (change : Change) : (forced change).nodeId = change.nodeId := by
  unfold forced
  split <;> rfl

/-- A node the first pass does not mention by itself was forced, and is a REPLACE. -/
theorem firstPass_cases (hmem : change ∈ inputs.firstPass replace) :
    change = inputs.changeFor change.nodeId ∨ change.action = .replace := by
  obtain ⟨plain, hplain, rfl⟩ := List.mem_map.mp hmem
  obtain ⟨nodeId, -, rfl⟩ := List.mem_map.mp hplain
  split
  · rw [forced_nodeId, changeFor_nodeId]
    unfold forced
    split
    all_goals first | exact .inl rfl | exact .inr rfl
  · exact .inl (by rw [changeFor_nodeId])

/-- A NOOP is a node of both sides, and its row is confirmed. -/
theorem changeFor_noop {nodeId : String} (hnoop : (inputs.changeFor nodeId).action = .noop) :
    ∃ want row, inputs.wanted nodeId = some want ∧ inputs.prior[nodeId]? = some row ∧
      row.status = .created ∧ inputs.desiredHashes nodeId = row.inputHash ∧
      inputs.changeFor nodeId = { nodeId := nodeId, action := .noop, desired := some want
                                  prior := some row
                                  stateOnly := want.preventDestroy ≠ row.preventDestroy } := by
  unfold changeFor at hnoop ⊢
  split at hnoop
  · cases hnoop
  · cases hnoop
  next want row hwant hrow =>
    split_ifs at hnoop with hstatus hhash hmoved
    · rcases inputs.classify_action want row [] with h | h <;>
        rw [h] at hnoop <;> cases hnoop
    · refine ⟨want, row, hwant, hrow, not_not.mp hstatus, hhash, ?_⟩
      rw [if_neg hstatus, if_pos hhash, if_neg hmoved]
    · rcases inputs.classify_action want row [] with h | h <;>
        rw [h] at hnoop <;> cases hnoop

/-- An UPDATE of the first pass is a classification with nothing moving. -/
theorem changeFor_update {nodeId : String} (hupdate : (inputs.changeFor nodeId).action = .update) :
    ∃ want row, inputs.wanted nodeId = some want ∧ inputs.prior[nodeId]? = some row ∧
      inputs.changeFor nodeId = inputs.classify want row [] := by
  unfold changeFor at hupdate ⊢
  split at hupdate
  · cases hupdate
  · cases hupdate
  next want row hwant hrow =>
    split_ifs at hupdate with hstatus hhash hmoved
    · refine ⟨want, row, hwant, hrow, ?_⟩
      rw [if_neg hstatus, if_pos hhash, if_pos hmoved]
    · refine ⟨want, row, hwant, hrow, ?_⟩
      rw [if_neg hstatus, if_neg hhash]

theorem firstPass_noop (hmem : change ∈ inputs.firstPass replace) (hnoop : change.action = .noop) :
    ∃ want row, inputs.wanted change.nodeId = some want ∧
      inputs.prior[change.nodeId]? = some row ∧ row.status = .created := by
  rcases firstPass_cases hmem with hplain | hreplace
  · rw [hplain] at hnoop
    obtain ⟨want, row, hwant, hrow, hstatus, -⟩ := changeFor_noop hnoop
    exact ⟨want, row, hwant, hrow, hstatus⟩
  · rw [hreplace] at hnoop
    cases hnoop

/-- Everything the second pass does to a first-pass change. -/
theorem refine_cases (stale moved : List String) (hmem : change ∈ inputs.firstPass replace) :
    (∃ want row, inputs.wanted change.nodeId = some want ∧
        inputs.prior[change.nodeId]? = some row ∧
        inputs.refine stale moved change = inputs.classify want row moved ∧
        ((change.action = .noop ∧ change.nodeId ∈ stale) ∨
          ((change.action = .update ∨ change.action = .replace) ∧
            forcedField ∉ change.changedFields))) ∨
      (inputs.refine stale moved change = change ∧
        (change.action = .noop → change.nodeId ∉ stale) ∧
        (change.action = .update → forcedField ∈ change.changedFields)) := by
  unfold refine
  split
  next want row hwant hrow =>
    split
    next haction =>
      split
      next hstale => exact .inl ⟨want, row, hwant, hrow, rfl, .inl ⟨haction, hstale⟩⟩
      next hfresh =>
        exact .inr ⟨rfl, fun _ => hfresh, by simp [haction]⟩
    next haction =>
      split
      next hforced =>
        exact .inr ⟨rfl, by simp [haction], fun _ => hforced⟩
      next hforced => exact .inl ⟨want, row, hwant, hrow, rfl, .inr ⟨.inl haction, hforced⟩⟩
    next haction =>
      split
      next hforced =>
        exact .inr ⟨rfl, by simp [haction], fun _ => hforced⟩
      next hforced => exact .inl ⟨want, row, hwant, hrow, rfl, .inr ⟨.inr haction, hforced⟩⟩
    next hnoop hupdate _ => exact .inr ⟨rfl, fun h => absurd h hnoop, fun h => absurd h hupdate⟩
  next hmissing =>
    refine .inr ⟨rfl, fun hnoop => ?_, fun hupdate => ?_⟩
    · obtain ⟨want, row, hwant, hrow, -⟩ := firstPass_noop hmem hnoop
      exact absurd hrow (hmissing want row hwant)
    · rcases firstPass_cases hmem with hplain | hreplace
      · rw [hplain] at hupdate
        obtain ⟨want, row, hwant, hrow, -⟩ := changeFor_update hupdate
        exact absurd hrow (hmissing want row hwant)
      · rw [hreplace] at hupdate
        cases hupdate

/-- A field the config leaves as it is refers, through an upstream that moves this run, to a value
only a new resource can take. -/
def Reidentified (inputs : DiffInputs) (moved : List String) (change : Change) : Prop :=
  change.action = .update ∧ forcedField ∉ change.changedFields ∧
    ∃ want, inputs.wanted change.nodeId = some want ∧ ¬ want.isData ∧
      ∃ name ∈ want.properties, name ∉ want.ignoreChanges ∧
        inputs.mutability want.type name = some .immutable ∧
          touches want (want.property name) moved

private theorem mem_properties_of_touches {name : String}
    (htouches : touches want (want.property name) moved) : name ∈ want.properties := by
  by_contra habsent
  have hnull : want.property name = .null := by
    rw [IRNode.property, Std.ExtTreeMap.getD_eq_fallback habsent]
  rw [hnull] at htouches
  simp [touches, Value.collectRefTargets, Value.collect, Value.refTarget, Value.field] at htouches

/-- What a classification names without anything moving it still names when something does, unless
it is a touched field. -/
private theorem named_of_named_moved {verdicts : Dict String Consumed} {unexplained : Bool}
    {name : String} (hname : name ∈ namedFields want row moved verdicts unexplained)
    (hstable : touches want (want.property name) moved = false) :
    name ∈ namedFields want row [] verdicts unexplained := by
  have hkeep : ∀ field ∈ changedFields want row moved (settled want verdicts moved),
      touches want (want.property field) moved = false →
        field ∈ changedFields want row [] (settled want verdicts []) := by
    intro field hfield hout
    obtain ⟨hignored, ⟨hmem, hdiffers | htouches⟩ | hdropped | hknown⟩ :=
      mem_changedFields.mp hfield
    · exact mem_changedFields.mpr ⟨hignored, .inl ⟨hmem, .inl hdiffers⟩⟩
    · rw [hout] at htouches
      cases htouches
    · exact mem_changedFields.mpr ⟨hignored, .inr (.inl hdropped)⟩
    · exact mem_changedFields.mpr ⟨hignored, .inr (.inr
        (mem_settled.mpr ⟨(mem_settled.mp hknown).1, stable_nil _ _⟩))⟩
  have hback : ∀ field ∈ changedFields want row [] (settled want verdicts []),
      field ∈ changedFields want row moved (settled want verdicts moved) := by
    intro field hfield
    obtain ⟨hignored, ⟨hmem, hdiffers | htouches⟩ | hdropped | hknown⟩ :=
      mem_changedFields.mp hfield
    · exact mem_changedFields.mpr ⟨hignored, .inl ⟨hmem, .inl hdiffers⟩⟩
    · simp at htouches
    · exact mem_changedFields.mpr ⟨hignored, .inr (.inl hdropped)⟩
    · by_cases htouched : touches want (want.property field) moved
      · exact mem_changedFields.mpr ⟨hignored, .inl
          ⟨mem_properties_of_touches htouched, .inr htouched⟩⟩
      · exact mem_changedFields.mpr ⟨hignored, .inr (.inr (mem_settled.mpr
          ⟨(mem_settled.mp hknown).1, by simpa [stable] using htouched⟩))⟩
  unfold namedFields at hname ⊢
  dsimp only at hname ⊢
  split at hname
  next hempty =>
    obtain ⟨hunexplained, hnone⟩ := Bool.and_eq_true_iff.mp hempty
    have hnone' : changedFields want row [] (settled want verdicts []) = [] := by
      rw [List.eq_nil_iff_forall_not_mem]
      intro field hfield
      have := hback field hfield
      rw [List.isEmpty_iff.mp hnone] at this
      cases this
    rw [if_pos (by rw [hnone', hunexplained]; rfl)]
    obtain ⟨hverdict, hignored, -⟩ := mem_unrecorded.mp hname
    exact mem_unrecorded.mpr ⟨hverdict, hignored, stable_nil _ _⟩
  next hsome =>
    have hkept := hkeep name hname hstable
    rw [if_neg]
    · exact hkept
    · rw [Bool.and_eq_true, List.isEmpty_iff]
      rintro ⟨-, hnone⟩
      rw [hnone] at hkept
      cases hkept

/-- The second pass makes a REPLACE of an UPDATE exactly when it is reidentified. -/
theorem refine_replace_iff (stale moved : List String) (hmem : change ∈ inputs.firstPass replace)
    (hupdate : change.action = .update) :
    (inputs.refine stale moved change).action = .replace ↔ inputs.Reidentified moved change := by
  have hplain : change = inputs.changeFor change.nodeId :=
    (firstPass_cases hmem).resolve_right (by rw [hupdate]; decide)
  obtain ⟨want, row, hwant, hrow, hclassified⟩ := changeFor_update (hplain ▸ hupdate)
  rw [← hplain] at hclassified
  rcases refine_cases stale moved hmem with
    ⟨want', row', hwant', hrow', hrefine, hwhy⟩ | ⟨hrefine, -, hforced⟩
  · cases hwant.symm.trans hwant'
    cases hrow.symm.trans hrow'
    have hunforced : forcedField ∉ change.changedFields := by
      rcases hwhy with ⟨hnoop, -⟩ | ⟨-, hunforced⟩
      · rw [hupdate] at hnoop
        cases hnoop
      · exact hunforced
    have hfirst := hupdate
    rw [hclassified, classify, classifyNode_action] at hfirst
    have hnone : ∀ name ∈ namedFields want row [] (inputs.verdicts.getD want.id ∅)
        (decide (row.inputHash ≠ inputs.desiredHashes want.id ∧ row.inputHash ≠ noInputHash)),
        ¬ want.isData → inputs.mutability want.type name ≠ some .immutable := by
      intro name hname hdata himmutable
      rw [if_pos ⟨hdata, name, hname, himmutable⟩] at hfirst
      cases hfirst
    rw [hrefine, classify, classifyNode_action]
    constructor
    · intro hreplace
      split at hreplace
      next hcond =>
        obtain ⟨hdata, name, hname, himmutable⟩ := hcond
        have htouched : touches want (want.property name) moved := by
          by_contra hstable
          rw [Bool.not_eq_true] at hstable
          exact hnone name (named_of_named_moved hname hstable) hdata himmutable
        refine ⟨hupdate, hunforced, want, hwant, hdata, name, mem_properties_of_touches htouched,
          ?_, himmutable, htouched⟩
        unfold namedFields at hname
        dsimp only at hname
        split at hname
        · exact (mem_unrecorded.mp hname).2.1
        · exact (mem_changedFields.mp hname).1
      next => cases hreplace
    · rintro ⟨-, -, want', hwant', hdata, name, hname, hignored, himmutable, htouched⟩
      cases hwant.symm.trans hwant'
      have hchanged : name ∈ changedFields want row moved
          (settled want (inputs.verdicts.getD want.id ∅) moved) :=
        mem_changedFields.mpr ⟨hignored, .inl ⟨hname, .inr htouched⟩⟩
      have hnamed : name ∈ namedFields want row moved (inputs.verdicts.getD want.id ∅)
          (decide (row.inputHash ≠ inputs.desiredHashes want.id ∧
            row.inputHash ≠ noInputHash)) := by
        unfold namedFields
        dsimp only
        rw [if_neg]
        · exact hchanged
        · rw [Bool.and_eq_true, List.isEmpty_iff]
          rintro ⟨-, hempty⟩
          rw [hempty] at hchanged
          cases hchanged
      rw [if_pos ⟨hdata, name, hnamed, himmutable⟩]
  · rw [hrefine, hupdate]
    constructor
    · intro h
      cases h
    · rintro ⟨-, hunforced, -⟩
      exact absurd (hforced hupdate) hunforced

end DiffInputs

/-! ## The final changeset -/

/-- No node present in both config and state is left unchanged behind a recreated node. -/
def Closed (desired : IRGraph) (prior : StateGraph) (changeset : ChangeSet) : Prop :=
  ∀ upstream ∈ changeset.changes, ∀ node ∈ changeset.changes,
    reidentifying upstream.action → Reaches (dependentsOf desired) upstream.nodeId node.nodeId →
      node.nodeId ∈ desired.byId → node.nodeId ∈ prior → node.action ≠ .noop

/-- What moves in the first pass: every change, and what is pulled back by a recreation. -/
def movedIds (inputs : DiffInputs) (replace : List String) : List String :=
  ((inputs.firstPass replace).filter (·.action ≠ .noop)).map (·.nodeId) ++
    staleDependents (inputs.firstPass replace) inputs.desired

theorem mem_behindDestroyFirst {changeset : ChangeSet} {mutability : TypeMutability}
    {change : Change} (hmem : change ∈ (behindDestroyFirst changeset mutability).changes) :
    ∃ before ∈ changeset.changes, change.nodeId = before.nodeId ∧ change.action = before.action := by
  obtain ⟨before, hbefore, rfl⟩ := List.mem_map.mp hmem
  refine ⟨before, hbefore, ?_⟩
  split <;> exact ⟨rfl, rfl⟩

theorem behindDestroyFirst_mem {changeset : ChangeSet} (mutability : TypeMutability)
    {before : Change} (hmem : before ∈ changeset.changes) :
    ∃ change ∈ (behindDestroyFirst changeset mutability).changes,
      change.nodeId = before.nodeId ∧ change.action = before.action := by
  refine ⟨_, List.mem_map_of_mem hmem, ?_⟩
  split <;> exact ⟨rfl, rfl⟩

theorem DiffInputs.refine_nodeId {inputs : DiffInputs} {replace stale moved : List String}
    {change : Change} (hmem : change ∈ inputs.firstPass replace) :
    (inputs.refine stale moved change).nodeId = change.nodeId := by
  rcases refine_cases stale moved hmem with
    ⟨want, row, hwant, hrow, hrefine, -⟩ | ⟨hrefine, -⟩
  · rw [hrefine]
    exact (classifyNode_nodeId ..).trans (IRGraph.byId_id hwant)
  · rw [hrefine]

/-- A change of the diff is a refined first-pass change, its action untouched since. -/
theorem mem_diff {inputs : DiffInputs} {replace : List String} {change : Change}
    (hmem : change ∈ (diff inputs replace).changes) :
    ∃ first ∈ inputs.firstPass replace, change.nodeId = first.nodeId ∧
      change.action = (inputs.refine (staleDependents (inputs.firstPass replace) inputs.desired)
        (movedIds inputs replace) first).action := by
  obtain ⟨before, hbefore, hnode, haction⟩ := mem_behindDestroyFirst hmem
  obtain ⟨first, hfirst, rfl⟩ := List.mem_map.mp hbefore
  rw [createFirst_nodeId, DiffInputs.refine_nodeId hfirst] at hnode
  rw [createFirst_action] at haction
  exact ⟨first, hfirst, hnode, haction⟩

theorem diff_mem {inputs : DiffInputs} {replace : List String} {first : Change}
    (hfirst : first ∈ inputs.firstPass replace) :
    ∃ change ∈ (diff inputs replace).changes, change.nodeId = first.nodeId ∧
      change.action = (inputs.refine (staleDependents (inputs.firstPass replace) inputs.desired)
        (movedIds inputs replace) first).action := by
  have hrefined : createFirst (inputs.refine
      (staleDependents (inputs.firstPass replace) inputs.desired) (movedIds inputs replace) first)
      (effectiveCbd inputs.desired) ∈ (ChangeSet.map (fun change => createFirst (inputs.refine
        (staleDependents (inputs.firstPass replace) inputs.desired) (movedIds inputs replace) change)
        (effectiveCbd inputs.desired)) ⟨inputs.firstPass replace⟩).changes :=
    List.mem_map_of_mem hfirst
  obtain ⟨change, hchange, hnode, haction⟩ :=
    behindDestroyFirst_mem inputs.mutability hrefined
  rw [createFirst_nodeId, DiffInputs.refine_nodeId hfirst] at hnode
  rw [createFirst_action] at haction
  exact ⟨change, hchange, hnode, haction⟩

/-- The nodes the diff leaves unchanged: those of the first pass nothing pulls back. -/
theorem refine_noop_iff {inputs : DiffInputs} {replace stale moved : List String} {change : Change}
    (hmem : change ∈ inputs.firstPass replace) :
    (inputs.refine stale moved change).action = .noop ↔
      change.action = .noop ∧ change.nodeId ∉ stale := by
  rcases DiffInputs.refine_cases stale moved hmem with
    ⟨want, row, -, -, hrefine, hwhy⟩ | ⟨hrefine, hnoop, -⟩
  · rw [hrefine]
    constructor
    · intro h
      rcases inputs.classify_action want row moved with h' | h' <;>
        rw [h'] at h <;> cases h
    · rintro ⟨haction, hfresh⟩
      rcases hwhy with ⟨-, hstale⟩ | ⟨haction' | haction', -⟩
      · exact absurd hstale hfresh
      all_goals
        rw [haction'] at haction
        cases haction
  · rw [hrefine]
    exact ⟨fun h => ⟨h, hnoop h⟩, And.left⟩

/-- **What the diff leaves closed under recreation.** A node stays unchanged behind a recreated
one exactly when a node it depends on was classified an UPDATE and is made a REPLACE afterwards. -/
theorem diff_closed_iff (inputs : DiffInputs) (replace : List String) :
    Closed inputs.desired inputs.prior (diff inputs replace) ↔
      ∀ upstream ∈ inputs.firstPass replace, ∀ node ∈ inputs.firstPass replace,
        node.action = .noop →
        node.nodeId ∉ staleDependents (inputs.firstPass replace) inputs.desired →
        Reaches (dependentsOf inputs.desired) upstream.nodeId node.nodeId →
        ¬ inputs.Reidentified (movedIds inputs replace) upstream := by
  constructor
  · intro hclosed upstream hupstream node hnode hnoop hfresh hreach hpromoted
    obtain ⟨upstream', hupstream', hid, haction⟩ := diff_mem hupstream
    obtain ⟨node', hnode', hid', haction'⟩ := diff_mem hnode
    rw [(DiffInputs.refine_replace_iff _ _ hupstream hpromoted.1).mpr hpromoted] at haction
    rw [(refine_noop_iff hnode).mpr ⟨hnoop, hfresh⟩] at haction'
    obtain ⟨want, row, hwant, hrow, -⟩ := DiffInputs.firstPass_noop hnode hnoop
    refine hclosed upstream' hupstream' node' hnode' ?_ ?_ ?_ ?_ haction'
    · rw [haction]
      rfl
    · rw [hid, hid']
      exact hreach
    · rw [hid']
      exact Std.ExtTreeMap.mem_iff_isSome_getElem?.mpr (by
        rw [show inputs.desired.byId[node.nodeId]? = some want from hwant]
        rfl)
    · rw [hid']
      exact Std.ExtTreeMap.mem_iff_isSome_getElem?.mpr (by rw [hrow]; rfl)
  · intro hnone upstream' hupstream' node' hnode' hrecreated hreach _ _ hnoop'
    obtain ⟨upstream, hupstream, hid, haction⟩ := mem_diff hupstream'
    obtain ⟨node, hnode, hid', haction'⟩ := mem_diff hnode'
    rw [hid, hid'] at hreach
    rw [hnoop'] at haction'
    obtain ⟨hnoop, hfresh⟩ := (refine_noop_iff hnode).mp haction'.symm
    have hout : ¬ reidentifying upstream.action := fun h =>
      hfresh (mem_staleDependents.mpr ⟨upstream, hupstream, h, hreach⟩)
    have hnotstale : upstream.nodeId ∉ staleDependents (inputs.firstPass replace) inputs.desired := by
      intro hstale
      obtain ⟨source, hsource, hsource', hpath⟩ := mem_staleDependents.mp hstale
      exact hfresh (mem_staleDependents.mpr ⟨source, hsource, hsource', hpath.trans hreach⟩)
    rw [haction] at hrecreated
    rcases DiffInputs.refine_cases
        (staleDependents (inputs.firstPass replace) inputs.desired)
        (movedIds inputs replace) hupstream with
      ⟨want, row, -, -, hrefine, ⟨-, hstale⟩ | ⟨hupdate | hreplace, -⟩⟩ | ⟨hrefine, -, -⟩
    · exact hnotstale hstale
    · rw [reidentifying, hrefine] at hrecreated
      rcases inputs.classify_action want row (movedIds inputs replace) with h | h
      · rw [h] at hrecreated
        cases hrecreated
      · refine hnone upstream hupstream node hnode hnoop hfresh hreach
          ((DiffInputs.refine_replace_iff (staleDependents (inputs.firstPass replace)
            inputs.desired) _ hupstream hupdate).mp (by rw [hrefine, h]))
    · exact hout (by rw [hreplace]; rfl)
    · rw [hrefine] at hrecreated
      exact hout hrecreated

/-! ## Two drifted rows -/

namespace Drifted

def row (id hash : String) (properties : Dict String Value) (dependencies : List String) :
    StateNode :=
  { id := id, type := "t", provider := "p", providerVersion := "1", inputHash := hash
    properties := properties, dependencies := dependencies }

def node (id : String) (properties : Dict String Value) (dependencies : List String) : IRNode :=
  { id := id, type := "t", provider := "p", providerVersion := "1", properties := properties
    dependencies := dependencies }

def refTo (field nodeId : String) : Dict String Value :=
  (∅ : Dict String Value).insert field (.dict [(refKey, .str (nodeId ++ "#id"))])

/-- A subnet placed in a network, and a server in the subnet. The network's row and the subnet's
were cleared by a refresh that found both changed. -/
def inputs : DiffInputs where
  desired := ⟨[node "s:t:net" ∅ [], node "s:t:server" (refTo "tag" "s:t:subnet") ["s:t:subnet"],
    node "s:t:subnet" (refTo "place" "s:t:net") ["s:t:net"]]⟩
  desiredHashes := fun nodeId => "hash of " ++ nodeId
  prior := ((∅ : StateGraph).insert "s:t:net" (row "s:t:net" noInputHash ∅ [])
    |>.insert "s:t:subnet"
      (row "s:t:subnet" noInputHash (refTo "place" "s:t:net") ["s:t:net"])
    |>.insert "s:t:server"
      (row "s:t:server" "hash of s:t:server" (refTo "tag" "s:t:subnet") ["s:t:subnet"]))
  mutability := fun _ field => if field = "place" then some .immutable else some .mutable
  verdicts := ∅

/-- The subnet is replaced, and the server keeps the id of the one destroyed. -/
theorem diff_not_closed : ¬ Closed inputs.desired inputs.prior (diff inputs []) := by
  have hstale : ∃ upstream ∈ (diff inputs []).changes, ∃ node ∈ (diff inputs []).changes,
      reidentifying upstream.action ∧ node.nodeId ∈ dependentsOf inputs.desired upstream.nodeId ∧
        node.nodeId ∈ inputs.desired.byId ∧ node.nodeId ∈ inputs.prior ∧ node.action = .noop := by
    decide +kernel
  obtain ⟨upstream, hupstream, node, hnode, hrecreated, hdepends, hdeclared, hstored, hnoop⟩ :=
    hstale
  intro hclosed
  exact hclosed upstream hupstream node hnode hrecreated (.single hdepends) hdeclared hstored hnoop

end Drifted

end Atlantide
