import Atlantide.IR.MerkleExact
import Atlantide.Reconcile.PlainData

/-! # Lowering declared resources

A resource's references become its node's dependencies, whichever field they stand in. -/

namespace Atlantide

/-- A resource as the config declares it, its handles live. -/
structure Declared where
  id : String
  type : String
  provider : String
  providerVersion : String
  inputs : Dict String Input
  preventDestroy : Bool := false
  createBeforeDestroy : Bool := false
  ignoreChanges : List String := []
  aliases : List String := []
  dependsOn : List String := []
  kind : NodeKind := .resource

/-- `resource.refs()`, as the sorted ids of the nodes they name. -/
def Declared.dependencies (resource : Declared) : List String :=
  sortedSet ((inputRefs resource.inputs).map (·.nodeId))

def Declared.lower (resource : Declared) : IRNode where
  id := resource.id
  type := resource.type
  provider := resource.provider
  providerVersion := resource.providerVersion
  properties := canonicalInputs resource.inputs
  dependencies := resource.dependencies
  preventDestroy := resource.preventDestroy
  createBeforeDestroy := resource.createBeforeDestroy
  ignoreChanges := resource.ignoreChanges
  aliases := resource.aliases
  dependsOn := resource.dependsOn
  kind := resource.kind

/-- The declared resources, each id once. -/
structure ResourceRegistry where
  resources : List Declared
  distinct : (resources.map (·.id)).Nodup

namespace ResourceRegistry

def lower (registry : ResourceRegistry) : IRGraph := ⟨registry.resources.map (·.lower)⟩

/-- The config with one resource's inputs exchanged. -/
def withInputs (registry : ResourceRegistry) (edited : String) (inputs : Dict String Input) :
    ResourceRegistry where
  resources := registry.resources.map fun resource =>
    if resource.id = edited then { resource with inputs } else resource
  distinct := by
    have hids : (registry.resources.map fun resource =>
        if resource.id = edited then { resource with inputs } else resource).map (·.id) =
          registry.resources.map (·.id) := by
      rw [List.map_map]
      refine List.map_congr_left fun resource _ => ?_
      dsimp only [Function.comp_apply]
      split <;> rfl
    rw [hids]
    exact registry.distinct

variable {registry : ResourceRegistry} {resource : Declared} {nodeId : String} {node : IRNode}

theorem lower_byId : registry.lower.byId[nodeId]? = some node ↔
    ∃ resource ∈ registry.resources, resource.id = nodeId ∧ resource.lower = node := by
  have hids : (registry.resources.map (·.lower)).map (·.id) = registry.resources.map (·.id) := by
    rw [List.map_map]
    rfl
  rw [IRGraph.byId, lower, getElem?_foldl_insert (hids ▸ registry.distinct), List.mem_map,
    Std.ExtTreeMap.getElem?_empty]
  constructor
  · rintro (⟨⟨resource, hmem, rfl⟩, hid⟩ | ⟨hnone, -⟩)
    · exact ⟨resource, hmem, hid, rfl⟩
    · cases hnone
  · rintro ⟨resource, hmem, hid, rfl⟩
    exact .inl ⟨⟨resource, hmem, rfl⟩, hid⟩

/-- The edited resource's node after the edit. -/
theorem lower_withInputs (hmem : resource ∈ registry.resources) (inputs : Dict String Input) :
    (registry.withInputs resource.id inputs).lower.byId[resource.id]? =
      some { resource with inputs }.lower :=
  lower_byId.mpr ⟨{ resource with inputs }, List.mem_map.mpr ⟨resource, hmem, if_pos rfl⟩, rfl, rfl⟩

/-- Every other node is as it was. -/
theorem lower_withInputs_of_ne {edited : String} (inputs : Dict String Input)
    (hne : nodeId ≠ edited) :
    (registry.withInputs edited inputs).lower.byId[nodeId]? = registry.lower.byId[nodeId]? := by
  refine Option.ext fun node => ?_
  rw [lower_byId, lower_byId]
  constructor
  · rintro ⟨changed, hchanged, rfl, hlower⟩
    obtain ⟨resource, hmem, rfl⟩ := List.mem_map.mp hchanged
    by_cases hedited : resource.id = edited
    · rw [if_pos hedited] at hne
      exact (hne hedited).elim
    · rw [if_neg hedited] at hlower ⊢
      exact ⟨resource, hmem, rfl, hlower⟩
  · rintro ⟨resource, hmem, rfl, hlower⟩
    exact ⟨resource, List.mem_map.mpr ⟨resource, hmem, if_neg hne⟩, rfl, hlower⟩

end ResourceRegistry

/-- What the hash covers of a node's properties does not see an ignored field. -/
theorem Declared.hashed_withInputs {resource : Declared} {inputs : Dict String Input}
    {field : String} (hignored : field ∈ resource.ignoreChanges)
    (hinputs : ∀ name : String, name ≠ field → inputs[name]? = resource.inputs[name]?) :
    { resource with inputs }.lower.hashed = resource.lower.hashed := by
  apply Std.ExtTreeMap.ext_getElem?
  intro name
  change ((canonicalInputs inputs).filter fun name _ => name ∉ resource.ignoreChanges)[name]? =
    ((canonicalInputs resource.inputs).filter fun name _ => name ∉ resource.ignoreChanges)[name]?
  rw [Std.ExtTreeMap.getElem?_filter', Std.ExtTreeMap.getElem?_filter']
  by_cases hname : name = field
  · subst hname
    simp [hignored]
  · rw [canonicalInputs, canonicalInputs, Std.ExtTreeMap.getElem?_map, Std.ExtTreeMap.getElem?_map,
      hinputs name hname]

/-! ## Nodes of the same content -/

/-- Two nodes that have the same type, set the same properties, ignored ones aside, and depend, in
the order of the ids, on nodes that are alike one by one. -/
inductive Alike (ir other : IRGraph) : String → String → Prop
  | node {nodeId nodeId' : String} {node node' : IRNode} (found : ir.byId[nodeId]? = some node)
      (found' : other.byId[nodeId']? = some node') (type : node.type = node'.type)
      (hashed : node.hashed = node'.hashed)
      (length : node.hashedDeps.length = node'.hashedDeps.length)
      (deps : ∀ pair ∈ node.hashedDeps.zip node'.hashedDeps, Alike ir other pair.1 pair.2) :
      Alike ir other nodeId nodeId'

theorem map_eq_map_iff_zip {α β γ : Type} {image : α → γ} {image' : β → γ} {items : List α}
    {items' : List β} : items.map image = items'.map image' ↔
      items.length = items'.length ∧ ∀ pair ∈ items.zip items', image pair.1 = image' pair.2 := by
  induction items generalizing items' with
  | nil => cases items' <;> simp
  | cons item items ih =>
    cases items' with
    | nil => simp
    | cons item' items' =>
      rw [List.map_cons, List.map_cons, List.cons.injEq, ih, List.zip_cons_cons,
        List.forall_mem_cons, List.length_cons, List.length_cons, Nat.add_right_cancel_iff]
      exact and_left_comm

/-- **Nodes of one hash are the alike ones.** -/
theorem MerkleHash.eq_iff_alike {codec : Codec} {ir other : IRGraph} (hexact : codec.Exact)
    (hprinted : ir.FloatsPrinted) (hprinted' : other.FloatsPrinted) {nodeId nodeId' hash hash' : String}
    (hhash : MerkleHash codec ir nodeId hash) (hother : MerkleHash codec other nodeId' hash') :
    hash = hash' ↔ Alike ir other nodeId nodeId' := by
  induction hhash generalizing nodeId' hash' with
  | @node nodeId node hfound hashes hdeps ih =>
    cases hother with
    | @node _ node' hfound' hashes' hdeps' =>
      rw [hexact.digestOf_eq (hprinted nodeId node hfound) (hprinted' nodeId' node' hfound'),
        map_eq_map_iff_zip]
      have hpairs : (∀ pair ∈ node.hashedDeps.zip node'.hashedDeps,
          hashes pair.1 = hashes' pair.2) ↔
            ∀ pair ∈ node.hashedDeps.zip node'.hashedDeps, Alike ir other pair.1 pair.2 := by
        refine forall₂_congr fun pair hpair => ?_
        have hdep := IRNode.mem_hashedDeps.mp (List.of_mem_zip hpair).1
        have hdep' := IRNode.mem_hashedDeps.mp (List.of_mem_zip hpair).2
        exact ih pair.1 hdep (hdeps' pair.2 hdep')
      rw [hpairs]
      constructor
      · rintro ⟨htype, hhashed, hlength, halike⟩
        exact .node hfound hfound' htype hhashed hlength halike
      · rintro (⟨hsame, hsame', htype, hhashed, hlength, halike⟩)
        cases hfound.symm.trans hsame
        cases hfound'.symm.trans hsame'
        exact ⟨htype, hhashed, hlength, halike⟩

end Atlantide
