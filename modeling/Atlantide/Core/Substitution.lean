import Atlantide.Core.Inline

/-! # What inlining leaves as it was

Replacing a reference by the expression declared for it should touch nothing else. A container the
rewrite goes through is lowered on the way, so a tuple, a set or a nested model beside the reference
comes out as a list or a mapping, and so does every one in an output. -/

namespace Atlantide

namespace Tree

mutual

/-- A value with its references replaced and everything else as it was. -/
def substitute (resolved : String → Option Tree) : Tree → Tree
  | stackOutputRef stack name =>
    (resolved (stack ++ ":" ++ name)).getD (stackOutputRef stack name)
  | seq kind items => seq kind (substituteItems resolved items)
  | transform op args => transform op (substituteItems resolved args)
  | table kind fields => table kind (substituteFields resolved fields)
  | value => value

def substituteItems (resolved : String → Option Tree) : List Tree → List Tree
  | [] => []
  | item :: items => substitute resolved item :: substituteItems resolved items

def substituteFields (resolved : String → Option Tree) :
    List (String × Tree) → List (String × Tree)
  | [] => []
  | (name, value) :: fields => (name, substitute resolved value) :: substituteFields resolved fields

end

mutual

/-- Whether every container in a value is a list, a mapping or a transform. -/
def isPlain : Tree → Bool
  | seq kind items => decide (kind = .list) && isPlainItems items
  | transform _ args => isPlainItems args
  | table kind fields => decide (kind = .dict) && isPlainFields fields
  | _ => true

def isPlainItems : List Tree → Bool
  | [] => true
  | item :: items => isPlain item && isPlainItems items

def isPlainFields : List (String × Tree) → Bool
  | [] => true
  | (_, value) :: fields => isPlain value && isPlainFields fields

end

section

variable {resolved : String → Option Tree}

theorem substituteItems_eq (items : List Tree) :
    substituteItems resolved items = items.map (substitute resolved) := by
  induction items with
  | nil => rfl
  | cons item items ih => rw [substituteItems, ih, List.map_cons]

theorem substituteFields_eq (fields : List (String × Tree)) : substituteFields resolved fields =
    (fields.map Prod.fst).zip ((fields.map Prod.snd).map (substitute resolved)) := by
  induction fields with
  | nil => rfl
  | cons entry fields ih =>
    rw [substituteFields, ih, List.map_cons, List.map_cons, List.map_cons, List.zip_cons_cons]

theorem isPlainItems_iff {items : List Tree} :
    isPlainItems items ↔ ∀ item ∈ items, item.isPlain := by
  induction items with
  | nil => simp [isPlainItems]
  | cons item items ih => rw [isPlainItems, Bool.and_eq_true, ih, List.forall_mem_cons]

theorem isPlainFields_iff {fields : List (String × Tree)} :
    isPlainFields fields ↔ ∀ value ∈ fields.map Prod.snd, value.isPlain := by
  induction fields with
  | nil => simp [isPlainFields]
  | cons entry fields ih =>
    rw [isPlainFields, Bool.and_eq_true, ih, List.map_cons, List.forall_mem_cons]

theorem substitute_leaf {value : Tree} (hleaf : value.isContainer = false) :
    value.substitute resolved = (value.stackKey?.bind resolved).getD value := by
  cases value with
  | seq _ _ | transform _ _ | table _ _ => cases hleaf
  | _ => rfl

/-- **Inlining a value changes nothing but its references exactly when it is plain.** -/
theorem inline_eq_substitute_iff {order : Tree → String} {value : Tree} :
    value.inline order resolved = value.substitute resolved ↔ value.isPlain := by
  induction value using ind with
  | step value ih =>
    have hitems : value.children.map (inline order resolved) =
        value.children.map (substitute resolved) ↔ ∀ child ∈ value.children, child.isPlain := by
      rw [List.map_inj_left]
      exact forall₂_congr ih
    cases value with
    | seq kind items =>
      change items.map _ = items.map _ ↔ ∀ child ∈ items, _ at hitems
      rw [inline_container rfl, substitute, substituteItems_eq, isPlain, Bool.and_eq_true,
        decide_eq_true_iff, isPlainItems_iff, ← hitems]
      cases kind with
      | list => exact ⟨fun hsame => ⟨rfl, (Tree.seq.inj hsame).2⟩, fun hsame => congrArg _ hsame.2⟩
      | tuple | set =>
        exact iff_of_false (fun hsame => nomatch (Tree.seq.inj hsame).1)
          (fun hkind => nomatch hkind.1)
    | transform op args =>
      change args.map _ = args.map _ ↔ ∀ child ∈ args, _ at hitems
      rw [inline_container rfl, substitute, substituteItems_eq, isPlain, isPlainItems_iff, ← hitems]
      exact ⟨fun hsame => (Tree.transform.inj hsame).2, fun hsame => congrArg _ hsame⟩
    | table kind fields =>
      change (fields.map Prod.snd).map _ = (fields.map Prod.snd).map _ ↔
        ∀ child ∈ fields.map Prod.snd, _ at hitems
      rw [inline_container rfl, substitute, substituteFields_eq, isPlain, Bool.and_eq_true,
        decide_eq_true_iff, isPlainFields_iff, ← hitems]
      constructor
      · intro hsame
        obtain ⟨hkind, hfields⟩ := Tree.table.inj hsame
        refine ⟨hkind.symm, ?_⟩
        have hvalues := congrArg (List.map Prod.snd) hfields
        rw [List.map_snd_zip (by simp [children]), List.map_snd_zip (by simp)] at hvalues
        exact hvalues
      · rintro ⟨rfl, hsame⟩
        exact congrArg (fun values => table .dict ((fields.map Prod.fst).zip values)) hsame
    | _ => rw [inline_leaf rfl, substitute_leaf rfl]; exact iff_of_true rfl rfl

/-- A value without a reference that is resolved stays as it is. -/
theorem substitute_self {value : Tree} (hnone : ∀ key ∈ value.stackKeys, resolved key = none) :
    value.substitute resolved = value := by
  induction value using ind with
  | step value ih =>
    have hchildren : value.isContainer →
        value.children.map (substitute resolved) = value.children := by
      intro hcontainer
      have hsame : value.children.map (substitute resolved) = value.children.map id :=
        List.map_congr_left fun child hchild =>
          ih child hchild fun key hmem => hnone key (stackKeys_child hcontainer hchild hmem)
      rw [hsame, List.map_id]
    cases value with
    | seq kind items | transform op items =>
      rw [substitute, substituteItems_eq]
      exact congrArg _ (hchildren rfl)
    | table kind fields =>
      rw [substitute, substituteFields_eq]
      have hvalues : (fields.map Prod.snd).map (substitute resolved) = fields.map Prod.snd :=
        hchildren rfl
      rw [hvalues, List.zip_map', List.map_id']
    | stackOutputRef stack name =>
      rw [substitute, hnone (stack ++ ":" ++ name) (List.mem_singleton_self _), Option.getD_none]
    | _ => rfl

end

end Tree

namespace Inline

variable {D B : Type} {order : Tree → String}

def Resource.substituted (resolved : List (String × Tree)) (resource : Resource D) : Resource D :=
  { resource with
    inputs := resource.inputs.map fun (name, value) =>
      (name, value.substitute (List.lookup · resolved)) }

/-- The ids of the resources a resource's inputs refer to, as lowering collects them. -/
def Resource.dependencies (resource : Resource D) : List String :=
  sortedSet ((resource.inputs.flatMap fun (_, value) => value.refs).map (·.nodeId))

/-- A resource is referred to by a value, or by an output the value leads to along the
references. -/
def LeadsTo (outputs : List (String × Tree)) (value : Tree) (found : Ref) : Prop :=
  found ∈ value.refs ∨ ∃ key ∈ value.stackKeys, ∃ target expr,
    Relation.ReflTransGen (Refers outputs) key target ∧ outputs.lookup target = some expr ∧
      found ∈ expr.refs

/-- What inlining promises of the registry it returns. -/
structure Inlined (order : Tree → String) (registry result : ResourceRegistry D B) : Prop where
  complete : ∀ value ∈ result.values, ∀ key ∈ value.stackKeys, registry.outputs.lookup key = none
  outputs : ∀ key, result.outputs.lookup key =
    (registry.outputs.lookup key).map (·.substitute (List.lookup · result.outputs))
  resources : result.resources = registry.resources.map (·.substituted result.outputs)
  policyBindings : result.policyBindings = registry.policyBindings
  inputs : result.inputs = registry.inputs
  envsDeclared : result.envsDeclared = registry.envsDeclared
  envsSelected : result.envsSelected = registry.envsSelected
  again : inlineStackOutputs order result = .ok result
  dependencies : ∀ source ∈ registry.resources, ∀ image ∈ result.resources,
    image.nodeId = source.nodeId → ∀ upstream, upstream ∈ image.dependencies ↔
      ∃ entry ∈ source.inputs, ∃ found, LeadsTo registry.outputs entry.2 found ∧
        found.nodeId = upstream

/-- Inlining ends, with a cycle exactly when the outputs refer to each other in one and otherwise
with a registry as promised. -/
structure Promised (order : Tree → String) (registry : ResourceRegistry D B) : Prop where
  terminates : inlineStackOutputs order registry ≠ .error .depth
  raises : (∃ chain, inlineStackOutputs order registry = .error (.cycle chain)) ↔
    Cyclic registry.outputs
  inlines : ∀ result, inlineStackOutputs order registry = .ok result →
    Inlined order registry result

/-- Nothing in an output or in an input that is rewritten is lowered. -/
structure NothingLowered (registry : ResourceRegistry D B) : Prop where
  outputs : ∀ key expr, registry.outputs.lookup key = some expr → expr.isPlain
  inputs : ∀ resource ∈ registry.resources, ∀ entry ∈ resource.inputs,
    hasInconfigRef registry.outputs entry.2 → entry.2.isPlain

section

variable {outputs resolved : List (String × Tree)}

theorem hasInconfigRef_eq_false {value : Tree} : hasInconfigRef outputs value = false ↔
    ∀ key ∈ value.stackKeys, outputs.lookup key = none := by
  simp only [hasInconfigRef, List.any_eq_false, Bool.not_eq_true, Option.isSome_eq_false_iff,
    Option.isNone_iff_eq_none]

theorem Resolved.lookup_eq_none (hresolved : Resolved order outputs resolved) {key : String}
    (hnone : outputs.lookup key = none) : resolved.lookup key = none := by
  cases hfound : resolved.lookup key with
  | none => rfl
  | some value =>
    have hsome := hresolved.isSome_output (Option.isSome_of_eq_some hfound)
    rw [hnone] at hsome
    cases hsome

/-- What a resolved output stands for refers to no output of the config. -/
theorem Resolved.complete_output (hresolved : Resolved order outputs resolved) {key : String}
    {image : Tree} (himage : resolved.lookup key = some image) :
    ∀ target ∈ image.stackKeys, outputs.lookup target = none := by
  have hfounded := hresolved.founded key (Option.isSome_of_eq_some himage)
  induction hfounded generalizing image with
  | intro key _ ih =>
    obtain ⟨expr, hexpr, rfl⟩ := hresolved.stands key image himage
    intro target htarget
    rcases Tree.stackKeys_inline htarget with ⟨hmem, hnone⟩ | ⟨next, hmem, image, hnext, htarget⟩
    · cases houtput : outputs.lookup target with
      | none => rfl
      | some _ =>
        have hsome := hresolved.closed key target (Option.isSome_of_eq_some himage)
          ⟨expr, hexpr, hmem, Option.isSome_of_eq_some houtput⟩
        rw [hnone] at hsome
        cases hsome
    · have hdeclared := hresolved.isSome_output (Option.isSome_of_eq_some hnext)
      exact ih next ⟨expr, hexpr, hmem, hdeclared⟩ hnext target htarget

/-- What a resolved output refers to is what the expressions it leads to refer to. -/
theorem Resolved.refs_output (hresolved : Resolved order outputs resolved) {key : String}
    {image : Tree} (himage : resolved.lookup key = some image) {found : Ref} :
    found ∈ image.refs ↔ ∃ target expr, Relation.ReflTransGen (Refers outputs) key target ∧
      outputs.lookup target = some expr ∧ found ∈ expr.refs := by
  have hfounded := hresolved.founded key (Option.isSome_of_eq_some himage)
  induction hfounded generalizing image with
  | intro key _ ih =>
    obtain ⟨expr, hexpr, rfl⟩ := hresolved.stands key image himage
    rw [Tree.mem_refs_inline]
    constructor
    · rintro (hfound | ⟨next, hmem, image, hnext, hfound⟩)
      · exact ⟨key, expr, .refl, hexpr, hfound⟩
      · have hrefers : Refers outputs key next :=
          ⟨expr, hexpr, hmem, hresolved.isSome_output (Option.isSome_of_eq_some hnext)⟩
        obtain ⟨target, last, hreach, hlast, hfound⟩ := (ih next hrefers hnext).mp hfound
        exact ⟨target, last, .head hrefers hreach, hlast, hfound⟩
    · rintro ⟨target, last, hreach, hlast, hfound⟩
      rcases Relation.ReflTransGen.cases_head hreach with rfl | ⟨next, hrefers, hreach⟩
      · rw [hexpr] at hlast
        cases hlast
        exact .inl hfound
      · obtain ⟨image, hnext⟩ := Option.isSome_iff_exists.mp
          (hresolved.closed key next (Option.isSome_of_eq_some himage) hrefers)
        have hfound := (ih next hrefers hnext).mpr ⟨target, last, hreach, hlast, hfound⟩
        obtain ⟨own, hown, hmem, _⟩ := hrefers
        rw [hexpr] at hown
        cases hown
        exact .inr ⟨next, hmem, image, hnext, hfound⟩

/-- Outputs that are all resolved do not refer to each other in a circle. -/
theorem Resolved.not_cyclic (hresolved : Resolved order outputs resolved)
    (hall : ∀ key, (outputs.lookup key).isSome → (resolved.lookup key).isSome) :
    ¬ Cyclic outputs := by
  rintro ⟨key, hcycle⟩
  have hdeclared : (outputs.lookup key).isSome := by
    obtain ⟨_, ⟨expr, hexpr, _⟩, _⟩ := Relation.TransGen.head'_iff.mp hcycle
    exact Option.isSome_of_eq_some hexpr
  have hfounded := hresolved.founded key (hall key hdeclared)
  clear hdeclared
  induction hfounded with
  | intro key _ ih =>
    obtain ⟨next, hrefers, hback⟩ := Relation.TransGen.head'_iff.mp hcycle
    exact ih next hrefers (Relation.TransGen.tail' hback hrefers)

/-- An inlined value refers to no output of the config, and to the resources it led to. -/
theorem Resolved.complete_value (hresolved : Resolved order outputs resolved)
    (hall : ∀ key, (outputs.lookup key).isSome → (resolved.lookup key).isSome) (value : Tree) :
    ∀ key ∈ (value.inline order (List.lookup · resolved)).stackKeys, outputs.lookup key = none := by
  intro key hkey
  rcases Tree.stackKeys_inline hkey with ⟨_, hnone⟩ | ⟨next, _, image, himage, hkey⟩
  · cases houtput : outputs.lookup key with
    | none => rfl
    | some _ =>
      have hsome := hall key (Option.isSome_of_eq_some houtput)
      rw [hnone] at hsome
      cases hsome
  · exact hresolved.complete_output himage key hkey

theorem Resolved.refs_value (hresolved : Resolved order outputs resolved)
    (hall : ∀ key, (outputs.lookup key).isSome → (resolved.lookup key).isSome) {value : Tree}
    {found : Ref} : found ∈ (value.inline order (List.lookup · resolved)).refs ↔
      LeadsTo outputs value found := by
  rw [Tree.mem_refs_inline, LeadsTo]
  apply or_congr_right
  constructor
  · rintro ⟨key, hkey, image, himage, hfound⟩
    exact ⟨key, hkey, (hresolved.refs_output himage).mp hfound⟩
  · rintro ⟨key, hkey, target, expr, hreach, hexpr, hfound⟩
    have hdeclared : (outputs.lookup key).isSome := by
      rcases Relation.ReflTransGen.cases_head hreach with rfl | ⟨_, ⟨own, hown, _⟩, _⟩
      · exact Option.isSome_of_eq_some hexpr
      · exact Option.isSome_of_eq_some hown
    obtain ⟨image, himage⟩ := Option.isSome_iff_exists.mp (hall key hdeclared)
    exact ⟨key, hkey, image, himage,
      (hresolved.refs_output himage).mpr ⟨target, expr, hreach, hexpr, hfound⟩⟩

end

section

variable {registry : ResourceRegistry D B}

theorem mem_values {value : Tree} : value ∈ registry.values ↔
    (∃ resource ∈ registry.resources, ∃ entry ∈ resource.inputs, entry.2 = value) ∨
      ∃ entry ∈ registry.outputs, entry.2 = value := by
  simp only [ResourceRegistry.values, List.mem_append, List.mem_flatMap, List.mem_map]

/-- Without a reference of the config the registry is returned as it is. -/
theorem inlineStackOutputs_untouched (order : Tree → String)
    (hnone : registry.values.any (hasInconfigRef registry.outputs) = false) :
    inlineStackOutputs order registry = .ok registry := by
  rw [inlineStackOutputs, hnone, if_neg Bool.false_ne_true]
  rfl

theorem not_cyclic_of_untouched
    (hnone : registry.values.any (hasInconfigRef registry.outputs) = false) :
    ¬ Cyclic registry.outputs := by
  rintro ⟨key, hcycle⟩
  obtain ⟨target, ⟨expr, hexpr, hmem, hdeclared⟩, _⟩ := Relation.TransGen.head'_iff.mp hcycle
  have hvalue : expr ∈ registry.values := by
    obtain ⟨before, after, hsplit, _⟩ := List.lookup_eq_some_iff.mp hexpr
    exact mem_values.mpr (.inr ⟨(key, expr), by simp [hsplit], rfl⟩)
  have hfalse := List.any_eq_false.mp hnone expr hvalue
  rw [Bool.not_eq_true, hasInconfigRef_eq_false] at hfalse
  rw [hfalse target hmem] at hdeclared
  cases hdeclared

theorem mem_dependencies {resource : Resource D} {upstream : String} :
    upstream ∈ resource.dependencies ↔
      ∃ entry ∈ resource.inputs, ∃ found ∈ entry.2.refs, found.nodeId = upstream := by
  simp only [Resource.dependencies, mem_sortedSet, List.mem_map, List.mem_flatMap]
  constructor
  · rintro ⟨found, ⟨entry, hentry, hfound⟩, hid⟩
    exact ⟨entry, hentry, found, hfound, hid⟩
  · rintro ⟨entry, hentry, found, hfound, hid⟩
    exact ⟨found, ⟨entry, hentry, hfound⟩, hid⟩

/-- Two resources of one registry with one id are the same. -/
theorem ResourceRegistry.eq_of_nodeId {first second : Resource D}
    (hfirst : first ∈ registry.resources) (hsecond : second ∈ registry.resources)
    (hid : first.nodeId = second.nodeId) : first = second :=
  List.inj_on_of_nodup_map registry.distinct hfirst hsecond hid

theorem not_leadsTo {outputs : List (String × Tree)} {value : Tree}
    (hnone : ∀ key ∈ value.stackKeys, outputs.lookup key = none) {found : Ref} :
    LeadsTo outputs value found ↔ found ∈ value.refs := by
  refine or_iff_left ?_
  rintro ⟨key, hkey, target, expr, hreach, hexpr, _⟩
  rcases Relation.ReflTransGen.cases_head hreach with rfl | ⟨_, ⟨own, hown, _⟩, _⟩
  · rw [hnone _ hkey] at hexpr
    cases hexpr
  · rw [hnone _ hkey] at hown
    cases hown

/-- A registry inlining leaves alone keeps every promise. -/
theorem inlined_untouched (hnone : registry.values.any (hasInconfigRef registry.outputs) = false) :
    Inlined order registry registry := by
  have hall : ∀ value ∈ registry.values, ∀ key ∈ value.stackKeys,
      registry.outputs.lookup key = none := by
    intro value hvalue
    have hfalse := List.any_eq_false.mp hnone value hvalue
    rw [Bool.not_eq_true] at hfalse
    exact hasInconfigRef_eq_false.mp hfalse
  have hinput : ∀ resource ∈ registry.resources, ∀ entry ∈ resource.inputs,
      ∀ key ∈ entry.2.stackKeys, registry.outputs.lookup key = none := fun resource hresource entry hentry =>
    hall entry.2 (mem_values.mpr (.inl ⟨resource, hresource, entry, hentry, rfl⟩))
  refine ⟨hall, ?_, ?_, rfl, rfl, rfl, rfl, inlineStackOutputs_untouched order hnone, ?_⟩
  · intro key
    cases hexpr : registry.outputs.lookup key with
    | none => rfl
    | some expr =>
      obtain ⟨before, after, hsplit, _⟩ := List.lookup_eq_some_iff.mp hexpr
      have hvalue : expr ∈ registry.values :=
        mem_values.mpr (.inr ⟨(key, expr), by simp [hsplit], rfl⟩)
      rw [Option.map_some, Tree.substitute_self (hall expr hvalue)]
  · have hsame : registry.resources.map (·.substituted registry.outputs) =
        registry.resources.map id := by
      apply List.map_congr_left
      intro resource hresource
      have hinputs : resource.inputs.map (fun (name, value) =>
          (name, value.substitute (List.lookup · registry.outputs))) = resource.inputs.map id :=
        List.map_congr_left fun entry hentry =>
          Prod.ext rfl (Tree.substitute_self (hinput resource hresource entry hentry))
      rw [Resource.substituted, hinputs, List.map_id, id]
    rw [hsame, List.map_id]
  · intro source hsource image himage hid upstream
    obtain rfl := registry.eq_of_nodeId himage hsource hid
    rw [mem_dependencies]
    apply exists_congr
    intro entry
    apply and_congr_right
    intro hentry
    simp only [not_leadsTo (hinput _ hsource entry hentry)]

section

variable {outputs resolved : List (String × Tree)}

theorem inlinedInput_eq_substitute_iff (hresolved : Resolved order outputs resolved)
    {value : Tree} : inlinedInput order outputs resolved value = value.substitute (List.lookup · resolved) ↔
      (hasInconfigRef outputs value → value.isPlain) := by
  unfold inlinedInput
  split
  · next href =>
    rw [Tree.inline_eq_substitute_iff]
    exact ⟨fun hplain _ => hplain, fun hplain => hplain href⟩
  · next href =>
    rw [Bool.not_eq_true, hasInconfigRef_eq_false] at href
    rw [Tree.substitute_self fun key hkey => hresolved.lookup_eq_none (href key hkey)]
    exact iff_of_true rfl fun hhas => absurd hhas (by
      rw [hasInconfigRef_eq_false.mpr href]
      exact Bool.false_ne_true)

theorem complete_inlinedInput (hresolved : Resolved order outputs resolved)
    (hall : ∀ key, (outputs.lookup key).isSome → (resolved.lookup key).isSome) (value : Tree) :
    ∀ key ∈ (inlinedInput order outputs resolved value).stackKeys, outputs.lookup key = none := by
  unfold inlinedInput
  split
  · exact hresolved.complete_value hall value
  · next href =>
    rw [Bool.not_eq_true] at href
    exact hasInconfigRef_eq_false.mp href

theorem refs_inlinedInput (hresolved : Resolved order outputs resolved)
    (hall : ∀ key, (outputs.lookup key).isSome → (resolved.lookup key).isSome) {value : Tree}
    {found : Ref} : found ∈ (inlinedInput order outputs resolved value).refs ↔
      LeadsTo outputs value found := by
  unfold inlinedInput
  split
  · exact hresolved.refs_value hall
  · next href =>
    rw [Bool.not_eq_true] at href
    exact (not_leadsTo (hasInconfigRef_eq_false.mp href)).symm

end

/-- How inlining ends when the config refers to its own outputs. -/
theorem inlineStackOutputs_ends (order : Tree → String)
    (hsome : registry.values.any (hasInconfigRef registry.outputs) = true) :
    match inlineStackOutputs order registry with
    | .ok result => Resolved order registry.outputs result.outputs ∧
        (∀ key, (registry.outputs.lookup key).isSome → (result.outputs.lookup key).isSome) ∧
        result = { registry with
          resources := registry.resources.map (·.inlined order registry.outputs result.outputs)
          distinct := registry.distinct_map fun _ => rfl
          outputs := result.outputs }
    | .error fault => Refused registry.outputs fault := by
  have hends := resolveOutputs_ends order registry.outputs
  rw [inlineStackOutputs, if_pos hsome]
  cases hrun : resolveOutputs order registry.outputs with
  | error fault =>
    rw [hrun] at hends
    exact hends
  | ok resolved =>
    rw [hrun] at hends
    exact ⟨hends.1, hends.2, rfl⟩

/-- Where nothing is lowered, an inlined registry is as promised. -/
theorem inlined_of_nothingLowered {result : ResourceRegistry D B}
    (hresolved : Resolved order registry.outputs result.outputs)
    (hall : ∀ key, (registry.outputs.lookup key).isSome → (result.outputs.lookup key).isSome)
    (hresult : result = { registry with
      resources := registry.resources.map (·.inlined order registry.outputs result.outputs)
      distinct := registry.distinct_map fun _ => rfl
      outputs := result.outputs })
    (hplain : NothingLowered registry) : Inlined order registry result := by
  have hresources : result.resources =
      registry.resources.map (·.inlined order registry.outputs result.outputs) :=
    congrArg ResourceRegistry.resources hresult
  have houtputs : ∀ key, result.outputs.lookup key =
      (registry.outputs.lookup key).map (·.substitute (List.lookup · result.outputs)) := by
    intro key
    cases hexpr : registry.outputs.lookup key with
    | none => rw [hresolved.lookup_eq_none hexpr, Option.map_none]
    | some expr =>
      obtain ⟨image, himage⟩ :=
        Option.isSome_iff_exists.mp (hall key (Option.isSome_of_eq_some hexpr))
      obtain ⟨own, hown, rfl⟩ := hresolved.stands key image himage
      rw [hexpr] at hown
      cases hown
      rw [himage, Option.map_some,
        Tree.inline_eq_substitute_iff.mpr (hplain.outputs key expr hexpr)]
  have hcomplete : ∀ value ∈ result.values, ∀ key ∈ value.stackKeys,
      registry.outputs.lookup key = none := by
    intro value hvalue
    rcases mem_values.mp hvalue with ⟨image, himage, entry, hentry, rfl⟩ | ⟨entry, hentry, rfl⟩
    · rw [hresources] at himage
      obtain ⟨source, _, rfl⟩ := List.mem_map.mp himage
      obtain ⟨own, _, rfl⟩ := List.mem_map.mp hentry
      exact complete_inlinedInput hresolved hall own.2
    · have hlookup := lookup_of_mem hresolved.distinct hentry
      exact hresolved.complete_output hlookup
  refine ⟨hcomplete, houtputs, ?_, ?_, ?_, ?_, ?_, ?_, ?_⟩
  · rw [hresources]
    apply List.map_congr_left
    intro resource hresource
    have hinputs : resource.inputs.map (fun (name, value) =>
        (name, inlinedInput order registry.outputs result.outputs value)) =
          resource.inputs.map fun (name, value) =>
            (name, value.substitute (List.lookup · result.outputs)) :=
      List.map_congr_left fun entry hentry => Prod.ext rfl
        ((inlinedInput_eq_substitute_iff hresolved).mpr
          (hplain.inputs resource hresource entry hentry))
    rw [Resource.inlined, hinputs, Resource.substituted]
  · rw [hresult]
  · rw [hresult]
  · rw [hresult]
  · rw [hresult]
  · apply inlineStackOutputs_untouched
    rw [List.any_eq_false]
    intro value hvalue
    rw [Bool.not_eq_true, hasInconfigRef_eq_false]
    exact fun key hkey => hresolved.lookup_eq_none (hcomplete value hvalue key hkey)
  · intro source hsource image himage hid upstream
    rw [hresources] at himage
    obtain ⟨own, hown, rfl⟩ := List.mem_map.mp himage
    obtain rfl := registry.eq_of_nodeId hown hsource hid
    rw [mem_dependencies]
    constructor
    · rintro ⟨_, hmem, found, hfound, rfl⟩
      obtain ⟨entry, hentry, rfl⟩ := List.mem_map.mp hmem
      exact ⟨entry, hentry, found, (refs_inlinedInput hresolved hall).mp hfound, rfl⟩
    · rintro ⟨entry, hentry, found, hfound, rfl⟩
      exact ⟨_, List.mem_map_of_mem hentry, found,
        (refs_inlinedInput hresolved hall).mpr hfound, rfl⟩

end

/-- **Inlining keeps its promises, except that it lowers what it rewrites.** It does what it
promises exactly when the outputs refer to each other in a circle, when nothing refers to an output
of the config, or when no tuple, set or nested model stands in an output or in an input it
rewrites. -/
theorem inlineStackOutputs_promised_iff (order : Tree → String) (registry : ResourceRegistry D B) :
    Promised order registry ↔ (¬ Cyclic registry.outputs →
      registry.values.any (hasInconfigRef registry.outputs) = true → NothingLowered registry) := by
  constructor
  · rintro hpromised hacyclic hsome
    have hends := inlineStackOutputs_ends order hsome
    cases hrun : inlineStackOutputs order registry with
    | error fault =>
      rw [hrun] at hends
      exact absurd hends.2 hacyclic
    | ok result =>
      rw [hrun] at hends
      obtain ⟨hresolved, hall, hresult⟩ := hends
      have hinlined := hpromised.inlines result hrun
      constructor
      · intro key expr hexpr
        obtain ⟨image, himage⟩ :=
          Option.isSome_iff_exists.mp (hall key (Option.isSome_of_eq_some hexpr))
        obtain ⟨own, hown, rfl⟩ := hresolved.stands key image himage
        rw [hexpr] at hown
        cases hown
        have hsame := hinlined.outputs key
        rw [himage, hexpr, Option.map_some] at hsame
        exact Tree.inline_eq_substitute_iff.mp (Option.some.inj hsame)
      · intro resource hresource entry hentry
        have hresources := hinlined.resources
        rw [congrArg ResourceRegistry.resources hresult] at hresources
        have hinputs :=
          congrArg Resource.inputs (List.map_inj_left.mp hresources resource hresource)
        have hvalue := congrArg Prod.snd (List.map_inj_left.mp hinputs entry hentry)
        exact (inlinedInput_eq_substitute_iff hresolved).mp hvalue
  · intro hcondition
    cases hsome : registry.values.any (hasInconfigRef registry.outputs) with
    | false =>
      have hrun := inlineStackOutputs_untouched order hsome
      constructor
      · rw [hrun]
        exact fun hdepth => by cases hdepth
      · rw [hrun]
        exact iff_of_false (fun hcycle => by
          obtain ⟨_, hcycle⟩ := hcycle
          cases hcycle) (not_cyclic_of_untouched hsome)
      · intro result hresult
        rw [hrun] at hresult
        cases hresult
        exact inlined_untouched hsome
    | true =>
      have hends := inlineStackOutputs_ends order hsome
      cases hrun : inlineStackOutputs order registry with
      | error fault =>
        rw [hrun] at hends
        obtain ⟨⟨chain, rfl⟩, hcyclic⟩ := hends
        constructor
        · rw [hrun]
          exact fun hdepth => by cases hdepth
        · rw [hrun]
          exact iff_of_true ⟨chain, rfl⟩ hcyclic
        · intro result hresult
          rw [hrun] at hresult
          cases hresult
      | ok result =>
        rw [hrun] at hends
        obtain ⟨hresolved, hall, hresult⟩ := hends
        have hacyclic := hresolved.not_cyclic hall
        constructor
        · rw [hrun]
          exact fun hdepth => by cases hdepth
        · rw [hrun]
          exact iff_of_false (fun hcycle => by
            obtain ⟨_, hcycle⟩ := hcycle
            cases hcycle) hacyclic
        · intro other hother
          rw [hrun] at hother
          cases hother
          exact inlined_of_nothingLowered hresolved hall hresult (hcondition hacyclic hsome)

/-- Two stacks, the second of which exports what the first does; the first exports a tuple. -/
def reexported : ResourceRegistry Unit Unit where
  resources := []
  distinct := List.nodup_nil
  policyBindings := []
  outputs := [("a:x", .seq .tuple [.int 1, .int 2]), ("b:y", .stackOutputRef "a" "x")]
  inputs := []
  envsDeclared := []
  envsSelected := []

/-- The tuple comes out as a list. -/
theorem reexported_lowered : ¬ Promised (fun _ => "") reexported := by
  intro hpromised
  have hplain : (inlineStackOutputs (fun _ => "") reexported).toOption.any fun result =>
      (result.outputs.lookup "a:x").any (·.isPlain) := by decide +kernel
  cases hrun : inlineStackOutputs (fun _ => "") reexported with
  | error fault =>
    rw [hrun] at hplain
    cases hplain
  | ok result =>
    have houtput : result.outputs.lookup "a:x" = some (.seq .tuple [.int 1, .int 2]) :=
      (hpromised.inlines result hrun).outputs "a:x"
    rw [hrun, Except.toOption, Option.any_some, houtput, Option.any_some] at hplain
    cases hplain

end Inline

end Atlantide
