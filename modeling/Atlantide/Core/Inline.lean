import Atlantide.Core.Tree
import Atlantide.Lib.Ending
import Atlantide.Lib.Fallible
import Mathlib.Data.List.Perm.Subperm
import Mathlib.Data.List.Dedup
import Mathlib.Logic.Relation

/-! # Inlining the outputs of stacks declared together

A reference to an output that the same config declares is replaced by the expression declared for
it, so that lowering sees the upstream resources behind it. Outputs may refer to outputs: each is
resolved once, along the references in it, and a key met again on the way is a cycle. -/

namespace Atlantide

open Ending

/-- A declared resource, with what else it declares as `declared`. -/
structure Inline.Resource (D : Type) where
  nodeId : String
  inputs : List (String × Tree)
  declared : D

/-- What one evaluation of a config declared: the resources in the order of their ids and the
outputs in the order of their declarations. -/
structure Inline.ResourceRegistry (D B : Type) where
  resources : List (Inline.Resource D)
  distinct : (resources.map (·.nodeId)).Nodup
  policyBindings : List B
  outputs : List (String × Tree)
  inputs : List (String × Value)
  envsDeclared : List String
  envsSelected : List String

inductive Inline.Fault
  | cycle (chain : List String)
  | depth
  deriving DecidableEq

namespace Tree

/-- What a container becomes once its children are rewritten. A transform stays one; `order` is the
text a set's items are ordered by. -/
def lowered (order : Tree → String) : Tree → List Tree → Tree
  | seq .set _, items => seq .list (items.mergeSort fun a b => decide (order a ≤ order b))
  | seq _ _, items => seq .list items
  | table _ fields, values => table .dict ((fields.map Prod.fst).zip values)
  | transform op _, args => transform op args
  | value, _ => value

section

variable {m : Type → Type} [Monad m] (order : Tree → String) (leaf : String → m (Option Tree))

mutual

/-- `tree_map` with a leaf that knows the references it replaces by their key and goes through the
arguments of a transform. -/
def treeMap : Tree → m Tree
  | stackOutputRef stack name => do
    return (← leaf (stack ++ ":" ++ name)).getD (stackOutputRef stack name)
  | seq kind items => do return lowered order (seq kind items) (← treeMapItems items)
  | transform op args => do return lowered order (transform op args) (← treeMapItems args)
  | table kind fields => do return lowered order (table kind fields) (← treeMapFields fields)
  | value => return value

def treeMapItems : List Tree → m (List Tree)
  | [] => return []
  | item :: items => do return (← treeMap item) :: (← treeMapItems items)

def treeMapFields : List (String × Tree) → m (List Tree)
  | [] => return []
  | (_, value) :: fields => do return (← treeMap value) :: (← treeMapFields fields)

end

end

/-- A value with the references that `resolved` has a value for replaced. -/
def inline (order : Tree → String) (resolved : String → Option Tree) (value : Tree) : Tree :=
  (treeMap (m := Id) order resolved value).run

section

variable {order : Tree → String}

theorem children_lowered {value : Tree} {items : List Tree} (hcontainer : value.isContainer)
    (hlength : items.length = value.children.length) :
    (lowered order value items).isContainer ∧ (lowered order value items).children.Perm items := by
  cases value with
  | seq kind old =>
    refine ⟨by cases kind <;> rfl, ?_⟩
    cases kind with
    | set => exact List.mergeSort_perm _ _
    | list | tuple => exact .refl _
  | transform op args => exact ⟨rfl, .refl _⟩
  | table kind fields =>
    have hsame : items.length = (fields.map Prod.fst).length := by
      rw [hlength, children, List.length_map, List.length_map]
    have hvalues : ((fields.map Prod.fst).zip items).map Prod.snd = items :=
      List.map_snd_zip (Nat.le_of_eq hsame)
    exact ⟨rfl, .of_eq hvalues⟩
  | _ => cases hcontainer

theorem mem_leaves_lowered {value leaf : Tree} {items : List Tree} (hcontainer : value.isContainer)
    (hlength : items.length = value.children.length) :
    leaf ∈ (lowered order value items).leaves ↔ ∃ item ∈ items, leaf ∈ item.leaves := by
  obtain ⟨hlowered, hperm⟩ := @children_lowered order value items hcontainer hlength
  rw [leaves_of_container hlowered, List.mem_flatMap]
  simp only [hperm.mem_iff]

section

variable {m : Type → Type} [Monad m] [LawfulMonad m] {leaf : String → m (Option Tree)}

theorem treeMapItems_eq (items : List Tree) :
    treeMapItems order leaf items = items.mapM (treeMap order leaf) := by
  induction items with
  | nil => rw [treeMapItems, List.mapM_nil]
  | cons item items ih => rw [treeMapItems, List.mapM_cons, ih]

theorem treeMapFields_eq (fields : List (String × Tree)) :
    treeMapFields order leaf fields = (fields.map Prod.snd).mapM (treeMap order leaf) := by
  induction fields with
  | nil => rw [treeMapFields, List.map_nil, List.mapM_nil]
  | cons entry fields ih => rw [treeMapFields, List.map_cons, List.mapM_cons, ih]

theorem treeMap_container {value : Tree} (hcontainer : value.isContainer) :
    treeMap order leaf value =
      lowered order value <$> value.children.mapM (treeMap order leaf) := by
  cases value with
  | seq kind items | transform op items =>
    rw [treeMap, treeMapItems_eq, children, bind_pure_comp]
  | table kind fields => rw [treeMap, treeMapFields_eq, children, bind_pure_comp]
  | _ => cases hcontainer

theorem treeMap_of_stackKey? {value : Tree} {key : String} (hkey : value.stackKey? = some key) :
    treeMap order leaf value = (·.getD value) <$> leaf key := by
  cases value with
  | stackOutputRef stack name =>
    cases hkey
    rw [treeMap, bind_pure_comp]
  | _ => cases hkey

omit [LawfulMonad m] in
theorem treeMap_of_leaf {value : Tree} (hleaf : value.isContainer = false)
    (hkey : value.stackKey? = none) : treeMap order leaf value = pure value := by
  cases value with
  | seq _ _ | transform _ _ | table _ _ => cases hleaf
  | stackOutputRef stack name => cases hkey
  | _ => rw [treeMap] <;> simp

end

variable {resolved : String → Option Tree}

theorem inline_container {value : Tree} (hcontainer : value.isContainer) :
    value.inline order resolved =
      lowered order value (value.children.map (inline order resolved)) := by
  have hchildren : (value.children.mapM (treeMap (m := Id) order resolved)).run =
      value.children.map (inline order resolved) := List.idRun_mapM
  rw [inline, treeMap_container hcontainer, Id.run_map, hchildren]

/-- What stands for a leaf once the references are replaced. -/
theorem inline_leaf {value : Tree} (hleaf : value.isContainer = false) :
    value.inline order resolved = (value.stackKey?.bind resolved).getD value := by
  cases hkey : value.stackKey? with
  | none => rw [inline, treeMap_of_leaf hleaf hkey, Id.run_pure, Option.bind_none, Option.getD_none]
  | some key => rw [inline, treeMap_of_stackKey? hkey, Id.run_map]; rfl

theorem inline_congr {value : Tree} {other : String → Option Tree}
    (hagree : ∀ key ∈ value.stackKeys, resolved key = other key) :
    value.inline order resolved = value.inline order other := by
  induction value using ind with
  | step value ih =>
    cases hcontainer : value.isContainer with
    | false =>
      rw [inline_leaf hcontainer, inline_leaf hcontainer]
      cases hkey : value.stackKey? with
      | none => rfl
      | some key =>
        have hmem : key ∈ value.stackKeys := by simp [stackKeys_of_leaf hcontainer, hkey]
        rw [Option.bind_some, Option.bind_some, hagree key hmem]
    | true =>
      rw [inline_container hcontainer, inline_container hcontainer]
      congr 1
      apply List.map_congr_left
      intro child hchild
      exact ih child hchild fun key hmem => hagree key (stackKeys_child hcontainer hchild hmem)

/-- The leaves of an inlined value are those of what stands for its leaves. -/
theorem mem_leaves_inline {value leaf : Tree} : leaf ∈ (value.inline order resolved).leaves ↔
    ∃ source ∈ value.leaves, leaf ∈ ((source.stackKey?.bind resolved).getD source).leaves := by
  induction value using ind with
  | step value ih =>
    cases hcontainer : value.isContainer with
    | false => simp [inline_leaf hcontainer, leaves_of_leaf hcontainer]
    | true =>
      rw [inline_container hcontainer, mem_leaves_lowered hcontainer (List.length_map ..),
        leaves_of_container hcontainer]
      constructor
      · rintro ⟨item, hitem, hleaf⟩
        obtain ⟨child, hchild, rfl⟩ := List.mem_map.mp hitem
        obtain ⟨source, hsource, hleaf⟩ := (ih child hchild).mp hleaf
        exact ⟨source, List.mem_flatMap.mpr ⟨child, hchild, hsource⟩, hleaf⟩
      · rintro ⟨source, hsource, hleaf⟩
        obtain ⟨child, hchild, hsource⟩ := List.mem_flatMap.mp hsource
        exact ⟨_, List.mem_map_of_mem hchild, (ih child hchild).mpr ⟨source, hsource, hleaf⟩⟩

/-- A leaf of an inlined value is one of the value's own that nothing replaces, or stands in what
replaces one. -/
theorem mem_leaves_inline_iff {value leaf : Tree} : leaf ∈ (value.inline order resolved).leaves ↔
    leaf ∈ value.leaves ∧ leaf.stackKey?.bind resolved = none ∨
      ∃ key ∈ value.stackKeys, ∃ image, resolved key = some image ∧ leaf ∈ image.leaves := by
  rw [mem_leaves_inline]
  constructor
  · rintro ⟨source, hsource, hleaf⟩
    cases hfound : source.stackKey?.bind resolved with
    | none =>
      rw [hfound, Option.getD_none, leaves_of_leaf (isContainer_of_mem_leaves hsource),
        List.mem_singleton] at hleaf
      subst hleaf
      exact .inl ⟨hsource, hfound⟩
    | some image =>
      rw [hfound, Option.getD_some] at hleaf
      obtain ⟨key, hkey, himage⟩ := Option.bind_eq_some_iff.mp hfound
      exact .inr ⟨key, mem_stackKeys.mpr ⟨source, hsource, hkey⟩, image, himage, hleaf⟩
  · rintro (⟨hleaf, hnone⟩ | ⟨key, hmem, image, himage, hleaf⟩)
    · refine ⟨leaf, hleaf, ?_⟩
      rw [hnone, Option.getD_none, leaves_of_leaf (isContainer_of_mem_leaves hleaf)]
      exact List.mem_singleton_self leaf
    · obtain ⟨source, hsource, hkey⟩ := mem_stackKeys.mp hmem
      refine ⟨source, hsource, ?_⟩
      rw [hkey, Option.bind_some, himage, Option.getD_some]
      exact hleaf

theorem mem_refs_inline {value : Tree} {found : Ref} : found ∈ (value.inline order resolved).refs ↔
    found ∈ value.refs ∨
      ∃ key ∈ value.stackKeys, ∃ image, resolved key = some image ∧ found ∈ image.refs := by
  simp only [mem_refs, mem_leaves_inline_iff, stackKey?, Option.bind_none, and_true]

/-- A reference left in an inlined value is one of its own that nothing replaces, or stands in what
replaces one. -/
theorem stackKeys_inline {value : Tree} {target : String}
    (hmem : target ∈ (value.inline order resolved).stackKeys) :
    target ∈ value.stackKeys ∧ resolved target = none ∨
      ∃ key ∈ value.stackKeys, ∃ image, resolved key = some image ∧ target ∈ image.stackKeys := by
  obtain ⟨leaf, hleaf, htarget⟩ := mem_stackKeys.mp hmem
  rcases mem_leaves_inline_iff.mp hleaf with ⟨hleaf, hnone⟩ | ⟨key, hkey, image, himage, hleaf⟩
  · rw [htarget, Option.bind_some] at hnone
    exact .inl ⟨mem_stackKeys.mpr ⟨leaf, hleaf, htarget⟩, hnone⟩
  · exact .inr ⟨key, hkey, image, himage, mem_stackKeys.mpr ⟨leaf, hleaf, htarget⟩⟩

end

end Tree

namespace Inline

variable {D B : Type}

def hasInconfigRef (outputs : List (String × Tree)) (value : Tree) : Bool :=
  value.stackKeys.any fun key => (outputs.lookup key).isSome

/-- The outputs resolved so far, in the order they were completed. -/
abbrev Resolution := StateT (List (String × Tree)) (Except Fault)

section

variable (order : Tree → String) (outputs : List (String × Tree))

/-- `seen` is the chain of output keys being resolved. -/
def resolveOutputExpr : Nat → String → List String → Resolution (Option Tree)
  | fuel, key, seen => do
    match outputs.lookup key with
    | none => return none
    | some expr =>
      match (← get).lookup key with
      | some value => return some value
      | none =>
        if key ∈ seen then throw (.cycle (seen ++ [key]))
        else match fuel with
        | 0 => throw .depth
        | fuel + 1 => do
          let result ← expr.treeMap order fun target =>
            resolveOutputExpr fuel target (seen ++ [key])
          modify (· ++ [(key, result)])
          return some result

/-- Every output resolved, on enough fuel for the longest chain. -/
def resolveOutputs : Except Fault (List (String × Tree)) := do
  let (_, resolved) ← (outputs.mapM fun entry =>
    resolveOutputExpr order outputs (outputs.length + 1) entry.1 []).run []
  return resolved

end

/-- An input is rewritten only if it refers to an output of the config. -/
def inlinedInput (order : Tree → String) (outputs resolved : List (String × Tree)) (value : Tree) :
    Tree :=
  if hasInconfigRef outputs value then value.inline order (List.lookup · resolved) else value

def Resource.inlined (order : Tree → String) (outputs resolved : List (String × Tree))
    (resource : Resource D) : Resource D :=
  { resource with
    inputs := resource.inputs.map fun (name, value) =>
      (name, inlinedInput order outputs resolved value) }

/-- Registering the same ids again meets none twice. -/
theorem ResourceRegistry.distinct_map (registry : ResourceRegistry D B)
    {image : Resource D → Resource D}
    (hid : ∀ resource, (image resource).nodeId = resource.nodeId) :
    ((registry.resources.map image).map (·.nodeId)).Nodup := by
  have hids : (registry.resources.map image).map (·.nodeId) =
      registry.resources.map (·.nodeId) := by
    rw [List.map_map]
    exact List.map_congr_left fun resource _ => hid resource
  rw [hids]
  exact registry.distinct

/-- The values of a registry that may refer to an output. -/
def ResourceRegistry.values (registry : ResourceRegistry D B) : List Tree :=
  registry.resources.flatMap (fun resource => resource.inputs.map Prod.snd) ++
    registry.outputs.map Prod.snd

def inlineStackOutputs (order : Tree → String) (registry : ResourceRegistry D B) :
    Except Fault (ResourceRegistry D B) :=
  if registry.values.any (hasInconfigRef registry.outputs) then do
    let resolved ← resolveOutputs order registry.outputs
    return { registry with
      resources := registry.resources.map (·.inlined order registry.outputs resolved)
      distinct := registry.distinct_map fun _ => rfl
      outputs := resolved }
  else return registry

section

variable {order : Tree → String} {outputs : List (String × Tree)}

theorem isSome_lookup_iff {entries : List (String × Tree)} {key : String} :
    (entries.lookup key).isSome ↔ key ∈ entries.map Prod.fst := by
  simp [List.lookup_isSome_iff]

theorem lookup_of_mem {entries : List (String × Tree)} (hdistinct : (entries.map Prod.fst).Nodup)
    {entry : String × Tree} (hentry : entry ∈ entries) : entries.lookup entry.1 = some entry.2 := by
  induction entries with
  | nil => cases hentry
  | cons first entries ih =>
    rw [List.map_cons, List.nodup_cons] at hdistinct
    rcases List.mem_cons.mp hentry with rfl | hentry
    · exact List.lookup_cons_self
    · have hne : entry.1 ≠ first.1 := fun hsame =>
        hdistinct.1 (hsame ▸ List.mem_map_of_mem hentry)
      rw [List.lookup_cons, beq_false_of_ne hne]
      exact ih hdistinct.2 hentry

/-- The expression of one output refers to another output of the config. -/
def Refers (outputs : List (String × Tree)) (source target : String) : Prop :=
  ∃ expr, outputs.lookup source = some expr ∧ target ∈ expr.stackKeys ∧
    (outputs.lookup target).isSome

def Cyclic (outputs : List (String × Tree)) : Prop :=
  ∃ key, Relation.TransGen (Refers outputs) key key

/-- What is resolved stands for its expression, what that refers to is resolved as well, and no way
along the references from it is endless. -/
structure Resolved (order : Tree → String) (outputs resolved : List (String × Tree)) : Prop where
  stands : ∀ key value, resolved.lookup key = some value → ∃ expr, outputs.lookup key = some expr ∧
    value = expr.inline order (List.lookup · resolved)
  closed : ∀ source target, (resolved.lookup source).isSome → Refers outputs source target →
    (resolved.lookup target).isSome
  founded : ∀ key, (resolved.lookup key).isSome → Acc (flip (Refers outputs)) key
  distinct : (resolved.map Prod.fst).Nodup

def Grows (resolved later : List (String × Tree)) : Prop :=
  ∀ key value, resolved.lookup key = some value → later.lookup key = some value

theorem Grows.refl (resolved : List (String × Tree)) : Grows resolved resolved :=
  fun _ _ hvalue => hvalue

theorem Grows.trans {first second third : List (String × Tree)} (hfirst : Grows first second)
    (hsecond : Grows second third) : Grows first third :=
  fun key value hvalue => hsecond key value (hfirst key value hvalue)

theorem Grows.isSome {resolved later : List (String × Tree)} (hgrows : Grows resolved later)
    {key : String} (hkey : (resolved.lookup key).isSome) : (later.lookup key).isSome := by
  obtain ⟨value, hvalue⟩ := Option.isSome_iff_exists.mp hkey
  rw [hgrows key value hvalue, Option.isSome_some]

theorem Resolved.empty : Resolved order outputs [] where
  stands _ _ hvalue := by cases hvalue
  closed _ _ hkey := by cases hkey
  founded _ hkey := by cases hkey
  distinct := List.nodup_nil

theorem Resolved.isSome_output {resolved : List (String × Tree)}
    (hresolved : Resolved order outputs resolved) {key : String} (hkey : (resolved.lookup key).isSome) : (outputs.lookup key).isSome := by
  obtain ⟨value, hvalue⟩ := Option.isSome_iff_exists.mp hkey
  obtain ⟨expr, hexpr, _⟩ := hresolved.stands key value hvalue
  rw [hexpr, Option.isSome_some]

/-- What a value was rewritten to: the outputs it refers to are resolved, and it stays what the
value is inlined to as more of them are. -/
structure Settles (order : Tree → String) (outputs : List (String × Tree)) (value image : Tree)
    (resolved : List (String × Tree)) : Prop where
  known : ∀ key ∈ value.stackKeys, (outputs.lookup key).isSome → (resolved.lookup key).isSome
  image : ∀ later, Grows resolved later → Resolved order outputs later →
    image = value.inline order (List.lookup · later)

theorem Settles.later {value image : Tree} {resolved later : List (String × Tree)}
    (hsettles : Settles order outputs value image resolved) (hgrows : Grows resolved later) :
    Settles order outputs value image later where
  known key hkey hdeclared := hgrows.isSome (hsettles.known key hkey hdeclared)
  image final hfinal := hsettles.image final (hgrows.trans hfinal)

/-- More is resolved, but none of the keys on the way to here. -/
structure Advances (seen : List String) (before after : List (String × Tree)) : Prop where
  grows : Grows before after
  spares : ∀ key ∈ seen, before.lookup key = none → after.lookup key = none

theorem Advances.refl (seen : List String) (resolved : List (String × Tree)) :
    Advances seen resolved resolved :=
  ⟨Grows.refl resolved, fun _ _ hnone => hnone⟩

theorem Advances.trans {seen : List String} {first second third : List (String × Tree)}
    (hfirst : Advances seen first second) (hsecond : Advances seen second third) :
    Advances seen first third where
  grows := hfirst.grows.trans hsecond.grows
  spares key hmem hnone := hsecond.spares key hmem (hfirst.spares key hmem hnone)

/-- A faithful answer for the output of a key: what it is resolved to, if the config declares it. -/
structure Answers (order : Tree → String) (outputs : List (String × Tree)) (seen : List String)
    (key : String) (before : List (String × Tree)) (found : Option Tree)
    (after : List (String × Tree)) : Prop where
  resolved : Resolved order outputs after
  advances : Advances seen before after
  known : found = after.lookup key
  declared : (outputs.lookup key).isSome → found.isSome

def Refused (outputs : List (String × Tree)) (fault : Fault) : Prop :=
  (∃ chain, fault = .cycle chain) ∧ Cyclic outputs

theorem Answers.settles {value : Tree} {seen : List String} {key : String}
    {before after : List (String × Tree)} {found : Option Tree}
    (hkey : value.stackKey? = some key) (hleaf : value.isContainer = false)
    (hanswers : Answers order outputs seen key before found after) :
    Settles order outputs value (found.getD value) after := by
  obtain ⟨hafter, _, hfound, hdeclared⟩ := hanswers
  constructor
  · intro target htarget houtput
    rw [Tree.stackKeys_of_leaf hleaf, hkey, Option.toList_some, List.mem_singleton] at htarget
    subst htarget
    exact hfound ▸ hdeclared houtput
  · intro later hgrows hlater
    rw [Tree.inline_leaf hleaf, hkey, Option.bind_some]
    cases hcase : found with
    | some image => rw [hgrows key image (hfound ▸ hcase)]
    | none =>
      have hnone : later.lookup key = none := by
        cases hlook : later.lookup key with
        | none => rfl
        | some image =>
          have houtput := hlater.isSome_output (Option.isSome_of_eq_some hlook)
          have hsome := hdeclared houtput
          rw [hcase] at hsome
          cases hsome
      rw [hnone]

theorem treeMap_ends {act : String → Resolution (Option Tree)} {seen : List String} (value : Tree)
    (hact : ∀ key ∈ value.stackKeys, ∀ before, Resolved order outputs before →
      Ends (act key) before (Answers order outputs seen key before) (Refused outputs)) :
    ∀ before, Resolved order outputs before → Ends (value.treeMap order act) before
      (fun image after => Resolved order outputs after ∧ Advances seen before after ∧
        Settles order outputs value image after) (Refused outputs) := by
  induction value using Tree.ind with
  | step value ih =>
    intro before hbefore
    cases hcontainer : value.isContainer with
    | false =>
      cases hkey : value.stackKey? with
      | none =>
        rw [Tree.treeMap_of_leaf hcontainer hkey]
        refine Ends.pure ⟨hbefore, Advances.refl seen before, ?_, fun later _ _ => ?_⟩
        · intro key hmem
          rw [Tree.stackKeys_of_leaf hcontainer, hkey, Option.toList_none] at hmem
          cases hmem
        · rw [Tree.inline_leaf hcontainer, hkey, Option.bind_none, Option.getD_none]
      | some key =>
        rw [Tree.treeMap_of_stackKey? hkey]
        have hmem : key ∈ value.stackKeys := by simp [Tree.stackKeys_of_leaf hcontainer, hkey]
        apply Ends.map
        apply (hact key hmem before hbefore).mono
        intro found after hanswers
        exact ⟨hanswers.resolved, hanswers.advances, hanswers.settles hkey hcontainer⟩
    | true =>
      rw [Tree.treeMap_container hcontainer]
      apply Ends.map
      apply (Ends.mapM (Advances seen) (Settles order outputs) (Advances.refl seen) Advances.trans
        (fun hadvances hsettles => hsettles.later hadvances.grows) (fun child hchild =>
          ih child hchild fun key hkey => hact key (Tree.stackKeys_child hcontainer hchild hkey))
        before hbefore).mono
      rintro images after ⟨hafter, hadvances, hsettled⟩
      refine ⟨hafter, hadvances, ?_, ?_⟩
      · intro key hmem hdeclared
        obtain ⟨leaf, hleaf, hkey⟩ := Tree.mem_stackKeys.mp hmem
        rw [Tree.leaves_of_container hcontainer] at hleaf
        obtain ⟨child, hchild, hleaf⟩ := List.mem_flatMap.mp hleaf
        obtain ⟨image, _, hsettles⟩ := Fallible.exists_of_forall₂ hsettled child hchild
        exact hsettles.known key (Tree.mem_stackKeys.mpr ⟨leaf, hleaf, hkey⟩) hdeclared
      · intro later hlater hfinal
        rw [Tree.inline_container hcontainer]
        congr 1
        rw [← List.forall₂_eq_eq_eq, List.forall₂_map_right_iff]
        exact hsettled.flip.imp fun image child hsettles => hsettles.image later hlater hfinal

theorem lookup_concat {entries : List (String × Tree)} {key other : String} {result value : Tree}
    (hvalue : (entries ++ [(key, result)]).lookup other = some value) :
    entries.lookup other = some value ∨ other = key ∧ value = result := by
  rw [List.lookup_append, Option.or_eq_some_iff] at hvalue
  rcases hvalue with hvalue | ⟨_, hvalue⟩
  · exact .inl hvalue
  · by_cases hsame : other = key
    · rw [hsame, List.lookup_cons_self] at hvalue
      exact .inr ⟨hsame, (Option.some.inj hvalue).symm⟩
    · rw [List.lookup_cons, beq_false_of_ne hsame] at hvalue
      cases hvalue

/-- A completed output joins what is resolved. -/
theorem Resolved.complete {resolved : List (String × Tree)} {key : String} {expr result : Tree}
    (hresolved : Resolved order outputs resolved) (hexpr : outputs.lookup key = some expr)
    (hnew : resolved.lookup key = none) (hsettles : Settles order outputs expr result resolved) :
    Resolved order outputs (resolved ++ [(key, result)]) ∧
      Grows resolved (resolved ++ [(key, result)]) ∧ (resolved ++ [(key, result)]).lookup key = some result := by
  have hgrows : Grows resolved (resolved ++ [(key, result)]) := by
    intro other value hvalue
    rw [List.lookup_append, hvalue, Option.some_or]
  have hself : (resolved ++ [(key, result)]).lookup key = some result := by
    rw [List.lookup_append, hnew, Option.none_or, List.lookup_cons_self]
  have hknown : ∀ target, Refers outputs key target → (resolved.lookup target).isSome := by
    rintro target ⟨found, hfound, hmem, hdeclared⟩
    rw [hexpr] at hfound
    cases hfound
    exact hsettles.known target hmem hdeclared
  have hsame : ∀ value : Tree, (∀ target ∈ value.stackKeys, (outputs.lookup target).isSome →
      (resolved.lookup target).isSome) → value.inline order (List.lookup · resolved) =
        value.inline order (List.lookup · (resolved ++ [(key, result)])) := by
    intro value htargets
    apply Tree.inline_congr
    intro target hmem
    cases hfound : resolved.lookup target with
    | some image => rw [hgrows target image hfound]
    | none =>
      cases hlater : (resolved ++ [(key, result)]).lookup target with
      | none => rfl
      | some image =>
        rcases lookup_concat hlater with hold | ⟨rfl, _⟩
        · rw [hfound] at hold
          cases hold
        · have hsome := htargets target hmem (Option.isSome_of_eq_some hexpr)
          rw [hfound] at hsome
          cases hsome
  refine ⟨⟨?_, ?_, ?_, ?_⟩, hgrows, hself⟩
  · intro other value hvalue
    rcases lookup_concat hvalue with hold | ⟨rfl, rfl⟩
    · obtain ⟨found, hfound, rfl⟩ := hresolved.stands other value hold
      exact ⟨found, hfound, hsame found fun target hmem hdeclared => hresolved.closed other target
        (Option.isSome_of_eq_some hold) ⟨found, hfound, hmem, hdeclared⟩⟩
    · refine ⟨expr, hexpr, ?_⟩
      rw [← hsame expr hsettles.known]
      exact hsettles.image resolved (Grows.refl resolved) hresolved
  · intro source target hsource hrefers
    obtain ⟨value, hvalue⟩ := Option.isSome_iff_exists.mp hsource
    apply hgrows.isSome
    rcases lookup_concat hvalue with hold | ⟨rfl, _⟩
    · exact hresolved.closed source target (Option.isSome_of_eq_some hold) hrefers
    · exact hknown target hrefers
  · intro other hother
    obtain ⟨value, hvalue⟩ := Option.isSome_iff_exists.mp hother
    rcases lookup_concat hvalue with hold | ⟨rfl, _⟩
    · exact hresolved.founded other (Option.isSome_of_eq_some hold)
    · exact ⟨_, fun target hrefers => hresolved.founded target (hknown target hrefers)⟩
  · rw [List.map_append, List.nodup_append]
    refine ⟨hresolved.distinct, List.nodup_cons.mpr ⟨List.not_mem_nil, List.nodup_nil⟩, ?_⟩
    intro other hother last hlast
    rw [List.map_cons, List.map_nil, List.mem_singleton] at hlast
    subst hlast
    rintro rfl
    have hsome := isSome_lookup_iff.mpr hother
    rw [hnew] at hsome
    cases hsome

/-- Resolving an output ends with its value, or the outputs refer to each other in a circle. The
keys being resolved are distinct and lead to this one, so fuel for as many as there are outputs is
enough. -/
theorem resolveOutputExpr_ends (fuel : Nat) (key : String) (seen : List String)
    (hdistinct : seen.Nodup) (hdeclared : ∀ earlier ∈ seen, (outputs.lookup earlier).isSome)
    (hpath : (outputs.lookup key).isSome →
      ∀ earlier ∈ seen, Relation.TransGen (Refers outputs) earlier key)
    (hfuel : outputs.length < fuel + seen.length) (before : List (String × Tree))
    (hbefore : Resolved order outputs before) :
    Ends (resolveOutputExpr order outputs fuel key seen) before
      (Answers order outputs seen key before) (Refused outputs) := by
  induction fuel generalizing key seen before with
  | zero =>
    exfalso
    have hsub : seen ⊆ outputs.map Prod.fst := fun earlier hmem =>
      isSome_lookup_iff.mp (hdeclared earlier hmem)
    have hlength := (List.subperm_of_subset hdistinct hsub).length_le
    rw [List.length_map] at hlength
    omega
  | succ fuel ih =>
    unfold resolveOutputExpr
    cases hexpr : outputs.lookup key with
    | none =>
      refine Ends.pure ⟨hbefore, Advances.refl seen before, ?_, fun hsome => ?_⟩
      · cases hfound : before.lookup key with
        | none => rfl
        | some value =>
          have hsome := hbefore.isSome_output (Option.isSome_of_eq_some hfound)
          rw [hexpr] at hsome
          cases hsome
      · rw [hexpr] at hsome
        cases hsome
    | some expr =>
      have hpath := hpath (Option.isSome_of_eq_some hexpr)
      apply Ends.bind
      apply Ends.get
      cases hmemo : before.lookup key with
      | some value =>
        exact Ends.pure ⟨hbefore, Advances.refl seen before, hmemo.symm, fun _ => rfl⟩
      | none =>
        simp only
        split
        · next hcycle => exact Ends.throw ⟨⟨_, rfl⟩, key, hpath key hcycle⟩
        · next hnew =>
          have hcalls : ∀ target ∈ expr.stackKeys, ∀ state, Resolved order outputs state →
              Ends (resolveOutputExpr order outputs fuel target (seen ++ [key])) state
                (Answers order outputs (seen ++ [key]) target state) (Refused outputs) := by
            intro target htarget
            apply ih
            · rw [← List.concat_eq_append]
              exact List.Nodup.concat hnew hdistinct
            · intro earlier hmem
              rcases List.mem_append.mp hmem with hmem | hmem
              · exact hdeclared earlier hmem
              · rw [List.mem_singleton.mp hmem, hexpr, Option.isSome_some]
            · intro houtput earlier hmem
              have hrefers : Refers outputs key target := ⟨expr, hexpr, htarget, houtput⟩
              rcases List.mem_append.mp hmem with hmem | hmem
              · exact (hpath earlier hmem).tail hrefers
              · rw [List.mem_singleton.mp hmem]
                exact .single hrefers
            · rw [List.length_append, List.length_singleton]
              omega
          apply Ends.bind
          apply (treeMap_ends expr hcalls before hbefore).mono
          rintro result after ⟨hafter, hadvances, hsettles⟩
          have hunresolved : after.lookup key = none :=
            hadvances.spares key (List.mem_append_right _ (List.mem_singleton_self key)) hmemo
          obtain ⟨hcomplete, hlater, hself⟩ := hafter.complete hexpr hunresolved hsettles
          apply Ends.bind
          apply Ends.modify
          refine Ends.pure ⟨hcomplete, ⟨hadvances.grows.trans hlater, ?_⟩, hself.symm, fun _ => rfl⟩
          intro earlier hmem hnone
          cases hvalue : (after ++ [(key, result)]).lookup earlier with
          | none => rfl
          | some value =>
            rcases lookup_concat hvalue with hold | ⟨rfl, _⟩
            · rw [hadvances.spares earlier (List.mem_append_left _ hmem) hnone] at hold
              cases hold
            · exact absurd hmem hnew

/-- **Resolving the outputs ends with all of them, or they refer to each other in a circle.** -/
theorem resolveOutputs_ends (order : Tree → String) (outputs : List (String × Tree)) :
    match resolveOutputs order outputs with
    | .ok resolved => Resolved order outputs resolved ∧
        ∀ key, (outputs.lookup key).isSome → (resolved.lookup key).isSome
    | .error fault => Refused outputs fault := by
  have hall : ∀ entry ∈ outputs, ∀ before, Resolved order outputs before →
      Ends (resolveOutputExpr order outputs (outputs.length + 1) entry.1 []) before
        (fun _ after => Resolved order outputs after ∧ Grows before after ∧
          (after.lookup entry.1).isSome) (Refused outputs) := by
    intro entry hentry before hbefore
    apply (resolveOutputExpr_ends (outputs.length + 1) entry.1 [] List.nodup_nil
      (List.forall_mem_nil _) (fun _ => List.forall_mem_nil _) (Nat.lt_succ_self _) before
      hbefore).mono
    intro found after hanswers
    refine ⟨hanswers.resolved, hanswers.advances.grows, hanswers.known ▸ hanswers.declared ?_⟩
    exact isSome_lookup_iff.mpr (List.mem_map_of_mem hentry)
  have hends := Ends.mapM Grows (fun (entry : String × Tree) (_ : Option Tree) resolved =>
    (resolved.lookup entry.1).isSome) Grows.refl Grows.trans
    (fun hgrows hsome => hgrows.isSome hsome) hall [] Resolved.empty
  unfold Ends at hends
  unfold resolveOutputs
  cases hrun : (outputs.mapM fun entry =>
      resolveOutputExpr order outputs (outputs.length + 1) entry.1 []).run [] with
  | error fault =>
    rw [hrun] at hends
    exact hends
  | ok ended =>
    rw [hrun] at hends
    obtain ⟨hresolved, _, hknown⟩ := hends
    refine ⟨hresolved, fun key hkey => ?_⟩
    obtain ⟨entry, hentry, rfl⟩ := List.mem_map.mp (isSome_lookup_iff.mp hkey)
    obtain ⟨_, _, hsome⟩ := Fallible.exists_of_forall₂ hknown entry hentry
    exact hsome

end

end Inline

end Atlantide
