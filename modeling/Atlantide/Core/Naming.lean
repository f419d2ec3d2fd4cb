import Mathlib.Data.List.Induction
import Mathlib.Data.List.Nodup
import Atlantide.Lib.Joins

/-! # Composed names

A config's blocks name what stands in them: a stack and its `name_prefix`, and the components around
a resource. A resource's logical name is composed of its components' names and its own, its node id
and its physical name of that one and the stack's. All are joined by `-`, which a name may hold. -/

namespace Atlantide.Naming

open Joins

structure ResourceClass where
  typeName : String
  /-- The field marked `physical_name`. -/
  nameField : Option String := none
  deriving DecidableEq, Repr

inductive RegistryError
  | invalidName (name : String)
  | duplicate (nodeId : String)
  deriving DecidableEq, Repr

/-- What a config declares, in the blocks it declares it in. -/
inductive Statement
  | resource (cls : ResourceClass) (name : String) (explicit : Bool)
  | component (name : String) (body : List Statement)
  | stack (name : String) (namePrefix : Option String) (body : List Statement)

/-- What is active: the stack, its prefix, and the components from the outermost on. -/
structure Scope where
  stack : String := "default"
  namePrefix : Option String := none
  components : List String := []

/-- A declared resource and the scope it was declared in. -/
structure Resource where
  scope : Scope
  cls : ResourceClass
  name : String
  /-- The config gives the physical name itself. -/
  explicit : Bool

abbrev Registry := List Resource

/-- `IDENTIFIER_RE` -/
def isIdentifier (name : String) : Bool :=
  match name.toList with
  | [] => false
  | c :: rest => c.isAlpha && rest.all fun c => c.isAlphanum || c = '_' || c = '-'

def requireIdentifier (name : String) : Except RegistryError Unit :=
  if isIdentifier name then .ok () else .error (.invalidName name)

def formatNodeId (stack typeName name : String) : String := stack ++ ":" ++ typeName ++ ":" ++ name

/-- A component's name behind the ones around it. -/
def push (current : Option String) (name : String) : Option String :=
  match current with
  | some current => some (if current = "" then name else current ++ "-" ++ name)
  | none => some name

def Scope.activePrefix (scope : Scope) : Option String := scope.components.foldl push none

namespace Resource

variable (resource : Resource)

def logicalName : String :=
  match resource.scope.activePrefix with
  | some active => active ++ "-" ++ resource.name
  | none => resource.name

def nodeId : String :=
  formatNodeId resource.scope.stack resource.cls.typeName resource.logicalName

/-- The physical name `_apply_stack_defaults` composes, where it does. -/
def composed : Option String :=
  match resource.scope.namePrefix with
  | some namePrefix =>
    if resource.cls.nameField.isSome && !resource.explicit then
      some (namePrefix ++ "-" ++ resource.logicalName ++ "-" ++ resource.scope.stack)
    else none
  | none => none

end Resource

def register (registry : Registry) (resource : Resource) : Except RegistryError Registry :=
  if registry.any fun other => other.nodeId = resource.nodeId then
    .error (.duplicate resource.nodeId)
  else .ok (registry ++ [resource])

mutual

def evaluate (scope : Scope) : Statement → Registry → Except RegistryError Registry
  | .resource cls name explicit, registry => do
    requireIdentifier name
    register registry ⟨scope, cls, name, explicit⟩
  | .component name body, registry => do
    requireIdentifier name
    evaluateAll { scope with components := scope.components ++ [name] } body registry
  | .stack name namePrefix body, registry => do
    requireIdentifier name
    evaluateAll { scope with stack := name, namePrefix := namePrefix.or scope.namePrefix } body
      registry

def evaluateAll (scope : Scope) : List Statement → Registry → Except RegistryError Registry
  | [], registry => .ok registry
  | statement :: rest, registry => do
    evaluateAll scope rest (← evaluate scope statement registry)

end

mutual

/-- The names that are checked. -/
def Statement.names : Statement → List String
  | .resource _ name _ => [name]
  | .component name body => name :: namesAll body
  | .stack name _ body => name :: namesAll body

def namesAll : List Statement → List String
  | [] => []
  | statement :: rest => statement.names ++ namesAll rest

end

mutual

/-- The resources that are declared, whether or not they can be registered. -/
def Statement.declared (scope : Scope) : Statement → List Resource
  | .resource cls name explicit => [⟨scope, cls, name, explicit⟩]
  | .component name body => declaredAll { scope with components := scope.components ++ [name] } body
  | .stack name namePrefix body =>
    declaredAll { scope with stack := name, namePrefix := namePrefix.or scope.namePrefix } body

def declaredAll (scope : Scope) : List Statement → List Resource
  | [] => []
  | statement :: rest => statement.declared scope ++ declaredAll scope rest

end

/-! ## What is accepted -/

theorem requireIdentifier_bind {name : String} {α : Type} (next : Except RegistryError α)
    (found : α) : (do requireIdentifier name; next) = .ok found ↔
      isIdentifier name ∧ next = .ok found := by
  unfold requireIdentifier
  cases isIdentifier name with
  | true => exact ⟨fun hok => ⟨rfl, hok⟩, And.right⟩
  | false => exact iff_of_false nofun nofun

theorem register_eq_ok_iff {registry found : Registry} {resource : Resource} :
    register registry resource = .ok found ↔
      resource.nodeId ∉ registry.map Resource.nodeId ∧ found = registry ++ [resource] := by
  have hany : (registry.any fun other => other.nodeId = resource.nodeId) ↔
      resource.nodeId ∈ registry.map Resource.nodeId := by
    simp [List.mem_map]
  unfold register
  split
  · rename_i htaken
    exact iff_of_false nofun fun hfree => hfree.1 (hany.mp htaken)
  · rename_i hfree
    rw [Except.ok.injEq, eq_comm]
    exact (and_iff_right fun htaken => hfree (hany.mpr htaken)).symm

mutual

theorem evaluate_eq_ok_iff (scope : Scope) :
    (statement : Statement) → (registry found : Registry) →
      (registry.map Resource.nodeId).Nodup →
      (evaluate scope statement registry = .ok found ↔
        (∀ name ∈ statement.names, isIdentifier name) ∧
          ((registry ++ statement.declared scope).map Resource.nodeId).Nodup ∧
            found = registry ++ statement.declared scope)
  | .resource cls name explicit, registry, found, hnodup => by
    rw [evaluate, requireIdentifier_bind, register_eq_ok_iff, Statement.names,
      List.forall_mem_singleton, Statement.declared, List.map_append, List.map_singleton,
      List.nodup_append_comm, List.singleton_append, List.nodup_cons, and_iff_left hnodup]
  | .component name body, registry, found, hnodup => by
    rw [evaluate, requireIdentifier_bind, evaluateAll_eq_ok_iff _ body registry found hnodup,
      Statement.names, List.forall_mem_cons, Statement.declared, and_assoc]
  | .stack name namePrefix body, registry, found, hnodup => by
    rw [evaluate, requireIdentifier_bind, evaluateAll_eq_ok_iff _ body registry found hnodup,
      Statement.names, List.forall_mem_cons, Statement.declared, and_assoc]

theorem evaluateAll_eq_ok_iff (scope : Scope) :
    (body : List Statement) → (registry found : Registry) →
      (registry.map Resource.nodeId).Nodup →
      (evaluateAll scope body registry = .ok found ↔
        (∀ name ∈ namesAll body, isIdentifier name) ∧
          ((registry ++ declaredAll scope body).map Resource.nodeId).Nodup ∧
            found = registry ++ declaredAll scope body)
  | [], registry, found, hnodup => by
    rw [evaluateAll, namesAll, declaredAll, List.append_nil, Except.ok.injEq]
    exact ⟨fun heq => ⟨List.forall_mem_nil _, hnodup, heq.symm⟩, fun hfound => hfound.2.2.symm⟩
  | statement :: rest, registry, found, hnodup => by
    rw [evaluateAll, namesAll, declaredAll, List.forall_mem_append, ← List.append_assoc]
    constructor
    · intro hok
      cases hfirst : evaluate scope statement registry with
      | error error =>
        rw [hfirst] at hok
        cases hok
      | ok middle =>
        rw [hfirst] at hok
        obtain ⟨hnames, hmiddle, rfl⟩ :=
          (evaluate_eq_ok_iff scope statement registry middle hnodup).mp hfirst
        obtain ⟨hrest, hall, rfl⟩ :=
          (evaluateAll_eq_ok_iff scope rest _ found hmiddle).mp hok
        exact ⟨⟨hnames, hrest⟩, hall, rfl⟩
    · rintro ⟨⟨hnames, hrest⟩, hall, rfl⟩
      have hmiddle : ((registry ++ statement.declared scope).map Resource.nodeId).Nodup := by
        rw [List.map_append] at hall
        exact hall.of_append_left
      rw [(evaluate_eq_ok_iff scope statement registry _ hnodup).mpr ⟨hnames, hmiddle, rfl⟩]
      exact (evaluateAll_eq_ok_iff scope rest _ _ hmiddle).mpr ⟨hrest, hall, rfl⟩

end

/-! ## The names of a resource -/

theorem activePrefix_toList {scope : Scope} (hnames : ∀ name ∈ scope.components, name ≠ "") :
    scope.activePrefix.map String.toList = if scope.components = [] then none else
      some (['-'].intercalate (scope.components.map String.toList)) := by
  unfold Scope.activePrefix
  generalize scope.components = components at hnames
  induction components using List.reverseRecOn with
  | nil => rfl
  | append_singleton before name ih =>
    rw [List.forall_mem_append, List.forall_mem_singleton] at hnames
    have hbefore := ih hnames.1
    rw [List.foldl_append, List.foldl_cons, List.foldl_nil, if_neg (by simp)]
    by_cases hnone : before = []
    · subst hnone
      simp [push]
    · rw [if_neg hnone, Option.map_eq_some_iff] at hbefore
      obtain ⟨active, hactive, htext⟩ := hbefore
      have hfilled : active ≠ "" := by
        rintro rfl
        obtain ⟨first, rest, rfl⟩ := List.exists_cons_of_ne_nil hnone
        have hfirst : first.toList ≠ [] := by
          rw [ne_eq, String.toList_eq_nil_iff]
          exact hnames.1 first List.mem_cons_self
        cases rest with
        | nil => exact hfirst (by simpa using htext.symm)
        | cons next rest => exact absurd htext.symm (by simp)
      rw [hactive, push, if_neg hfilled, List.map_append, List.map_singleton,
        intercalate_append_singleton (by simpa using hnone), ← htext]
      simp

namespace Resource

def path (resource : Resource) : List String := resource.scope.components ++ [resource.name]

/-- The parts between the dashes of the path's names. -/
def pieces (resource : Resource) : List (List Char) :=
  resource.path.flatMap fun name => name.toList.splitOn '-'

def Named (resource : Resource) : Prop := ∀ name ∈ resource.path, name ≠ ""

variable {resource left right : Resource}

theorem logicalName_toList (hnamed : resource.Named) :
    resource.logicalName.toList = ['-'].intercalate (resource.path.map String.toList) := by
  have hfront := @activePrefix_toList resource.scope fun name hmem =>
    hnamed name (List.mem_append_left _ hmem)
  unfold logicalName path
  cases hactive : resource.scope.activePrefix with
  | none =>
    rw [hactive, Option.map_none] at hfront
    split at hfront
    · rename_i hnone
      rw [hnone]
      simp
    · cases hfront
  | some active =>
    rw [hactive, Option.map_some] at hfront
    split at hfront
    · cases hfront
    · rename_i hsome
      rw [List.map_append, List.map_singleton, intercalate_append_singleton (by simpa using hsome),
        ← Option.some.inj hfront]
      simp

/-- Two logical names are the same when the pieces of their paths are. -/
theorem logicalName_inj (hleft : left.Named) (hright : right.Named) :
    left.logicalName = right.logicalName ↔ left.pieces = right.pieces := by
  have hpieces (resource : Resource) :
      (resource.path.map String.toList).flatMap (·.splitOn '-') = resource.pieces := by
    rw [List.flatMap_map]
    rfl
  rw [← String.toList_inj, logicalName_toList hleft, logicalName_toList hright,
    intercalate_inj (by simp [path]) (by simp [path]), hpieces, hpieces]

theorem nodeId_inj (hstack : left.scope.stack = right.scope.stack)
    (htype : left.cls.typeName = right.cls.typeName) :
    left.nodeId = right.nodeId ↔ left.logicalName = right.logicalName := by
  unfold nodeId formatNodeId
  rw [hstack, htype, String.append_right_inj]

/-- One's stack is the other's behind what the other has at the end of its logical name. -/
def Shifted (left right : Resource) : Prop :=
  ∃ between, left.logicalName = right.logicalName ++ "-" ++ between ∧
    right.scope.stack = between ++ "-" ++ left.scope.stack

theorem shifted_iff : left.Shifted right ↔ ∃ between,
    left.logicalName.toList = right.logicalName.toList ++ '-' :: between ∧
      right.scope.stack.toList = between ++ '-' :: left.scope.stack.toList := by
  constructor
  · rintro ⟨between, hname, hstack⟩
    refine ⟨between.toList, ?_, ?_⟩
    · simp [hname]
    · simp [hstack]
  · rintro ⟨between, hname, hstack⟩
    refine ⟨String.ofList between, ?_, ?_⟩
    · rw [← String.toList_inj, hname]
      simp
    · rw [← String.toList_inj, hstack]
      simp

/-- Composed of one prefix, two physical names are the same when the stacks and the logical names
are, or when they are shifted. -/
theorem composed_inj {namePrefix physical physical' : String}
    (hleft : left.scope.namePrefix = some namePrefix)
    (hright : right.scope.namePrefix = some namePrefix) (hcomposed : left.composed = some physical)
    (hcomposed' : right.composed = some physical') :
    physical = physical' ↔
      (left.logicalName = right.logicalName ∧ left.scope.stack = right.scope.stack) ∨
        left.Shifted right ∨ right.Shifted left := by
  have hname {resource : Resource} {physical : String}
      (hactive : resource.scope.namePrefix = some namePrefix)
      (hcomposed : resource.composed = some physical) :
      physical = namePrefix ++ "-" ++ resource.logicalName ++ "-" ++ resource.scope.stack := by
    rw [composed, hactive] at hcomposed
    simp only at hcomposed
    split at hcomposed
    · exact (Option.some.inj hcomposed).symm
    · cases hcomposed
  rw [hname hleft hcomposed, hname hright hcomposed', shifted_iff, shifted_iff, ← String.toList_inj,
    ← String.toList_inj, ← String.toList_inj, ← joined_eq_iff]
  simp

end Resource

/-! ## The names of a config -/

theorem ne_empty_of_isIdentifier {name : String} (hname : isIdentifier name) : name ≠ "" := by
  rintro rfl
  cases hname

theorem not_mem_of_isIdentifier {name : String} (hname : isIdentifier name) : ':' ∉ name.toList := by
  unfold isIdentifier at hname
  split at hname
  · cases hname
  · rename_i c rest htext
    rw [htext, List.mem_cons, not_or]
    rw [Bool.and_eq_true, List.all_eq_true] at hname
    refine ⟨?_, fun hmem => absurd (hname.2 _ hmem) (by decide)⟩
    rintro rfl
    exact absurd hname.1 (by decide)

section

variable (holds : String → Prop)

def Scope.All (scope : Scope) : Prop := holds scope.stack ∧ ∀ name ∈ scope.components, holds name

/-- The stack and the names of the path have the property. -/
def Resource.All (resource : Resource) : Prop :=
  holds resource.scope.stack ∧ ∀ name ∈ resource.path, holds name

mutual

theorem all_of_declared (scope : Scope) (hscope : scope.All holds) : (statement : Statement) →
    (∀ name ∈ statement.names, holds name) →
    ∀ resource ∈ statement.declared scope, resource.All holds
  | .resource cls name explicit, hnames, resource, hmem => by
    rw [Statement.declared, List.mem_singleton] at hmem
    subst hmem
    exact ⟨hscope.1, List.forall_mem_append.mpr ⟨hscope.2, hnames⟩⟩
  | .component name body, hnames, resource, hmem => by
    rw [Statement.declared] at hmem
    obtain ⟨hname, hbody⟩ := List.forall_mem_cons.mp hnames
    have hinner : Scope.All holds { scope with components := scope.components ++ [name] } :=
      ⟨hscope.1, List.forall_mem_append.mpr ⟨hscope.2, List.forall_mem_singleton.mpr hname⟩⟩
    exact all_of_declaredAll _ hinner body hbody resource hmem
  | .stack name namePrefix body, hnames, resource, hmem => by
    rw [Statement.declared] at hmem
    obtain ⟨hname, hbody⟩ := List.forall_mem_cons.mp hnames
    have hinner : Scope.All holds
        { scope with stack := name, namePrefix := namePrefix.or scope.namePrefix } :=
      ⟨hname, hscope.2⟩
    exact all_of_declaredAll _ hinner body hbody resource hmem

theorem all_of_declaredAll (scope : Scope) (hscope : scope.All holds) : (body : List Statement) →
    (∀ name ∈ namesAll body, holds name) →
    ∀ resource ∈ declaredAll scope body, resource.All holds
  | [], _, resource, hmem => by
    rw [declaredAll] at hmem
    cases hmem
  | statement :: rest, hnames, resource, hmem => by
    rw [namesAll, List.forall_mem_append] at hnames
    rw [declaredAll, List.mem_append] at hmem
    rcases hmem with hmem | hmem
    · exact all_of_declared scope hscope statement hnames.1 resource hmem
    · exact all_of_declaredAll scope hscope rest hnames.2 resource hmem

end

end

def Resource.Valid (resource : Resource) : Prop := resource.All fun name => isIdentifier name

namespace Resource

variable {left right : Resource}

theorem Valid.named (hvalid : left.Valid) : left.Named :=
  fun name hmem => ne_empty_of_isIdentifier (hvalid.2 name hmem)

theorem Valid.not_mem_logicalName (hvalid : left.Valid) : ':' ∉ left.logicalName.toList := by
  rw [logicalName_toList hvalid.named]
  intro hmem
  rcases mem_intercalate hmem with hmem | ⟨text, htext, hmem⟩
  · exact absurd hmem (by decide)
  · obtain ⟨name, hname, rfl⟩ := List.mem_map.mp htext
    exact not_mem_of_isIdentifier (hvalid.2 name hname) hmem

/-- A node id tells the stack, the type and the pieces of the path. -/
theorem nodeId_eq_iff (hleft : left.Valid) (hright : right.Valid) :
    left.nodeId = right.nodeId ↔
      (left.scope.stack, left.cls.typeName, left.pieces) =
        (right.scope.stack, right.cls.typeName, right.pieces) := by
  rw [Prod.mk.injEq, Prod.mk.injEq, ← logicalName_inj hleft.named hright.named]
  constructor
  · intro hsame
    unfold nodeId formatNodeId at hsame
    rw [← String.toList_inj] at hsame
    simp only [String.toList_append, List.append_assoc] at hsame
    obtain ⟨hstack, hrest⟩ := joined_inj_of_not_mem_first (not_mem_of_isIdentifier hleft.1)
      (not_mem_of_isIdentifier hright.1) hsame
    obtain ⟨htype, hname⟩ := joined_inj_of_not_mem_second hleft.not_mem_logicalName
      hright.not_mem_logicalName hrest
    exact ⟨String.toList_inj.mp hstack, String.toList_inj.mp htype, String.toList_inj.mp hname⟩
  · rintro ⟨hstack, htype, hname⟩
    exact (nodeId_inj hstack htype).mpr hname

end Resource

/-- The names a config composes tell its resources apart. -/
structure Distinct (config : List Statement) : Prop where
  /-- Physical names of one prefix, in a config that is accepted. -/
  physical : ∀ registry, evaluateAll {} config [] = .ok registry →
    ∀ left ∈ registry, ∀ right ∈ registry, left.cls.typeName = right.cls.typeName →
    left.nodeId ≠ right.nodeId → ∀ namePrefix, left.scope.namePrefix = some namePrefix →
    right.scope.namePrefix = some namePrefix → ∀ physical physical', left.composed = some physical →
    right.composed = some physical' → physical ≠ physical'
  /-- Node ids of one stack and one type. -/
  nodeIds : ∀ left ∈ declaredAll {} config, ∀ right ∈ declaredAll {} config,
    left.scope.stack = right.scope.stack → left.cls.typeName = right.cls.typeName →
    left.path ≠ right.path → left.nodeId ≠ right.nodeId

/-- No dash of a name can be taken for one that joins. -/
structure Unambiguous (config : List Statement) : Prop where
  /-- No stack of an accepted config takes the end of a logical name for its beginning. -/
  crossings : ∀ registry, evaluateAll {} config [] = .ok registry →
    ∀ left ∈ registry, ∀ right ∈ registry, left.cls.typeName = right.cls.typeName →
    ∀ namePrefix, left.scope.namePrefix = some namePrefix →
    right.scope.namePrefix = some namePrefix → left.composed.isSome → right.composed.isSome →
    ¬ left.Shifted right
  /-- Two paths fall into different pieces. -/
  paths : ∀ left ∈ declaredAll {} config, ∀ right ∈ declaredAll {} config,
    left.scope.stack = right.scope.stack → left.cls.typeName = right.cls.typeName →
    left.path ≠ right.path → left.pieces ≠ right.pieces

variable {config : List Statement}

theorem valid_of_mem (hnames : ∀ name ∈ namesAll config, isIdentifier name) :
    ∀ resource ∈ declaredAll {} config, resource.Valid :=
  all_of_declaredAll _ {} ⟨by decide, List.forall_mem_nil _⟩ config hnames

/-- A config is refused as a duplicate only for two resources whose ids are of the same parts. -/
theorem accepted_iff (hnames : ∀ name ∈ namesAll config, isIdentifier name) :
    (∃ registry, evaluateAll {} config [] = .ok registry) ↔
      ((declaredAll {} config).map fun resource =>
        (resource.scope.stack, resource.cls.typeName, resource.pieces)).Nodup := by
  have hvalid := valid_of_mem hnames
  have hids : ((declaredAll {} config).map Resource.nodeId).Nodup ↔
      ((declaredAll {} config).map fun resource =>
        (resource.scope.stack, resource.cls.typeName, resource.pieces)).Nodup := by
    rw [List.Nodup, List.Nodup, List.pairwise_map, List.pairwise_map]
    refine List.Pairwise.iff_of_mem fun {left right} hleft hright => ?_
    rw [ne_eq, ne_eq, Resource.nodeId_eq_iff (hvalid left hleft) (hvalid right hright)]
  rw [← hids]
  constructor
  · rintro ⟨registry, hok⟩
    exact ((evaluateAll_eq_ok_iff {} config [] registry List.nodup_nil).mp hok).2.1
  · intro hnodup
    exact ⟨_, (evaluateAll_eq_ok_iff {} config [] _ List.nodup_nil).mpr ⟨hnames, hnodup, rfl⟩⟩

/-- **Composed names are distinct** when no dash of a name can be taken for one that joins; and a
config whose names are identifiers is accepted when its resources' ids are of different parts. -/
theorem composed_names_distinct (hnames : ∀ name ∈ namesAll config, isIdentifier name) :
    (Distinct config ↔ Unambiguous config) ∧
    ((∃ registry, evaluateAll {} config [] = .ok registry) ↔
      ((declaredAll {} config).map fun resource =>
        (resource.scope.stack, resource.cls.typeName, resource.pieces)).Nodup) := by
  have hvalid := valid_of_mem hnames
  have hregistry {registry : Registry} (hok : evaluateAll {} config [] = .ok registry) :
      ∀ resource ∈ registry, resource.Valid := by
    rw [((evaluateAll_eq_ok_iff {} config [] registry List.nodup_nil).mp hok).2.2]
    exact hvalid
  have hsame {left right : Resource} (hleft : left ∈ declaredAll {} config)
      (hright : right ∈ declaredAll {} config) (hstack : left.scope.stack = right.scope.stack)
      (htype : left.cls.typeName = right.cls.typeName) :
      left.nodeId = right.nodeId ↔ left.pieces = right.pieces := by
    rw [Resource.nodeId_inj hstack htype,
      Resource.logicalName_inj (hvalid left hleft).named (hvalid right hright).named]
  refine ⟨⟨fun hdistinct => ⟨?_, ?_⟩, fun hclear => ⟨?_, ?_⟩⟩, accepted_iff hnames⟩
  · intro registry hok left hleft right hright htype namePrefix hactive hactive' hsome hsome' hshift
    obtain ⟨physical, hcomposed⟩ := Option.isSome_iff_exists.mp hsome
    obtain ⟨physical', hcomposed'⟩ := Option.isSome_iff_exists.mp hsome'
    refine hdistinct.physical registry hok left hleft right hright htype ?_ namePrefix hactive
      hactive' physical physical' hcomposed hcomposed' ?_
    · intro hid
      obtain ⟨between, -, hstack⟩ := hshift
      rw [Resource.nodeId_eq_iff (hregistry hok left hleft) (hregistry hok right hright),
        Prod.mk.injEq] at hid
      have hlength := congrArg (·.toList.length) (hid.1.trans hstack)
      simp at hlength
      omega
    · exact (Resource.composed_inj hactive hactive' hcomposed hcomposed').mpr (.inr (.inl hshift))
  · intro left hleft right hright hstack htype hpath hpieces
    exact hdistinct.nodeIds left hleft right hright hstack htype hpath
      ((hsame hleft hright hstack htype).mpr hpieces)
  · intro registry hok left hleft right hright htype hid namePrefix hactive hactive' physical
      physical' hcomposed hcomposed' heq
    have hsome : left.composed.isSome := Option.isSome_of_mem hcomposed
    have hsome' : right.composed.isSome := Option.isSome_of_mem hcomposed'
    rcases (Resource.composed_inj hactive hactive' hcomposed hcomposed').mp heq with
      ⟨hname, hstack⟩ | hshift | hshift
    · exact hid ((Resource.nodeId_inj hstack htype).mpr hname)
    · exact hclear.crossings registry hok left hleft right hright htype namePrefix hactive hactive'
        hsome hsome' hshift
    · exact hclear.crossings registry hok right hright left hleft htype.symm namePrefix hactive'
        hactive hsome' hsome hshift
  · intro left hleft right hright hstack htype hpath hid
    exact hclear.paths left hleft right hright hstack htype hpath
      ((hsame hleft hright hstack htype).mp hid)

theorem unambiguous_of_no_dash (hplain : ∀ name ∈ namesAll config, '-' ∉ name.toList) :
    Unambiguous config := by
  have hall : ∀ resource ∈ declaredAll {} config, resource.All fun name => '-' ∉ name.toList :=
    all_of_declaredAll _ {} ⟨by decide, List.forall_mem_nil _⟩ config hplain
  have hpieces : ∀ resource ∈ declaredAll {} config,
      resource.pieces = resource.path.map String.toList := by
    intro resource hmem
    have hsplit : ∀ name ∈ resource.path, name.toList.splitOn '-' = [name.toList] :=
      fun name hname => List.splitOn_eq_singleton ((hall resource hmem).2 name hname)
    rw [Resource.pieces, List.flatMap_congr hsplit]
    exact List.map_eq_flatMap.symm
  refine ⟨?_, ?_⟩
  · intro registry hok left _ right hright _ _ _ _ _ _ hshift
    rw [((evaluateAll_eq_ok_iff {} config [] registry List.nodup_nil).mp hok).2.2] at hright
    obtain ⟨between, -, hstack⟩ := Resource.shifted_iff.mp hshift
    refine (hall right hright).1 ?_
    rw [hstack]
    exact List.mem_append_right _ List.mem_cons_self
  · intro left hleft right hright _ _ hpath hsame
    rw [hpieces left hleft, hpieces right hright] at hsame
    exact hpath (List.map_injective_iff.mpr (fun _ _ heq => String.toList_inj.mp heq) hsame)

namespace Dashes

def bucket : ResourceClass := ⟨"aws.S3Bucket", some "bucket"⟩

/-- A bucket in two stacks of one prefix. -/
def twoStacks (name stack name' stack' : String) : List Statement :=
  [.stack stack (some "acme") [.resource bucket name false],
    .stack stack' (some "acme") [.resource bucket name' false]]

/-- A bucket in two components of one stack. -/
def components (component name component' name' : String) : List Statement :=
  [.component component [.resource bucket name true],
    .component component' [.resource bucket name' true]]

theorem plain_distinct : Distinct (twoStacks "logs" "dev" "logs" "prod") :=
  (composed_names_distinct (by decide)).1.mpr (unambiguous_of_no_dash (by decide))

/-- Bucket `a-b` of the stack `c` and bucket `a` of the stack `b-c` have one physical name. -/
theorem stacks_not_distinct : ¬ Distinct (twoStacks "a-b" "c" "a" "b-c") := by
  intro hdistinct
  exact hdistinct.physical _ rfl _ List.mem_cons_self _ (List.mem_cons_of_mem _ List.mem_cons_self)
    rfl (by decide) "acme" rfl rfl "acme-a-b-c" "acme-a-b-c" (by decide) (by decide) rfl

/-- Child `b-c` of the component `a` and child `c` of the component `a-b` have one node id. -/
theorem components_not_distinct : ¬ Distinct (components "a" "b-c" "a-b" "c") := by
  intro hdistinct
  exact hdistinct.nodeIds _ List.mem_cons_self _ (List.mem_cons_of_mem _ List.mem_cons_self)
    rfl rfl (by decide) (by decide)

/-- Neither composition keeps names apart that the checks accept, and a config is refused for it. -/
theorem composed_names_collide :
    ¬ (∀ config, (∀ name ∈ namesAll config, isIdentifier name) → Distinct config) ∧
    ¬ Distinct (components "a" "b-c" "a-b" "c") ∧
    evaluateAll {} (components "a" "b-c" "a-b" "c") [] =
      .error (.duplicate "default:aws.S3Bucket:a-b-c") :=
  ⟨fun hall => stacks_not_distinct (hall _ (by decide)), components_not_distinct, by rfl⟩

end Dashes

end Atlantide.Naming
