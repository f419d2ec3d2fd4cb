import Atlantide.Core.Handles
import Atlantide.Lib.Fallible
import Atlantide.Reconcile.Ordering

/-! # Policies

A policy checks one node's pending change, with the arguments of the binding that attached it. A
registry asks the first provider that defines the name. -/

namespace Atlantide

inductive PolicyLevel
  /-- A violation warns. -/
  | advisory
  /-- A violation blocks the apply. -/
  | mandatory
  deriving DecidableEq

/-- A policy attached to some resources; without types, to all of them. -/
structure PolicyBinding where
  name : String
  level : PolicyLevel := .mandatory
  types : Option (List String) := none
  params : Dict String Value := ∅

def PolicyBinding.appliesTo (binding : PolicyBinding) (typeName : String) : Bool :=
  binding.types.all (·.contains typeName)

/-- A declared resource, as a policy sees it. -/
structure DeclaredResource where
  type : ResourceType
  inputs : Dict String Input

structure PolicyContext where
  nodeId : String
  action : Action
  stack : String
  /-- There is none for a pure DELETE. -/
  resource : Option DeclaredResource
  params : Dict String Value

inductive PolicyResult
  | ok
  | fail (message : String)
  deriving DecidableEq

/-- Why a policy has no result. -/
inductive PolicyFault
  | unknown (name : String)
  /-- The parameter is neither a name nor a list of them. -/
  | notNames (policy param : String)
  | raised (message : String)
  deriving DecidableEq

abbrev PolicyFn := PolicyContext → Except PolicyFault PolicyResult

structure PolicyProvider where
  has : String → Bool
  evaluate : String → PolicyFn

/-- The providers, in the order in which they were registered. -/
abbrev PolicyRegistry := List PolicyProvider

namespace PolicyRegistry

def register (registry : PolicyRegistry) (provider : PolicyProvider) : PolicyRegistry :=
  registry ++ [provider]

def evaluate (registry : PolicyRegistry) (name : String) (ctx : PolicyContext) :
    Except PolicyFault PolicyResult :=
  match registry.find? (·.has name) with
  | some provider => provider.evaluate name ctx
  | none => .error (.unknown name)

end PolicyRegistry

/-! ## The builtin policies -/

def requireTags : String := "require-tags"
def requireSecretRefs : String := "require-secret-refs"
def denyDestroy : String := "deny-destroy-in-protected"
def denyDestroyAlias : String := "deny-destroy-in-prod"

/-- How the language prints plain data. -/
structure PrintedData where
  str : Value → String
  repr : String → String

namespace PolicyContext

/-- The binding's `param` as a set of names: a bare text is one name. -/
def names (ctx : PolicyContext) (printed : PrintedData) (policy param : String) :
    Except PolicyFault (List String) :=
  match ctx.params.getD param (.list []) with
  | .str name => .ok [name]
  | .list items => .ok (sortedSet (items.map printed.str))
  | _ => .error (.notNames policy param)

end PolicyContext

/-- Whether a condition takes the value for true. -/
def Input.isTruthy : Input → Bool
  | .null => false
  | .bool value => value
  | .int value => value ≠ 0
  | .float repr => repr ≠ "0.0" && repr ≠ "-0.0"
  | .str value => value ≠ ""
  | .list items => !items.isEmpty
  | .dict fields => !fields.isEmpty
  | .rendered text => text ≠ ""
  | .model _ | .ref _ | .secretRef _ | .stackOutputRef _ _ | .transform _ _ => true

namespace DeclaredResource

variable (resource : DeclaredResource)

def hasField (field : String) : Bool := resource.type.fields.any (·.1 = field)

/-- The tags, none where the field holds no table. -/
def tags : List (String × Input) :=
  match resource.inputs["tags"]? with
  | some (.dict fields) => fields
  | _ => []

def isTagged (key : String) : Bool := (resource.tags.lookup key).any Input.isTruthy

/-- Whether the input is a text that says something. -/
def isLiteral (field : String) : Bool :=
  match resource.inputs[field]? with
  | some (.str value) => value ≠ ""
  | some (.rendered text) => text ≠ ""
  | _ => false

/-- The sensitive fields that hold a plaintext value. -/
def literalSecrets : List String :=
  sortedSet (resource.type.sensitive.filter fun field =>
    resource.type.fields.lookup field ≠ some .computed && resource.isLiteral field)

end DeclaredResource

section

variable (printed : PrintedData)

/-- Requires the tag keys that the binding names, or any tag at all when it names none. -/
def checkTags : PolicyFn := fun ctx =>
  match ctx.resource with
  | none => .ok .ok
  | some resource =>
    if !resource.hasField "tags" then .ok .ok else do
      let required ← ctx.names printed requireTags "keys"
      if required.isEmpty then
        pure (if resource.tags.isEmpty then .fail (ctx.nodeId ++ " has no tags") else .ok)
      else
        let missing := sortedSet (required.filter fun key => !resource.isTagged key)
        pure (if missing.isEmpty then .ok
          else .fail (ctx.nodeId ++ " is missing tag(s): " ++ ", ".intercalate missing))

/-- Every sensitive input must hold a handle. -/
def checkSecretRefs : PolicyFn := fun ctx =>
  match ctx.resource with
  | none => .ok .ok
  | some resource =>
    let literal := resource.literalSecrets
    .ok (if literal.isEmpty then .ok
      else .fail (ctx.nodeId ++ " assigns a literal to " ++ ", ".intercalate literal ++
        "; use SecretRef(<name>) so the value stays out of config, IR, and state"))

/-- What is shown of an action. -/
def Action.text : Action → String
  | .create => "create"
  | .update => "update"
  | .replace => "replace"
  | .delete => "delete"
  | .noop => "noop"

/-- The action removes what the node was. -/
def Action.destructive (action : Action) : Bool := action = .delete || action = .replace

/-- Denies destructive changes in the stacks that the binding names. -/
def checkDestroy : PolicyFn := fun ctx => do
  let named ← ctx.names printed denyDestroy "stacks"
  pure (if named.contains ctx.stack && ctx.action.destructive then
    .fail (ctx.nodeId ++ ": " ++ ctx.action.text ++ " not allowed in protected stack " ++
      printed.repr ctx.stack) else .ok)

def builtinPolicies : List (String × PolicyFn) :=
  [(requireTags, checkTags printed), (requireSecretRefs, checkSecretRefs),
    (denyDestroy, checkDestroy printed), (denyDestroyAlias, checkDestroy printed)]

def builtinPolicyProvider : PolicyProvider where
  has name := (builtinPolicies printed).any (·.1 = name)
  evaluate name ctx :=
    match (builtinPolicies printed).lookup name with
    | some check => check ctx
    | none => .error (.unknown name)

def defaultPolicyRegistry : PolicyRegistry :=
  PolicyRegistry.register [] (builtinPolicyProvider printed)

end

/-! ## What the builtin policies let pass -/

section

variable {printed : PrintedData} {ctx : PolicyContext}

/-- Whatever is registered later, a builtin name is the builtin's. -/
theorem evaluate_builtin (later : PolicyRegistry) {name : String} {check : PolicyFn}
    (hbuiltin : (builtinPolicies printed).lookup name = some check) :
    (defaultPolicyRegistry printed ++ later).evaluate name ctx = check ctx := by
  have hhas : (builtinPolicyProvider printed).has name = true := by
    obtain ⟨rest, hmem⟩ := List.lookup_eq_some_iff.mp hbuiltin
    obtain ⟨after, hsplit, -⟩ := hmem
    refine List.any_eq_true.mpr ⟨(name, check), ?_, decide_eq_true rfl⟩
    rw [hsplit]
    exact List.mem_append_right _ List.mem_cons_self
  have hfound : (defaultPolicyRegistry printed ++ later).find? (·.has name) =
      some (builtinPolicyProvider printed) := List.find?_cons_of_pos hhas
  unfold PolicyRegistry.evaluate
  rw [hfound]
  dsimp only [builtinPolicyProvider]
  rw [hbuiltin]

theorem checkDestroy_ok (hpasses : checkDestroy printed ctx = .ok .ok) :
    ∃ named, ctx.names printed denyDestroy "stacks" = .ok named ∧
      (ctx.action.destructive → ctx.stack ∉ named) := by
  obtain ⟨named, hnamed, hresult⟩ := Fallible.bind_eq_ok hpasses
  refine ⟨named, hnamed, fun hdestructive hmem => ?_⟩
  rw [if_pos (Bool.and_eq_true_iff.mpr ⟨List.contains_iff_mem.mpr hmem, hdestructive⟩)] at hresult
  cases hresult

theorem checkSecretRefs_ok {resource : DeclaredResource} (hresource : ctx.resource = some resource)
    (hpasses : checkSecretRefs ctx = .ok .ok) {field : String}
    (hsensitive : field ∈ resource.type.sensitive)
    (hinput : resource.type.fields.lookup field ≠ some .computed) : !resource.isLiteral field := by
  unfold checkSecretRefs at hpasses
  rw [hresource] at hpasses
  dsimp only at hpasses
  cases hliteral : resource.isLiteral field with
  | false => rfl
  | true =>
    have hmem : field ∈ resource.literalSecrets :=
      mem_sortedSet.mpr (List.mem_filter.mpr ⟨hsensitive, by simp [hinput, hliteral]⟩)
    rw [if_neg fun hempty => List.ne_nil_of_mem hmem (List.isEmpty_iff.mp hempty)] at hpasses
    cases hpasses

end

end Atlantide
