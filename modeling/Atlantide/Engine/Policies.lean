import Atlantide.Engine.Apply
import Atlantide.Engine.Approved
import Atlantide.Policy.Builtin

/-! # Policies over a plan

Policies are evaluated over the actionable changes of the finished plan, and a mandatory violation
keeps it from being run. What the apply does after that is up to the executor: what a policy let
pass must cover every call of the run. -/

namespace Atlantide

open Executor

structure Violation where
  policy : String
  level : PolicyLevel
  nodeId : String
  message : String
  deriving DecidableEq

def Violation.summary (violation : Violation) : String :=
  violation.policy ++ ": " ++ violation.message

/-- The type of the node, as the config or, for a DELETE, as the state has it. -/
def Change.typeName (change : Change) : String :=
  match change.desired, change.prior with
  | some node, _ => node.type
  | none, some row => row.type
  | none, none => ""

/-- What the policies of a config are evaluated with. -/
structure Enforcement where
  printed : PrintedData
  /-- The config's bindings. -/
  bindings : List PolicyBinding
  /-- The bindings that a resource class declares. -/
  classBindings : String → List PolicyBinding
  /-- The providers registered after the builtin one. -/
  later : PolicyRegistry

namespace Enforcement

variable (enforcement : Enforcement) (compiled : Compiled) (types : Types)

def registry : PolicyRegistry := defaultPolicyRegistry enforcement.printed ++ enforcement.later

def bindingsFor (typeName : String) : List PolicyBinding :=
  enforcement.bindings.filter (·.appliesTo typeName) ++
    if (types typeName).isSome then enforcement.classBindings typeName else []

/-- The compiled resource of a node. -/
def resourceOf (nodeId : String) : Option DeclaredResource := do
  let inputs ← compiled.resources[nodeId]?
  let node ← compiled.ir.byId[nodeId]?
  let type ← types node.type
  pure ⟨type, inputs⟩

/-- A change as one of its bindings puts it to the policy. -/
def context (change : Change) (binding : PolicyBinding) : PolicyContext where
  nodeId := change.nodeId
  action := change.action
  stack := stackOf change.nodeId
  resource := resourceOf compiled types change.nodeId
  params := binding.params

def check (change : Change) (binding : PolicyBinding) : Except PolicyFault (Option Violation) := do
  match ← enforcement.registry.evaluate binding.name (context compiled types change binding) with
  | .ok => pure none
  | .fail message => pure (some ⟨binding.name, binding.level, change.nodeId, message⟩)

/-- Every violation of the policies bound to each actionable change's type. -/
def evaluatePolicies (changeset : ChangeSet) : Except PolicyFault (List Violation) := do
  let found ← changeset.actionable.mapM fun change =>
    (enforcement.bindingsFor types change.typeName).mapM (enforcement.check compiled types change)
  pure (found.flatten.filterMap id)

/-- Whether a mandatory policy denies the plan. -/
def blocks (plan : Plan) : Bool :=
  match enforcement.evaluatePolicies compiled types plan.changeset with
  | .ok violations => violations.any (·.level = .mandatory)
  | .error _ => true

end Enforcement

/-- A provider's fault as the plan's. -/
def PolicyFault.fault : PolicyFault → Fault
  | .unknown name => .engine ("unknown policy " ++ name)
  | .notNames policy param => .engine (policy ++ ": " ++ param ++ " must be a name or a list of them")
  | .raised message => .engine message

/-- The planner evaluates the policies of the config. -/
def Planner.under (planner : Planner) (enforcement : Enforcement) (compiled : Compiled) : Planner :=
  { planner with
    policies := fun changeset =>
      ((enforcement.evaluatePolicies compiled planner.types changeset).map
        (·.map Violation.summary)).mapError PolicyFault.fault }

/-- The apply goes by the policies of its config. -/
def Apply.under (apply : Apply) (enforcement : Enforcement) : Apply :=
  { apply with
    planner := apply.planner.under enforcement apply.compiled
    blocked := enforcement.blocks apply.compiled apply.planner.types }

theorem Action.destructive_iff {action : Action} :
    action.destructive ↔ action = .delete ∨ action = .replace := by
  rw [Action.destructive, Bool.or_eq_true, decide_eq_true_iff, decide_eq_true_iff]

/-! ## What an unblocked plan has passed -/

namespace Enforcement

variable {enforcement : Enforcement} {compiled : Compiled} {types : Types} {changeset : ChangeSet}
  {violations : List Violation} {change : Change} {binding : PolicyBinding}

/-- The bindings of every actionable change have been asked, each with its own arguments. -/
theorem checked_of_evaluated
    (hevaluated : enforcement.evaluatePolicies compiled types changeset = .ok violations)
    (hmem : change ∈ changeset.changes) (haction : change.action ≠ .noop)
    (hbinding : binding ∈ enforcement.bindingsFor types change.typeName) :
    ∃ result, enforcement.registry.evaluate binding.name (context compiled types change binding) =
      .ok result ∧ ∀ message, result = .fail message →
        ⟨binding.name, binding.level, change.nodeId, message⟩ ∈ violations := by
  obtain ⟨found, hfound, hviolations⟩ := Fallible.bind_eq_ok hevaluated
  have hchange : change ∈ changeset.actionable :=
    List.mem_filter.mpr ⟨hmem, decide_eq_true haction⟩
  obtain ⟨checked, hchecked, hall⟩ := Fallible.mapM_eq_ok hfound hchange
  obtain ⟨outcome, houtcome, hasked⟩ := Fallible.mapM_eq_ok hall hbinding
  obtain ⟨result, hresult, hmade⟩ := Fallible.bind_eq_ok hasked
  refine ⟨result, hresult, fun message hfail => ?_⟩
  subst hfail
  cases hmade
  cases hviolations
  exact List.mem_filterMap.mpr ⟨_, List.mem_flatten.mpr ⟨checked, hchecked, houtcome⟩, rfl⟩

/-- Every mandatory policy bound to a change of an unblocked plan lets it pass. -/
theorem passed_of_unblocked {plan : Plan} (hunblocked : ¬ enforcement.blocks compiled types plan)
    (hmem : change ∈ plan.changeset.changes) (haction : change.action ≠ .noop)
    (hbinding : binding ∈ enforcement.bindingsFor types change.typeName)
    (hlevel : binding.level = .mandatory) :
    enforcement.registry.evaluate binding.name (context compiled types change binding) =
      .ok .ok := by
  unfold blocks at hunblocked
  split at hunblocked
  next violations hevaluated =>
    obtain ⟨result, hresult, hfails⟩ := checked_of_evaluated hevaluated hmem haction hbinding
    cases result with
    | ok => exact hresult
    | fail message =>
      refine absurd (List.any_eq_true.mpr ⟨_, hfails message rfl, ?_⟩) hunblocked
      exact decide_eq_true hlevel
  next => exact absurd rfl hunblocked

/-- The binding denies what destroys a resource of one of the stacks it names, or cannot tell which. -/
structure Guards (binding : PolicyBinding) (printed : PrintedData) (stack : String) : Prop where
  level : binding.level = .mandatory
  name : binding.name = denyDestroy ∨ binding.name = denyDestroyAlias
  named : ∀ ctx named, ctx.params = binding.params →
    PolicyContext.names ctx printed denyDestroy "stacks" = .ok named → stack ∈ named

theorem Guards.check {stack : String} (hguards : Guards binding enforcement.printed stack)
    (ctx : PolicyContext) :
    enforcement.registry.evaluate binding.name ctx = checkDestroy enforcement.printed ctx := by
  refine evaluate_builtin enforcement.later ?_
  rcases hguards.name with hname | hname
  · rw [hname]
    rfl
  · rw [hname]
    rfl

/-- A guarded change in an unblocked plan destroys nothing. -/
theorem Guards.spares {plan : Plan} (hunblocked : ¬ enforcement.blocks compiled types plan)
    (hmem : change ∈ plan.changeset.changes)
    (hguards : Guards binding enforcement.printed (stackOf change.nodeId))
    (hbinding : binding ∈ enforcement.bindingsFor types change.typeName) :
    ¬ change.action.destructive := by
  intro hdestructive
  have haction : change.action ≠ .noop := by
    intro hnoop
    rw [hnoop] at hdestructive
    cases hdestructive
  have hpassed := passed_of_unblocked hunblocked hmem haction hbinding hguards.level
  rw [hguards.check] at hpassed
  obtain ⟨named, hnamed, hclear⟩ := checkDestroy_ok hpassed
  exact hclear hdestructive (hguards.named _ named rfl hnamed)

/-- The node's inputs are handles where they are sensitive, and say nothing where they are not. -/
def HoldsHandles (type : ResourceType) (node : IRNode) : Prop :=
  ∀ field ∈ type.sensitive, type.fields.lookup field ≠ some .computed →
    ∀ text, node.properties[field]? = some (.str text) → text = ""

/-- What is lowered to a text that says something is a literal. -/
theorem isLiteral_of_lowered {resource : DeclaredResource} {field text : String}
    (hlowered : (canonicalInputs resource.inputs)[field]? = some (.str text))
    (htext : text ≠ "") : resource.isLiteral field := by
  rw [canonicalInputs, Std.ExtTreeMap.getElem?_map] at hlowered
  obtain ⟨input, hinput, hcanonical⟩ := Option.map_eq_some_iff.mp hlowered
  unfold DeclaredResource.isLiteral
  rw [hinput]
  cases input with
  | str value =>
    cases hcanonical
    exact decide_eq_true htext
  | rendered value =>
    cases hcanonical
    exact decide_eq_true htext
  | _ => cases hcanonical

/-- A node whose secrets are asked for by reference declares none of them in an unblocked plan. -/
theorem holdsHandles_of_unblocked {plan : Plan}
    (hunblocked : ¬ enforcement.blocks compiled types plan)
    (hmem : change ∈ plan.changeset.changes) (haction : change.action ≠ .noop)
    (hbinding : binding ∈ enforcement.bindingsFor types change.typeName)
    (hlevel : binding.level = .mandatory) (hname : binding.name = requireSecretRefs)
    {node : IRNode} (hnode : compiled.ir.byId[change.nodeId]? = some node) {type : ResourceType}
    (htype : types node.type = some type) : HoldsHandles type node := by
  intro field hsensitive hinput text htext
  by_contra hsays
  have hlowered := compiled.lowered _ node hnode
  cases hinputs : compiled.resources[change.nodeId]? with
  | none =>
    rw [Std.ExtTreeMap.getD_eq_getD_getElem?, hinputs] at hlowered
    rw [hlowered] at htext
    exact absurd htext (by simp [canonicalInputs])
  | some inputs =>
    have hresource : resourceOf compiled types change.nodeId = some ⟨type, inputs⟩ := by
      simp [resourceOf, hinputs, hnode, htype]
    rw [Std.ExtTreeMap.getD_eq_getD_getElem?, hinputs] at hlowered
    rw [hlowered] at htext
    have hpassed := passed_of_unblocked hunblocked hmem haction hbinding hlevel
    rw [hname, registry, evaluate_builtin enforcement.later rfl] at hpassed
    have hplain := checkSecretRefs_ok hresource hpassed hsensitive hinput
    have hliteral : DeclaredResource.isLiteral ⟨type, inputs⟩ field :=
      isLiteral_of_lowered htext hsays
    rw [hliteral] at hplain
    cases hplain

end Enforcement

namespace Apply

variable {apply : Apply} {enforcement : Enforcement} {run : RunContext} {cloud : Cloud}
  {state : RunState}

end Apply

namespace Executor.Small

/-- The stack `prod` is protected, and no secret may be written down. -/
def guarded : Enforcement where
  printed := { str := fun _ => "", repr := fun text => text }
  bindings :=
    [{ name := denyDestroy, params := (∅ : Dict String Value).insert "stacks" (.str "prod") },
      { name := requireSecretRefs }]
  classBindings _ := []
  later := []

/-- The replace, the create and the delete, in another stack. -/
def policed : Apply where
  planner := planner
  compiled := plain asked (plain_of_two rfl rfl rfl)
  narrowing := ⟨fun nodeId pattern => decide (nodeId = pattern), [], [], ["s:t:a"]⟩
  stackOutputs := ∅
  blocked _ := false
  snapshot := askedRows "r0" "r1"
  before := askedRows "r0" "r1"
  keyed := by
    have hall : (askedRows "r0" "r1").toList.all fun entry => entry.2.id = entry.1 := by
      decide +kernel
    intro nodeId row hrow
    simpa using List.all_eq_true.mp hall (nodeId, row)
      (Std.ExtTreeMap.mem_toList_iff_getElem?_eq_some.mpr hrow)

theorem policed_runs : (policed.under guarded).Runs shown where
  begins := by decide +kernel
  prior := by decide +kernel
  scope := by
    have hall : shown.prior.keys.all fun nodeId =>
        nodeId ∈ (policed.under guarded).applyScope := by decide +kernel
    intro nodeId hmem
    simpa using List.all_eq_true.mp hall nodeId (Std.ExtTreeMap.mem_keys.mpr hmem)
  ir := rfl
  plan := by
    have hplan : (((policed.under guarded).planFromCompiled shown.prior).toOption.any fun plan =>
        plan.changeset = shown.changeset && !(policed.under guarded).blocked plan) = true := by
      decide +kernel
    obtain ⟨plan, hfound, hplan⟩ := (Option.any_eq_true _ _).mp hplan
    rw [Bool.and_eq_true, decide_eq_true_iff, Bool.not_eq_true'] at hplan
    refine ⟨plan, Fallible.ok_of_toOption hfound, ?_, hplan.1⟩
    rw [hplan.2]
    exact Bool.false_ne_true

end Executor.Small

namespace Apply

end Apply

end Atlantide
