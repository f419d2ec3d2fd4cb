import Atlantide.Engine.Planner
import Atlantide.Reconcile.Rebuild

/-! # The handles a plan looks up, and those its run resolves

A plan looks up the handles its properties are made of. An apply also resolves the stack outputs
below the top level of a property, and a REPLACE and an UPDATE rebuild the prior row as well, whose
secrets need not be the new ones. -/

namespace Atlantide

open Fallible

/-- The same upstreams, and at least the stack outputs and secrets there are. -/
structure HandleEnv.Extends (more env : HandleEnv) : Prop where
  rendering : more.rendering = env.rendering
  outputs : more.outputs = env.outputs
  stackOutputs : ∀ (key : String) (value : Value), env.stackOutputs[key]? = some value →
    more.stackOutputs[key]? = some value
  secrets : ∀ ref text, env.secrets ref = .ok text → more.secrets ref = .ok text

section

variable {α : Type} (step : HandleEnv → Except Fault α) (env : HandleEnv)

/-- With enough stack outputs and secrets the step goes through. -/
def Completable : Prop := ∃ more : HandleEnv, more.Extends env ∧ ∃ found, step more = .ok found

/-- The step fails for a stack output or a secret that is not there. -/
def HeldUp : Prop := (¬∃ found, step env = .ok found) ∧ Completable step env

theorem not_heldUp_iff {step : HandleEnv → Except Fault α} {env : HandleEnv} :
    ¬HeldUp step env ↔ (Completable step env → ∃ found, step env = .ok found) := by
  rw [HeldUp, not_and, not_imp_comm, not_not]

end

namespace Input

/-- The keys of the stack outputs a value names, at any depth. -/
def stackKeys (value : Input) : List String :=
  (value.collect isStackOutputRef).filterMap fun
    | stackOutputRef stack name => some (stack ++ ":" ++ name)
    | _ => none

theorem stackKeys_eq (value : Input) : value.stackKeys =
    match value with
    | stackOutputRef stack name => [stack ++ ":" ++ name]
    | _ => value.children.flatMap stackKeys := by
  have hbelow : value.isStackOutputRef = false →
      value.stackKeys = value.children.flatMap stackKeys := by
    intro hnot
    rw [stackKeys, collect_eq, hnot, if_neg Bool.false_ne_true, List.filterMap_flatMap]
    rfl
  cases value with
  | stackOutputRef stack name => rfl
  | _ => exact hbelow rfl

section

variable {stackOutputs more : Dict String Value}

theorem substitute_missing (value : Input) :
    (substitute stackOutputs value).2 = value.stackKeys.filter (· ∉ stackOutputs) := by
  induction value using ind with
  | step value ih =>
    rw [stackKeys_eq]
    cases value with
    | list items | transform _ items =>
      rw [substitute, substituteItems_eq]
      dsimp only [children]
      rw [List.filter_flatMap]
      exact List.flatMap_congr fun item hitem => ih item hitem
    | dict fields | model fields =>
      rw [substitute, substituteFields_eq]
      dsimp only [children]
      rw [List.filter_flatMap, List.flatMap_map]
      exact List.flatMap_congr fun entry hentry => ih entry.2 (List.mem_map_of_mem hentry)
    | stackOutputRef stack name =>
      rw [substitute]
      cases hfound : stackOutputs[stack ++ ":" ++ name]? with
      | none =>
        have hout : stack ++ ":" ++ name ∉ stackOutputs := by
          rw [Std.ExtTreeMap.mem_iff_isSome_getElem?, hfound]
          exact Bool.false_ne_true
        simp [hout]
      | some committed =>
        have hin : stack ++ ":" ++ name ∈ stackOutputs := by
          rw [Std.ExtTreeMap.mem_iff_isSome_getElem?, hfound]
          rfl
        simp [hin]
    | _ => rfl

/-- With every stack output it names committed, more of them make no difference to a value. -/
theorem substitute_congr (hmore : ∀ (key : String) (value : Value),
      stackOutputs[key]? = some value → more[key]? = some value) {value : Input}
    (hfound : (substitute stackOutputs value).2 = []) :
    substitute more value = substitute stackOutputs value := by
  induction value using ind with
  | step value ih =>
    have hchildren := substitute_children hfound
    cases value with
    | list items | transform _ items =>
      rw [substitute, substitute, substituteItems_eq, substituteItems_eq]
      have hsame : ∀ item ∈ items, substitute more item = substitute stackOutputs item :=
        fun item hitem => ih item hitem (hchildren item hitem)
      rw [List.map_congr_left fun item hitem => congrArg Prod.fst (hsame item hitem),
        List.flatMap_congr fun item hitem => congrArg Prod.snd (hsame item hitem)]
    | dict fields | model fields =>
      rw [substitute, substitute, substituteFields_eq, substituteFields_eq]
      have hsame : ∀ entry ∈ fields, substitute more entry.2 = substitute stackOutputs entry.2 :=
        fun entry hentry => ih entry.2 (List.mem_map_of_mem hentry)
          (hchildren entry.2 (List.mem_map_of_mem hentry))
      rw [List.map_congr_left fun entry hentry =>
          congrArg (fun found => (entry.1, found.1)) (hsame entry hentry),
        List.flatMap_congr fun entry hentry => congrArg Prod.snd (hsame entry hentry)]
    | stackOutputRef stack name =>
      rw [substitute] at hfound
      rw [substitute, substitute]
      cases hcommitted : stackOutputs[stack ++ ":" ++ name]? with
      | none =>
        rw [hcommitted] at hfound
        cases hfound
      | some committed => rw [hmore _ _ hcommitted]
    | _ => rfl

end

/-- A field resolved up to its secrets is a secret handle only if it was one. -/
theorem secretRef_of_referred {env : HandleEnv} {value stacked referred : Input}
    (hstacked : resolveStackRef env.rendering env.stackOutputs true value = .ok stacked)
    (hreferred : resolveRef env.rendering env.outputs stacked = .ok referred)
    (hsecret : referred.isSecretRef = true) : referred = value := by
  have hsource : stacked.isSecretRef = true := by
    by_contra hnot
    rw [Bool.not_eq_true] at hnot
    rw [resolveRef] at hreferred
    split at hreferred
    · rw [resolve_isSecretRef hnot hreferred] at hsecret
      cases hsecret
    · cases hreferred
      rw [hnot] at hsecret
      cases hsecret
  have hsame : referred = stacked := by
    cases stacked with
    | secretRef ref =>
      cases hreferred
      rfl
    | _ => cases hsource
  rw [hsame]
  have hkept : value.isSecretRef = true := by
    by_contra hnot
    rw [Bool.not_eq_true] at hnot
    have hsubstituted : (substitute env.stackOutputs value).1.isSecretRef = false := by
      cases value with
      | stackOutputRef stack name =>
        rw [substitute]
        split
        next committed _ => cases committed <;> rfl
        next => rfl
      | secretRef _ => cases hnot
      | _ => rfl
    have hnone : stacked.isSecretRef = false := by
      rw [resolveStackRef] at hstacked
      split at hstacked
      · cases hstacked
        exact hnot
      · split at hstacked
        · cases hstacked
        next substituted hfound =>
          rw [hfound] at hsubstituted
          split at hstacked
          · cases hstacked
            exact hsubstituted
          · exact resolve_isSecretRef hsubstituted hstacked
    rw [hsource] at hnone
    cases hnone
  cases value with
  | secretRef ref =>
    cases hstacked
    rfl
  | _ => cases hkept

/-- A field that more handles would let through goes through, if those it names are there. -/
theorem resolveField_of_more {env more : HandleEnv} (hmore : more.Extends env) {value : Input}
    (hkeys : ∀ key ∈ value.stackKeys, key ∈ env.stackOutputs)
    (hsecret : ∀ ref, value = .secretRef ref → ∃ text, env.secrets ref = .ok text)
    (hok : ∃ image, resolveField more value = .ok image) :
    ∃ image, resolveField env value = .ok image := by
  obtain ⟨image, hok⟩ := hok
  obtain ⟨stacked, hstacked, hok⟩ := bind_eq_ok hok
  obtain ⟨referred, hreferred, hok⟩ := bind_eq_ok hok
  have hnone : (substitute env.stackOutputs value).2 = [] := by
    rw [substitute_missing, List.filter_eq_nil_iff]
    intro key hkey
    simpa using hkeys key hkey
  have hfirst : resolveStackRef env.rendering env.stackOutputs true value = .ok stacked := by
    rw [resolveStackRef, substitute_congr hmore.stackOutputs hnone, hmore.rendering] at hstacked
    exact hstacked
  have hsecond : resolveRef env.rendering env.outputs stacked = .ok referred := by
    rw [hmore.rendering, hmore.outputs] at hreferred
    exact hreferred
  suffices hthird : ∃ image, resolveSecretRef env.secrets referred = .ok image by
    obtain ⟨image, himage⟩ := hthird
    exact ⟨image, (bind_of_ok hfirst).trans ((bind_of_ok hsecond).trans himage)⟩
  cases hopens : referred.isSecretRef with
  | false =>
    cases referred with
    | secretRef _ => cases hopens
    | _ => exact ⟨_, rfl⟩
  | true =>
    obtain rfl := secretRef_of_referred hfirst hsecond hopens
    cases referred with
    | secretRef ref =>
      obtain ⟨text, htext⟩ := hsecret ref rfl
      exact ⟨.str text, by rw [resolveSecretRef, htext]; rfl⟩
    | _ => cases hopens

/-- A field that resolves names only stack outputs that are committed. -/
theorem mem_of_resolveField {env : HandleEnv} {value image : Input}
    (hok : resolveField env value = .ok image) : ∀ key ∈ value.stackKeys, key ∈ env.stackOutputs := by
  obtain ⟨stacked, hstacked, -⟩ := bind_eq_ok hok
  have hnone : (substitute env.stackOutputs value).2 = [] := by
    rw [resolveStackRef] at hstacked
    split at hstacked
    next hfree =>
      rw [substitute_missing, stackKeys, (collect_eq_nil value).mpr ((Bool.not_eq_true' _).mp hfree)]
      rfl
    next =>
      split at hstacked
      · cases hstacked
      next hfound => rw [hfound]
  rw [substitute_missing, List.filter_eq_nil_iff] at hnone
  intro key hkey
  simpa using hnone key hkey

end Input

/-- A resource's inputs resolve exactly when each field does. -/
theorem resolveInputs_isOk {env : HandleEnv} {inputs : Dict String Input} :
    (∃ found, resolveInputs env inputs = .ok found) ↔
      ∀ (name : String) (value : Input), inputs[name]? = some value →
        ∃ image, Input.resolveField env value = .ok image := by
  constructor
  · rintro ⟨found, hfound⟩ name value hvalue
    obtain ⟨image, himage, -⟩ := resolveInputs_at hfound hvalue
    exact ⟨image, himage⟩
  · intro hall
    obtain ⟨stacked, hstacked⟩ : ∃ stacked, updatedInputs
        (Input.resolveStackRef env.rendering env.stackOutputs true) inputs = .ok stacked := by
      refine Fold.traverse_isOk.mpr fun name value hvalue => ?_
      obtain ⟨image, himage⟩ := hall name value hvalue
      obtain ⟨first, hfirst, -⟩ := bind_eq_ok himage
      exact ⟨first, hfirst⟩
    -- A field of a later table is the image of a field of the first.
    have hsource : ∀ (name : String) (first : Input), stacked[name]? = some first →
        ∃ second image, Input.resolveRef env.rendering env.outputs first = .ok second ∧
          Input.resolveSecretRef env.secrets second = .ok image := by
      intro name first hfirst
      cases hvalue : inputs[name]? with
      | none =>
        rw [(Fold.traverse_eq_ok.mp hstacked).2 name hvalue] at hfirst
        cases hfirst
      | some value =>
        obtain ⟨image, himage⟩ := hall name value hvalue
        obtain ⟨other, hother, hat⟩ := updatedInputs_at hstacked hvalue
        rw [hfirst] at hat
        cases hat
        obtain ⟨second, hsecond, himage⟩ := bind_eq_ok ((bind_of_ok hother).symm.trans himage)
        exact ⟨second, image, hsecond, himage⟩
    obtain ⟨referred, hreferred⟩ : ∃ referred, updatedInputs
        (Input.resolveRef env.rendering env.outputs) stacked = .ok referred := by
      refine Fold.traverse_isOk.mpr fun name first hfirst => ?_
      obtain ⟨second, image, hsecond, -⟩ := hsource name first hfirst
      exact ⟨second, hsecond⟩
    obtain ⟨found, hfound⟩ : ∃ found, updatedInputs
        (Input.resolveSecretRef env.secrets) referred = .ok found := by
      refine Fold.traverse_isOk.mpr fun name second hsecond => ?_
      cases hfirst : stacked[name]? with
      | none =>
        rw [(Fold.traverse_eq_ok.mp hreferred).2 name hfirst] at hsecond
        cases hsecond
      | some first =>
        obtain ⟨other, hother, hat⟩ := updatedInputs_at hreferred hfirst
        obtain ⟨made, image, hmade, himage⟩ := hsource name first hfirst
        rw [hsecond] at hat
        cases hat
        rw [hother] at hmade
        cases hmade
        exact ⟨image, himage⟩
    exact ⟨found, resolveInputs_eq_ok.mpr ⟨stacked, referred, hstacked, hreferred, hfound⟩⟩

/-! ## A plan's run -/

/-- A plan that was built, and what it is run with. -/
structure PlannedRun where
  planner : Planner
  compiled : Compiled
  prior : StateGraph
  stackOutputs : Dict String Value
  selected : Option (List String)
  replace : List String
  plan : Plan
  built : planner.build compiled prior stackOutputs selected replace = .ok plan
  rendering : Rendering
  classes : ResourceClasses

namespace PlannedRun

variable (run : PlannedRun) (outputs : LiveOutputs)

/-- What handles resolve against once the upstreams have these outputs. -/
def env : HandleEnv where
  rendering := run.rendering
  outputs := outputs
  stackOutputs := run.stackOutputs
  secrets := run.planner.secrets.resolve

def resource (nodeId : String) : Dict String Input := run.compiled.resources.getD nodeId ∅

/-- The inputs a node is applied with. -/
def apply (nodeId : String) (env : HandleEnv) : Except Fault (Dict String Input) :=
  resolveInputs env (run.resource nodeId)

/-- The old resource a REPLACE and a DELETE destroy, and the undo of an UPDATE goes back to. -/
def reconstruct (row : StateNode) (env : HandleEnv) : Except Fault Rebuilt :=
  rebuildRow run.classes run.planner.secrets.unsealValue env row

/-- No step of the run fails for a stack output or a secret that is not there. -/
def NeverHeldUp : Prop :=
  ∀ outputs, ∀ change ∈ run.plan.changeset.changes,
    (change.action = .create ∨ change.action = .update ∨ change.action = .replace →
      ¬HeldUp (run.apply change.nodeId) (run.env outputs)) ∧
    (change.action = .update ∨ change.action = .replace ∨ change.action = .delete →
      ∀ row, run.prior[change.nodeId]? = some row →
        ¬HeldUp (run.reconstruct row) (run.env outputs))

/-- Every stack output below the top level of the node's inputs is committed. -/
def NestedCommitted (nodeId : String) : Prop :=
  ∀ (name : String) (value : Input), (run.resource nodeId)[name]? = some value →
    value.isStackOutputRef = false → ∀ key ∈ value.stackKeys, key ∈ run.stackOutputs

/-- The row's class takes it as it is rebuilt, the marker in the place of a stack output that is not
committed. -/
def Accepted (row : StateNode) : Prop :=
  ∃ cls given fields, run.classes.types row.type = some cls ∧
    rebuiltFields run.planner.secrets.unsealValue (run.env outputs) cls row = .ok given ∧
    run.classes.validate row.type given = .ok fields

/-- Every secret an input of the row is made of opens. -/
def PriorSecretsOpen (row : StateNode) : Prop :=
  ∀ cls, run.classes.types row.type = some cls → ∀ (name : String) (stored : Value),
    row.properties[name]? = some stored → isInput cls name → ∀ ref,
      stored.secretRefFromMarker = some ref → ∃ text, run.planner.secrets.resolve ref = .ok text

variable {run : PlannedRun} {outputs : LiveOutputs}

/-- A top-level handle of a resource is a marker of its node's properties. -/
theorem property_of_resource {change : Change} (hmem : change ∈ run.plan.changeset.changes)
    (happlies : change.action = .create ∨ change.action = .update ∨ change.action = .replace)
    {name : String} {value : Input} (hvalue : (run.resource change.nodeId)[name]? = some value) :
    change.properties[name]? = some value.canonicalize := by
  have hacts : change.action ≠ .noop ∧ change.action ≠ .delete := by
    rcases happlies with h | h | h <;> rw [h] <;> exact ⟨nofun, nofun⟩
  obtain ⟨hdesired, -, hdelete⟩ := (Planner.build_carries run.built).1 change hmem (.inl hacts.1)
  cases hnode : change.desired with
  | none => exact absurd (hdelete.mp hnode) hacts.2
  | some node =>
    rw [hnode] at hdesired
    rw [Change.properties, hnode]
    dsimp only
    rw [run.compiled.lowered change.nodeId node hdesired.symm, canonicalInputs,
      Std.ExtTreeMap.getElem?_map]
    exact congrArg _ hvalue

theorem apply_not_heldUp {change : Change} (hmem : change ∈ run.plan.changeset.changes)
    (happlies : change.action = .create ∨ change.action = .update ∨ change.action = .replace) :
    ¬HeldUp (run.apply change.nodeId) (run.env outputs) ↔
      (Completable (run.apply change.nodeId) (run.env outputs) →
        run.NestedCommitted change.nodeId) := by
  have hacts : change.action ≠ .noop := by
    rcases happlies with h | h | h <;> rw [h] <;> exact nofun
  have hlooked := (Planner.build_carries run.built).2 change hmem hacts
  rw [not_heldUp_iff]
  refine forall_congr' fun hcompletable => ?_
  constructor
  · rintro hok name value hvalue -
    obtain ⟨image, himage⟩ := resolveInputs_isOk.mp hok name value hvalue
    exact Input.mem_of_resolveField himage
  · intro hnested
    obtain ⟨more, hmore, hok⟩ := hcompletable
    refine resolveInputs_isOk.mpr fun name value hvalue => ?_
    have hproperty := property_of_resource hmem happlies hvalue
    refine Input.resolveField_of_more hmore (fun key hkey => ?_) (fun ref href => ?_)
      (resolveInputs_isOk.mp hok name value hvalue)
    · cases htop : value.isStackOutputRef with
      | false => exact hnested name value hvalue htop key hkey
      | true =>
        cases value with
        | stackOutputRef stack output =>
          rw [Input.stackKeys_eq, List.mem_singleton] at hkey
          rw [hkey]
          exact hlooked.outputs name _ hproperty _ rfl
        | _ => cases htop
    · subst href
      have hmarker : (Input.secretRef ref).canonicalize.secretRefFromMarker = some ref := by
        obtain ⟨secret, provider⟩ := ref
        cases provider <;> rfl
      exact isOk_iff.mp (hlooked.secrets name _ hproperty ref hmarker)

theorem reconstruct_not_heldUp (row : StateNode) :
    ¬HeldUp (run.reconstruct row) (run.env outputs) ↔
      (Completable (run.reconstruct row) (run.env outputs) →
        run.Accepted outputs row ∧ run.PriorSecretsOpen row) := by
  rw [not_heldUp_iff]
  refine forall_congr' fun _ => ?_
  rw [reconstruct, rebuildRow_isOk]
  constructor
  · rintro ⟨cls, given, fields, htype, hgiven, hfields, hsecrets⟩
    refine ⟨⟨cls, given, fields, htype, hgiven, hfields⟩, ?_⟩
    intro other hother name stored hstored hinput ref href
    rw [htype] at hother
    cases hother
    obtain ⟨value, hvalue, hat⟩ := (rebuiltFields_eq_ok hgiven).1 name stored hstored
    have hmade : value = .secretRef ref := by
      rw [rebuildValue, href] at hvalue
      exact (Except.ok.inj hvalue).symm
    subst hmade
    have hkept := run.classes.kept row.type given fields hfields name _ hat
      (by rw [Input.containsHandle, Input.any_eq]; rfl)
    exact hsecrets name ref hkept hinput
  · rintro ⟨⟨cls, given, fields, htype, hgiven, hfields⟩, hopen⟩
    refine ⟨cls, given, fields, htype, hgiven, hfields, fun name ref href hinput => ?_⟩
    have hwritten := run.classes.given row.type given fields hfields name _ href
      (by rw [Input.containsHandle, Input.any_eq]; rfl)
    rcases (rebuiltFields_eq_ok hgiven).2 name _ hwritten with ⟨stored, hstored, hmade⟩ | ⟨data, hplain⟩
    · rcases rebuildValue_cases hmade with ⟨other, hother, hsame⟩ | ⟨_, _, hsame⟩ | hnone
      · cases hsame
        exact hopen cls htype name stored hstored hinput ref hother
      · cases hsame
      · cases hnone
    · cases data <;> cases hplain

/-- **When a run is never held up.** Exactly when, of each step that more handles would let through,
the stack outputs below the top level of what is applied are committed, the row rebuilt is accepted
with their markers in place, and the secrets of a row that is updated or replaced open. -/
theorem neverHeldUp_iff (run : PlannedRun) : run.NeverHeldUp ↔
    ∀ outputs, ∀ change ∈ run.plan.changeset.changes,
      (change.action = .create ∨ change.action = .update ∨ change.action = .replace →
        Completable (run.apply change.nodeId) (run.env outputs) →
          run.NestedCommitted change.nodeId) ∧
      (change.action = .update ∨ change.action = .replace ∨ change.action = .delete →
        ∀ row, run.prior[change.nodeId]? = some row →
          Completable (run.reconstruct row) (run.env outputs) →
            run.Accepted outputs row ∧ (change.action ≠ .delete → run.PriorSecretsOpen row)) := by
  refine forall_congr' fun outputs => forall₂_congr fun change hmem => and_congr ?_ ?_
  · exact forall_congr' fun happlies => apply_not_heldUp hmem happlies
  · refine forall_congr' fun hrebuilds => forall₂_congr fun row hrow => ?_
    rw [reconstruct_not_heldUp]
    refine forall_congr' fun _ => and_congr_right fun _ => ⟨fun hopen _ => hopen, fun hopen => ?_⟩
    by_cases hdelete : change.action = .delete
    · have hacts : change.action ≠ .noop := by
        rw [hdelete]
        exact nofun
      obtain ⟨-, hprior, hnone⟩ :=
        (Planner.build_carries run.built).1 change hmem (.inl hacts)
      have hlooked := (Planner.build_carries run.built).2 change hmem hacts
      have hproperties : change.properties = row.properties := by
        rw [Change.properties, hnone.mpr hdelete, hprior, hrow]
      intro _ _ name stored hstored _ ref href
      exact isOk_iff.mp (hlooked.secrets name stored (hproperties ▸ hstored) ref href)
    · exact hopen hdelete

/-! ## A function that reads another stack's bucket -/

namespace Nested

def inputs : Dict String Input :=
  (∅ : Dict String Input).insert "environment" (.dict [("BUCKET", .stackOutputRef "data" "bucket")])

def function : IRNode :=
  { id := "prod:aws.Function:api", type := "aws.Function", provider := "aws"
    providerVersion := "1", properties := canonicalInputs inputs, dependencies := [] }

def compiled : Compiled where
  ir := ⟨[function]⟩
  hashes _ := "hash"
  resources := (∅ : Dict String (Dict String Input)).insert function.id inputs
  lowered nodeId node hnode := by
    change ((∅ : Dict String IRNode).insert function.id function)[nodeId]? = some node at hnode
    rw [Std.ExtTreeMap.getElem?_insert] at hnode
    split at hnode
    next hsame =>
      cases hnode
      rw [Std.ExtTreeMap.getD_insert, if_pos hsame]
      rfl
    next =>
      rw [Std.ExtTreeMap.getElem?_empty] at hnode
      cases hnode

def planner : Planner where
  codec := ⟨fun _ => "", fun _ => "", fun _ _ => .error .shape⟩
  types _ := none
  mutability _ _ := none
  secrets := ⟨fun _ => .error .shape, fun _ _ => .error .shape, fun text => .str text, .ok⟩
  policies _ := .ok []

def built : Except PlanFault Plan := planner.build compiled ∅ ∅ none []

def classes : ResourceClasses := .asGiven fun _ => none

/-- What the run's handles resolve against, given the committed stack outputs. -/
def envWith (stackOutputs : Dict String Value) : HandleEnv where
  rendering := ⟨fun _ => "", fun _ => [], fun _ _ => .error .shape⟩
  outputs := ∅
  stackOutputs := stackOutputs
  secrets := planner.secrets.resolve

/-- The plan creates the function. -/
theorem built_creates : ∃ plan, built = .ok plan ∧
    ∃ change ∈ plan.changeset.changes, change.action = .create ∧ change.nodeId = function.id := by
  have hcreates : built.toOption.any (fun plan => plan.changeset.changes.any fun change =>
      change.action = .create ∧ change.nodeId = function.id) = true := by
    decide +kernel
  cases hbuilt : built with
  | error fault =>
    rw [hbuilt] at hcreates
    cases hcreates
  | ok plan =>
    rw [hbuilt] at hcreates
    obtain ⟨change, hmem, hchange⟩ := List.any_eq_true.mp hcreates
    exact ⟨plan, rfl, change, hmem, of_decide_eq_true hchange⟩

/-- The plan builds, and its one create fails for the bucket's name. -/
theorem not_neverHeldUp : ∃ run : PlannedRun, ¬run.NeverHeldUp := by
  obtain ⟨plan, hbuilt, change, hmem, haction, hnode⟩ := built_creates
  let run : PlannedRun :=
    { planner := planner, compiled := compiled, prior := ∅, stackOutputs := ∅, selected := none
      replace := [], plan := plan, built := hbuilt, rendering := (envWith ∅).rendering
      classes := classes }
  refine ⟨run, fun hnever => (hnever ∅ change hmem).1 (.inl haction) ?_⟩
  rw [hnode]
  constructor
  · rintro ⟨found, hfound⟩
    have hfails : (resolveInputs (envWith ∅) (compiled.resources.getD function.id ∅)).isOk = false := by
      decide +kernel
    rw [show resolveInputs (envWith ∅) (compiled.resources.getD function.id ∅) = .ok found from
      hfound] at hfails
    cases hfails
  · refine ⟨envWith ((∅ : Dict String Value).insert "data:bucket" (.str "assets")),
      ⟨rfl, rfl, fun key value hkey => ?_, fun _ _ hsecret => hsecret⟩, ?_⟩
    · rw [show (run.env ∅).stackOutputs = ∅ from rfl, Std.ExtTreeMap.getElem?_empty] at hkey
      cases hkey
    · refine isOk_iff.mp (?_ : (resolveInputs (envWith _)
        (compiled.resources.getD function.id ∅)).isOk = true)
      decide +kernel

end Nested

end PlannedRun

end Atlantide
