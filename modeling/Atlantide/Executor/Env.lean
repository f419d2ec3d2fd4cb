import Atlantide.Reconcile.Applied

/-! # What the nodes of a run share, and the resources they hand to providers -/

namespace Atlantide

/-- A resource object, its handles kept as markers. -/
structure Resource where
  type : String
  provider : String
  stack : String
  name : String
  preventDestroy : Bool := false
  /-- The values of its non-computed fields. -/
  inputs : Dict String Value
  /-- The values of its computed fields, where they are set. -/
  computed : Dict String Value := ∅
  deriving DecidableEq

def Resource.nodeId (res : Resource) : String := res.stack ++ ":" ++ res.type ++ ":" ++ res.name

/-- One compiled config as the executor consumes it. -/
structure Desired where
  ir : IRGraph
  hashes : String → String
  resources : Dict String Resource
  outputDecls : Dict String Value := ∅

/-- A config declaring nothing: what a destroy runs against. -/
def Desired.empty : Desired := ⟨⟨[]⟩, fun _ => "", ∅, ∅⟩

/-- The context a resource object is constructed in. -/
structure Ambient where
  stack : String := "default"
  component : Option String := none

/-- The services and settings shared by every node of a run. -/
structure ApplyEnv where
  codec : Codec
  types : Types
  secrets : SecretsRegistry
  /-- The registered providers' names. -/
  providers : List String
  stackOutputs : Dict String Value
  ambient : Ambient
  /-- A type's field validation, which fills the defaults in. -/
  validate : ResourceType → Dict String Value → Except Fault (Dict String Value)

/-! ## Handles of a resource -/

/-- Every value of a table rewritten, each on its own. -/
def rewriteInputs (rewrite : String → Value → Except Fault Value) (inputs : Dict String Value) :
    Except Fault (Dict String Value) :=
  inputs.foldl (fun rewritten name value => do
    let table ← rewritten
    .ok (table.insert name (← rewrite name value))) (.ok ∅)

def resolveRefs (codec : Codec) (res : Resource) (outputs : LiveOutputs) : Except Fault Resource := do
  let inputs ← rewriteInputs (fun _ value =>
    if value.needsResolution then resolveValue codec outputs true value else .ok value) res.inputs
  .ok { res with inputs }

def resolveSecretRefs (secrets : SecretsRegistry) (res : Resource) : Except Fault Resource := do
  let inputs ← rewriteInputs (fun _ value =>
    match value.secretRefFromMarker with
    | some ref => (secrets.resolve ref).map .str
    | none => .ok value) res.inputs
  .ok { res with inputs }

mutual

/-- Every stack output handle replaced by its committed value; the keys that have none. -/
def substituteStack (committed : Dict String Value) : Value → Value × List String
  | .list items =>
    let found := substituteStackItems committed items
    (.list found.1, found.2)
  | .dict fields =>
    match (Value.dict fields).stackOutputFromMarker with
    | some key =>
      match committed[key]? with
      | some value => (value, [])
      | none => (.dict fields, [key])
    | none =>
      let found := substituteStackFields committed fields
      (.dict found.1, found.2)
  | value => (value, [])

def substituteStackItems (committed : Dict String Value) : List Value → List Value × List String
  | [] => ([], [])
  | item :: items =>
    let first := substituteStack committed item
    let rest := substituteStackItems committed items
    (first.1 :: rest.1, first.2 ++ rest.2)

def substituteStackFields (committed : Dict String Value) :
    List (String × Value) → List (String × Value) × List String
  | [] => ([], [])
  | (name, value) :: fields =>
    let first := substituteStack committed value
    let rest := substituteStackFields committed fields
    ((name, first.1) :: rest.1, first.2 ++ rest.2)

end

def hasStackOutput (value : Value) : Bool := value.any fun v => v.stackOutputFromMarker.isSome

/-- Replaces each stack output handle. Leniently, a field with a missing one stays as it was. -/
def resolveStackRefs (codec : Codec) (stackOutputs : Dict String Value) (strict : Bool)
    (res : Resource) : Except Fault Resource := do
  let inputs ← rewriteInputs (fun _ value =>
    if !hasStackOutput value then .ok value
    else
      match substituteStack stackOutputs value with
      | (_, key :: _) =>
        if strict then .error (.engine ("stack output not found: " ++ key)) else .ok value
      | (substituted, []) =>
        -- A transform left with only concrete operands is evaluated now.
        if (substituted.collect Value.isRefMarker).isEmpty && substituted.any Value.isTransformMarker
        then resolveValue codec ∅ true substituted
        else .ok substituted) res.inputs
  .ok { res with inputs }

/-- A node's resource with every handle resolved, as its provider is given it. -/
def resolveResource (env : ApplyEnv) (live : LiveOutputs) (res : Resource) :
    Except Fault Resource := do
  let stacked ← resolveStackRefs env.codec env.stackOutputs true res
  let referred ← resolveRefs env.codec stacked live
  resolveSecretRefs env.secrets referred

/-- `res` with the outputs of its create restored onto its fields. -/
def withOutputs (types : Types) (res : Resource) (outputs : Dict String Value) : Resource :=
  match types res.type with
  | none => res
  | some cls => outputs.foldl (fun res name value =>
      match cls.fields.lookup name with
      | some .computed => { res with computed := res.computed.insert name value }
      | some _ => { res with inputs := res.inputs.insert name value }
      | none => res) res

/-! ## Resources rebuilt from state -/

/-- The part of a node id after its last `:`. -/
def localNameOf (nodeId : String) : String :=
  String.ofList (nodeId.toList.reverse.takeWhile (· ≠ ':')).reverse

/-- `text.removesuffix(suffix)`. -/
def removeSuffix (suffix text : String) : String :=
  if suffix.toList.isSuffixOf text.toList then
    String.ofList (text.toList.take (text.toList.length - suffix.toList.length))
  else text

/-- A resource object constructed under a name in a context. -/
def newResource (env : ApplyEnv) (type name : String) (cls : ResourceType)
    (properties : Dict String Value) : Except Fault Resource := do
  let fields ← env.validate cls properties
  .ok
    { type, provider := cls.provider, stack := env.ambient.stack
      name := match env.ambient.component with
        | some component => component ++ "-" ++ name
        | none => name
      inputs := fields.filter fun field _ => cls.fields.lookup field ≠ some .computed
      computed := fields.filter fun field _ => cls.fields.lookup field = some .computed }

/-- A stored property as the rebuilt resource holds it. -/
def rebuild (env : ApplyEnv) (outputs : LiveOutputs) (value : Value) : Except Fault Value :=
  if value.secretRefFromMarker.isSome || value.stackOutputFromMarker.isSome then .ok value
  else
    resolveValue env.codec outputs false
      (if hasStackOutput value then (substituteStack env.stackOutputs value).1 else value)

/-- Rebuilds a resource from its row, resolving its handles leniently. A companion row rebuilds
under its resource's own name. -/
def reconstruct (env : ApplyEnv) (outputs : LiveOutputs) (row : StateNode) : Except Fault Resource :=
  match env.types row.type with
  | none => .error (.engine ("resource type is unavailable: " ++ row.type))
  | some cls => do
    let name := removeSuffix (cbdCompanionId "") (localNameOf row.id)
    let properties ← rewriteInputs (fun _ value => rebuild env outputs value) row.properties
    let fields ← row.outputs.foldl (fun found field value => do
      let table ← found
      if (cls.fields.lookup field).isSome && !table.contains field then
        .ok (table.insert field (← env.secrets.unsealValue value))
      else .ok table) (.ok properties)
    let res ← newResource env row.type name cls fields
    let opened ← resolveSecretRefs env.secrets res
    resolveStackRefs env.codec env.stackOutputs false opened

end Atlantide
