import Mathlib.Data.List.Sort
import Atlantide.Executor.Context
import Atlantide.Graph.Order
import Atlantide.Reconcile.Convergence

/-! # Importing live resources into the state

A row is otherwise written only by creating its resource. An import reads a resource that exists
through its provider, compares it with what the config declares, and writes the row an apply would
have written. The requests of a batch run one after another, each seeing what the ones before it
recorded. -/

namespace Atlantide

open Fallible

inductive ImportStatus
  | imported
  | wouldImport
  | drifted
  | notFound
  | alreadyTracked
  | blocked
  deriving DecidableEq

/-- Why a request did not import its node. -/
inductive ImportDetail
  | none
  | undeclared
  | tracked
  | dependsOn (missing : List String)
  | unknownType (type : String)
  | needsId (type identityField : String)
  | takesNoId (type : String)
  | readFailed (error : String)
  | nothingThere
  | differs
  deriving DecidableEq

/-- The text shown for it; `repr` prints a string as Python does. -/
def ImportDetail.text (repr : String → String) : ImportDetail → String
  | none => ""
  | undeclared => "not in this config"
  | tracked => "already in state"
  | dependsOn missing => "depends on nodes not in state yet: " ++ ", ".intercalate missing
  | unknownType type => "unknown type " ++ repr type
  | needsId type identityField => type ++ " is located by its " ++ identityField ++
      ", which config cannot know — pass the id as the second argument"
  | takesNoId type => type ++ " is found by name; it takes no id"
  | readFailed error => "read failed: " ++ error
  | nothingThere => "the provider found no such resource"
  | differs => "the live resource differs from what config declares"

/-- One node to import, and the id to find it by if its type needs one. -/
structure ImportRequest where
  nodeId : String
  externalId : Option String := none
  /-- Overrides the provider's identity field. -/
  idField : Option String := none

structure AdoptOptions where
  /-- A batch that does not write is a dry run. -/
  write : Bool := true
  allowDrift : Bool := false
  force : Bool := false

structure ImportOutcome where
  nodeId : String
  type : String
  status : ImportStatus
  identityField : Option String := none
  externalId : Option String := none
  drift : Option NodeDrift := none
  /-- The names of the recorded outputs. -/
  recorded : List String := []
  detail : ImportDetail := .none

/-- What an import asks of a provider. -/
structure ImportProvider where
  /-- The field a type is located by, or none if it is found by name. -/
  identityField : String → Option String
  /-- The live values of a resource, or none if there is no such resource. -/
  read : Rebuilt → Except String (Option (Dict String Value))

/-- What the requests of a batch run against. -/
structure Importing where
  classes : ResourceClasses
  codec : Codec
  secrets : SecretsRegistry
  rendering : Rendering
  stackOutputs : Dict String Value
  providers : String → Option ImportProvider
  ir : IRGraph
  hashes : String → String
  /-- An exception as it is shown. -/
  faultText : Fault → String

/-- What one request leaves to the next. -/
structure ImportSession where
  state : StateGraph
  outputs : LiveOutputs
  tracked : List String

/-- `if text:`, of a text that may be missing. -/
def isGiven (text : Option String) : Bool := text.any (· ≠ "")

namespace Importing

variable (importing : Importing)

def handles (outputs : LiveOutputs) : HandleEnv where
  rendering := importing.rendering
  outputs := outputs
  stackOutputs := importing.stackOutputs
  secrets := importing.secrets.resolve

def providerFor (name : String) : Except Fault ImportProvider :=
  match importing.providers name with
  | some provider => .ok provider
  | none => .error (.engine name)

/-- The row of a node, as an apply writes it. -/
def row (node : IRNode) (outputs : Dict String Value) (digests refs : Dict String String)
    (poison : Bool) : StateNode where
  id := node.id
  type := node.type
  provider := node.provider
  providerVersion := node.providerVersion
  inputHash := if poison then noInputHash else importing.hashes node.id
  outputs := outputs
  properties := node.properties
  dependencies := node.dependencies
  dependsOn := node.dependsOn
  preventDestroy := node.preventDestroy
  secretDigests := digests
  refDigests := refs
  status := .created

/-- A digest of each sensitive text the rebuilt resource was given. -/
def secretDigests (cls : ResourceType) (res : Rebuilt) (nodeId : String) :
    Except Fault (Dict String String) :=
  cls.sensitive.foldlM (fun (digests : Dict String String) (name : String) => do
    match res.inputs[name]? with
    | some (.str text) | some (.rendered text) =>
      return digests.insert name (← importing.secrets.digest (fieldScope nodeId name) text)
    | _ => return digests) ∅

section

variable (options : AdoptOptions) (session : ImportSession) (request : ImportRequest)
  (node : IRNode)

def outcome (identityField : Option String) (status : ImportStatus) (detail : ImportDetail := .none)
    (drift : Option NodeDrift := none) (recorded : List String := []) : ImportOutcome where
  nodeId := node.id
  type := node.type
  status := status
  identityField := identityField
  externalId := request.externalId
  drift := drift
  recorded := recorded
  detail := detail

/-- The dependencies of a node that no row tracks. -/
def missing : List String :=
  (node.dependencies.insertionSort (· ≤ ·)).filter (· ∉ session.tracked)

/-- What is known of a node that nothing refused. -/
structure Admitted where
  cls : ResourceType
  provider : ImportProvider
  identityField : Option String

/-- The first reason the node cannot be imported, if there is one. -/
def refusal : Except Fault (ImportOutcome ⊕ Admitted) :=
  if node.id ∈ session.tracked ∧ ¬ options.force then
    .ok (.inl (outcome request node none .alreadyTracked .tracked))
  else if missing session node ≠ [] then
    .ok (.inl (outcome request node none .blocked (.dependsOn (missing session node))))
  else
    match importing.classes.types node.type with
    | none => .ok (.inl (outcome request node none .blocked (.unknownType node.type)))
    | some cls => do
      let provider ← importing.providerFor node.provider
      let identityField :=
        if isGiven request.idField then request.idField else provider.identityField node.type
      if isGiven identityField ∧ ¬ isGiven request.externalId then
        .ok (.inl (outcome request node identityField .blocked
          (.needsId node.type (identityField.getD ""))))
      else if ¬ isGiven identityField ∧ isGiven request.externalId then
        .ok (.inl (outcome request node identityField .blocked (.takesNoId node.type)))
      else .ok (.inr ⟨cls, provider, identityField⟩)

variable (admitted : Admitted)

/-- The id on the field it is found by. -/
def seed : Dict String Value :=
  match admitted.identityField, request.externalId with
  | some field, some externalId => if field ≠ "" then (∅ : Dict String Value).insert field
      (.str externalId) else ∅
  | _, _ => ∅

/-- The node's resource, rebuilt, and what its provider reads of it. -/
def look : Except String (Rebuilt × Option (Dict String Value)) := do
  let res ← (rebuildRow importing.classes importing.secrets.unsealValue
    (importing.handles session.outputs)
    (importing.row node (seed request admitted) ∅ ∅ false)).mapError importing.faultText
  let live ← admitted.provider.read res
  return (res, live)

/-- The part of a read that belongs among the outputs: a reported input is none of them. -/
def splitOutputs (live : Dict String Value) : Dict String Value :=
  let recorded := live.filter fun name _ => name ∉ node.properties
  match admitted.identityField, request.externalId with
  | some field, some externalId =>
    if field ≠ "" ∧ externalId ≠ "" ∧ field ∉ recorded then recorded.insert field (.str externalId)
    else recorded
  | _, _ => recorded

/-- The live resource against what the config declares. -/
def compare (res : Rebuilt) (live recorded : Dict String Value) : Except Fault NodeDrift :=
  let probe := importing.row node recorded ∅ ∅ false
  classifyDrift probe (resolvedProperties probe res) (some (live.map fun _ value => .ofValue value))
    admitted.cls.sensitive importing.secrets

/-- The row to write, and what meets its write: a lost lease, or a backend that refuses it. -/
def persisted (res : Rebuilt) (recorded : Dict String Value) (poisoned : Bool)
    (refused : Option Fault) : Except Fault StateNode := do
  let digests ← importing.secretDigests admitted.cls res node.id
  let refs := refDigests importing.codec importing.classes.types importing.secrets node.type
    node.properties session.outputs
  match refused with
  | some fault => .error fault
  | none => .ok (importing.row node (admitted.cls.sealOutputs importing.secrets recorded) digests
      refs poisoned)

/-- The read, the comparison, and the write. -/
def run (refused : Option Fault) : Except Fault (ImportSession × ImportOutcome) :=
  match importing.look session request node admitted with
  | .error text =>
    .ok (session, outcome request node admitted.identityField .blocked (.readFailed text))
  | .ok (_, none) =>
    .ok (session, outcome request node admitted.identityField .notFound .nothingThere)
  | .ok (res, some live) => do
    let recorded := splitOutputs request node admitted live
    let drift ← importing.compare node admitted res live recorded
    if drift.kind = .drifted ∧ ¬ options.allowDrift then
      .ok (session, outcome request node admitted.identityField .drifted .differs (some drift))
    else
      let outputs := session.outputs.insert node.id recorded
      let tracked := node.id :: session.tracked
      if options.write then
        let row ← importing.persisted session node admitted res recorded (drift.kind = .drifted)
          refused
        .ok (⟨session.state.insert node.id row, outputs, tracked⟩,
          outcome request node admitted.identityField .imported .none (some drift) recorded.keys)
      else
        -- A dry run: the requests after it see what a real run would show them.
        .ok (⟨session.state, outputs, tracked⟩,
          outcome request node admitted.identityField .wouldImport .none (some drift) recorded.keys)

end

/-- Checks, reads, compares and records one node. -/
def adoptOne (options : AdoptOptions) (session : ImportSession) (request : ImportRequest)
    (refused : Option Fault) : Except Fault (ImportSession × ImportOutcome) :=
  match importing.ir.byId[request.nodeId]? with
  | none =>
    .ok (session,
      { nodeId := request.nodeId, type := "", status := .blocked, detail := .undeclared })
  | some node => do
    match ← importing.refusal options session request node with
    | .inl outcome => .ok (session, outcome)
    | .inr admitted => importing.run options session request node admitted refused

/-- The requests in turn. An exception ends the batch, and leaves what it wrote. -/
def adoptAll (options : AdoptOptions) :
    ImportSession → List (ImportRequest × Option Fault) →
      ImportSession × Except Fault (List ImportOutcome)
  | session, [] => (session, .ok [])
  | session, (request, refused) :: rest =>
    match importing.adoptOne options session request refused with
    | .error fault => (session, .error fault)
    | .ok (next, outcome) =>
      let (last, outcomes) := adoptAll options next rest
      (last, outcomes.map (outcome :: ·))

/-- A batch over what the backend holds. -/
def adopt (options : AdoptOptions) (prior : StateGraph)
    (requests : List (ImportRequest × Option Fault)) :
    Except Fault (ImportSession × Except Fault (List ImportOutcome)) := do
  let outputs ← Executor.liveOutputs prior importing.secrets
  return importing.adoptAll options ⟨prior, outputs, prior.keys⟩ requests

end Importing

/-- The requests in dependency order; ones that name no declared node come last. -/
def importOrder (graph : DiGraph) (requests : List ImportRequest) : List ImportRequest :=
  let order := topologicalOrder graph
  requests.mergeSort fun first second =>
    order.idxOf first.nodeId ≤ order.idxOf second.nodeId

end Atlantide
