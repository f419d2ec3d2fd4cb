import Atlantide.Reconcile.Ordering
import Atlantide.Reconcile.Resolve

/-! # What each reference resolved to when its node was last applied

A row keeps markers, which cannot say which value the resource was given, so it records a digest of
that value beside them: unsalted, or salted with the install's key when the value derives from a
sensitive field. -/

namespace Atlantide

/-- The part of a node id between its first and second `:`. -/
def typeNameOf (nodeId : String) : String :=
  match partition ':' nodeId with
  | (_, some rest) => (partition ':' rest).1
  | (_, none) => ""

def plainPrefix : String := "sha256:"
def saltedPrefix : String := "salted:"

/-- The recorded digest of `value` as field `field` consumed it. -/
def digest (codec : Codec) (secrets : SecretsRegistry) (field : String) (value : Value)
    (sensitive : Bool) : Except Fault String :=
  let canonical := codec.canonical value
  if sensitive then (secrets.digest ("$ref:" ++ field) canonical).map (saltedPrefix ++ ·)
  else .ok (plainPrefix ++ codec.sha256 canonical)

/-- Whether `value` is the one `recorded` digests, or nothing if it cannot say. -/
def sameAsRecorded (codec : Codec) (secrets : SecretsRegistry) (field : String) (value : Value)
    (recorded : String) : Except Fault (Option Bool) :=
  if recorded.startsWith saltedPrefix then
    (digest codec secrets field value true).map fun fresh => some (fresh = recorded)
  else if recorded.startsWith plainPrefix then
    (digest codec secrets field value false).map fun fresh => some (fresh = recorded)
  else .ok none

/-- Whether a reference-bearing value derives from a sensitive field. -/
def isSensitive (types : Types) (value : Value) (own : Bool) : Bool :=
  own || (value.collect Value.isRefMarker).any fun marker =>
    match marker.refFromMarker with
    | some ref =>
      match types (typeNameOf ref.nodeId) with
      | some cls => ref.attr ∈ cls.sensitive
      | none => true
    | none => false

/-- The record of a row about to be written: a digest per property that resolves. -/
def refDigests (codec : Codec) (types : Types) (secrets : SecretsRegistry) (type : String)
    (properties : Dict String Value) (outputs : LiveOutputs) : Dict String String :=
  let ownSensitive := ((types type).map (·.sensitive)).getD []
  properties.filterMap fun name value =>
    if value.needsResolution then
      match resolveValue codec outputs true value with
      | .ok resolved =>
        (digest codec secrets name resolved
          (isSensitive types value (name ∈ ownSensitive))).toOption
      | .error _ => none
    else none

/-- A stored row's outputs, opened; none if the row is unconfirmed or cannot be opened. -/
def storedOutputs (prior : StateGraph) (secrets : SecretsRegistry) (nodeId : String) :
    Option (Dict String Value) :=
  match prior[nodeId]? with
  | some row => if row.status = .created then (unsealOutputs secrets row.outputs).toOption else none
  | none => none

/-- The outputs of the upstreams a value names, if all of them can be read. -/
def upstreamOutputs (prior : StateGraph) (secrets : SecretsRegistry) (value : Value) :
    Option LiveOutputs :=
  (value.collectRefTargets).foldl (fun found target => do
    let table ← found
    let outputs ← storedOutputs prior secrets target
    return table.insert target outputs) (some ∅)

/-- One field's verdict; none when it did not move or cannot be resolved. -/
def fieldVerdict (codec : Codec) (prior : StateGraph) (secrets : SecretsRegistry) (name : String)
    (value : Value) (recorded : Option String) : Except Fault (Option Consumed) :=
  match recorded with
  | none => .ok (some .unrecorded)
  | some recorded =>
    match upstreamOutputs prior secrets value with
    | none => .ok none
    | some available =>
      match resolveValue codec available true value with
      | .error _ => .ok none
      | .ok resolved => do
        if (← sameAsRecorded codec secrets name resolved recorded) = some false then
          return some .moved
        else return none

/-- The verdict of each reference field of a node the config left unchanged. -/
def nodeVerdicts (codec : Codec) (prior : StateGraph) (secrets : SecretsRegistry) (node : IRNode)
    (row : StateNode) : Except Fault (Dict String Consumed) :=
  node.properties.foldl (fun verdicts name value => do
    let table ← verdicts
    let unchanged := match row.properties[name]? with
      | some stored => stored.same value
      | none => false
    if name ∈ node.ignoreChanges || !value.needsResolution || !unchanged then return table
    match ← fieldVerdict codec prior secrets name value row.refDigests[name]? with
    | some verdict => return table.insert name verdict
    | none => return table) (.ok ∅)

/-- Per node, the reference fields whose recorded value is not what they resolve to now. -/
def consumed (codec : Codec) (desired : IRGraph) (prior : StateGraph) (secrets : SecretsRegistry) :
    Except Fault ConsumedRefs :=
  desired.nodes.foldl (fun verdicts node => do
    let table ← verdicts
    match prior[node.id]? with
    | none => return table
    | some row =>
      if row.status ≠ .created then return table
      let fields ← nodeVerdicts codec prior secrets node row
      if fields.isEmpty then return table else return table.insert node.id fields) (.ok ∅)

end Atlantide
