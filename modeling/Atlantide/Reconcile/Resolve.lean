import Atlantide.Core.Markers
import Atlantide.State.Model

/-! # Handles to values

Resolution reads live outputs, secrets and committed stack outputs, and calls no provider. -/

namespace Atlantide

/-- Plaintext outputs by node id. -/
abbrev LiveOutputs := Dict String (Dict String Value)

/-- Why a value could not be computed. -/
inductive Fault
  /-- A `KeyError`: no such output. -/
  | missing (nodeId attr : String)
  /-- An operand of the wrong shape, or a value with no JSON form. -/
  | shape
  /-- An error of the engine's own. -/
  | engine (message : String)
  deriving DecidableEq

/-- What the standard library computes for the engine. -/
structure Codec where
  /-- Compact JSON with sorted keys. -/
  canonical : Value → String
  sha256 : String → String
  /-- The deferred operations on resolved operands. -/
  transform : String → List Value → Except Fault Value

structure SecretsRegistry where
  resolve : SecretRef → Except Fault String
  /-- The install-salted digest of a text in a scope. -/
  digest : String → String → Except Fault String
  sealText : String → Value
  unsealValue : Value → Except Fault Value

namespace SecretsRegistry

def digestMatches (secrets : SecretsRegistry) (scope plaintext : String)
    (stored : Option String) : Except Fault Bool :=
  match stored with
  | none => .ok false
  | some stored => (secrets.digest scope plaintext).map (· = stored)

end SecretsRegistry

/-- The output a reference names. Strictly, a missing one is a fault; leniently, the reference
stays. -/
def lookupOutput (outputs : LiveOutputs) (strict : Bool) (ref : Ref) (marker : Value) :
    Except Fault Value :=
  match (outputs[ref.nodeId]?).bind (·[ref.attr]?) with
  | some value => .ok value
  | none => if strict then .error (.missing ref.nodeId ref.attr) else .ok marker

section

variable (codec : Codec) (outputs : LiveOutputs) (strict : Bool)

mutual

/-- Replaces every reference, and evaluates every transform over its resolved operands. -/
def resolveValue : Value → Except Fault Value
  | .list items => (resolveItems items).map .list
  | .dict fields =>
    match (Value.dict fields).refFromMarker with
    | some ref => lookupOutput outputs strict ref (.dict fields)
    | none =>
      if (Value.dict fields).isTransformMarker then resolveTransform fields
      else (resolveFields fields).map .dict
  | value => .ok value

def resolveItems : List Value → Except Fault (List Value)
  | [] => .ok []
  | item :: items => do .ok ((← resolveValue item) :: (← resolveItems items))

def resolveFields : List (String × Value) → Except Fault (List (String × Value))
  | [] => .ok []
  | (name, value) :: fields => do .ok ((name, ← resolveValue value) :: (← resolveFields fields))

/-- The body of a `{"$transform": {"op": …, "args": […]}}` marker. -/
def resolveTransform : List (String × Value) → Except Fault Value
  | (_, .dict body) :: _ => do
    let operands ← resolveOperands body
    match body.lookup "op" with
    | some (.str op) => codec.transform op operands
    | _ => .error .shape
  | _ => .error .shape

def resolveOperands : List (String × Value) → Except Fault (List Value)
  | [] => .error .shape
  | (name, value) :: fields =>
    if name = "args" then resolveArgs value else resolveOperands fields

def resolveArgs : Value → Except Fault (List Value)
  | .list items => resolveItems items
  | _ => .error .shape

end

/-- A table's values resolved, each field on its own. -/
def resolveProperties (properties : Dict String Value) : Except Fault (Dict String Value) :=
  properties.foldl (fun resolved name value => do
    let table ← resolved
    let found ← if value.needsResolution then resolveValue codec outputs strict value
      else .ok value
    .ok (table.insert name found)) (.ok ∅)

end

/-- The companion row of a create-before-destroy REPLACE's still-live old half. -/
def cbdCompanionId (nodeId : String) : String := nodeId ++ "~replaced"

theorem companion_ne_self (nodeId : String) : cbdCompanionId nodeId ≠ nodeId := by
  intro hsame
  have hlength := congrArg (fun id : String => id.toList.length) hsame
  simp [cbdCompanionId] at hlength

theorem companion_ne {nodeId : String} (hnode : '~' ∉ nodeId.toList) (other : String) :
    cbdCompanionId other ≠ nodeId := by
  rintro rfl
  exact hnode (by simp [cbdCompanionId])

def fieldScope (nodeId field : String) : String := nodeId ++ ":" ++ field

/-- Every output of a table opened. -/
def unsealOutputs (secrets : SecretsRegistry) (outputs : Dict String Value) :
    Except Fault (Dict String Value) :=
  outputs.foldl (fun opened name value => do
    let table ← opened
    .ok (table.insert name (← secrets.unsealValue value))) (.ok ∅)

end Atlantide
