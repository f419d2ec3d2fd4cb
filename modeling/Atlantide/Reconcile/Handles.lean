import Atlantide.Core.Handles
import Atlantide.Lib.Fold
import Atlantide.Reconcile.Resolve

/-! # Live handles to values

Three resolvers run over a resource's inputs, each field on its own: committed stack outputs, then
upstream outputs and the transforms over them, then secrets. -/

namespace Atlantide

/-- What the standard library makes of the operands of a transform. -/
structure Rendering where
  /-- `str(value)`. -/
  text : Input → String
  /-- The positions the placeholders of a template name. -/
  placeholders : String → List Nat
  /-- The allowlisted operations. -/
  reduce : String → List Input → Except Fault String

/-- What handles resolve against. -/
structure HandleEnv where
  rendering : Rendering
  outputs : LiveOutputs
  stackOutputs : Dict String Value
  secrets : SecretRef → Except Fault String

namespace Input

/-- Whether a handle, or a text one was printed into, is anywhere in the value. -/
def holdsHandle (value : Input) : Bool := value.any fun v => v.isHandle || v.isRendered

/-- The output a reference names. Strictly, a missing one is a fault; leniently, the reference
stays. -/
def lookup (outputs : LiveOutputs) (strict : Bool) (ref : Ref) : Except Fault Input :=
  match (outputs[ref.nodeId]?).bind (·[ref.attr]?) with
  | some value => .ok (ofValue value)
  | none => if strict then .error (.missing ref.nodeId ref.attr) else .ok (.ref ref)

/-- The operands whose text an operation uses. -/
def operandsUsed (rendering : Rendering) : String → List Input → List Input
  | "interpolate", template :: args =>
    template :: (rendering.placeholders (rendering.text template)).filterMap (args[·]?)
  | "join", separator :: .list parts :: _ => separator :: parts
  -- Iterated, an object gives its keys.
  | "join", separator :: .dict fields :: _ => separator :: fields.map fun entry => .str entry.1
  | _, operands => operands

def evalTransform (rendering : Rendering) (op : String) (operands : List Input) :
    Except Fault Input := do
  let text ← rendering.reduce op operands
  .ok (if (operandsUsed rendering op operands).any holdsHandle then .rendered text else .str text)

section

variable (rendering : Rendering) (outputs : LiveOutputs) (strict : Bool)

mutual

/-- Replaces every reference and evaluates every transform over its resolved operands. -/
def resolve : Input → Except Fault Input
  | .list items => (resolveItems items).map .list
  | .dict fields =>
    match (Input.dict fields).refFromMarker with
    | some found => lookup outputs strict found
    | none =>
      if (Input.dict fields).isTransformMarker then resolveMarker fields
      else (resolveFields fields).map .dict
  | .model fields => (resolveFields fields).map .dict
  | .ref found => lookup outputs strict found
  | .transform op args => do evalTransform rendering op (← resolveItems args)
  | value => .ok value

def resolveItems : List Input → Except Fault (List Input)
  | [] => .ok []
  | item :: items => do .ok ((← resolve item) :: (← resolveItems items))

def resolveFields : List (String × Input) → Except Fault (List (String × Input))
  | [] => .ok []
  | (name, value) :: fields => do .ok ((name, ← resolve value) :: (← resolveFields fields))

/-- The body of a `{"$transform": {"op": …, "args": […]}}` marker. -/
def resolveMarker : List (String × Input) → Except Fault Input
  | (_, .dict body) :: _ => do
    let operands ← resolveOperands body
    match body.lookup "op" with
    | some (.str op) => evalTransform rendering op operands
    | _ => .error .shape
  | _ => .error .shape

def resolveOperands : List (String × Input) → Except Fault (List Input)
  | [] => .error .shape
  | (name, value) :: fields =>
    if name = "args" then resolveArgs value else resolveOperands fields

def resolveArgs : Input → Except Fault (List Input)
  | .list items => resolveItems items
  -- `list(args)` of a text is its characters, and of an object its keys.
  | .str text => .ok (text.toList.map fun c => .str (String.singleton c))
  | .dict fields => .ok (fields.map fun entry => .str entry.1)
  | _ => .error .shape

end

end

/-! ## Stack outputs -/

section

variable (stackOutputs : Dict String Value)

mutual

/-- Every stack output handle replaced; the keys that have no output. A transform is rebuilt. -/
def substitute : Input → Input × List String
  | .list items => ((.list (substituteItems items).1), (substituteItems items).2)
  | .dict fields | .model fields => ((.dict (substituteFields fields).1), (substituteFields fields).2)
  | .transform op args => (.transform op (substituteItems args).1, (substituteItems args).2)
  | .stackOutputRef stack name =>
    match stackOutputs[stack ++ ":" ++ name]? with
    | some value => (ofValue value, [])
    | none => (.stackOutputRef stack name, [stack ++ ":" ++ name])
  | value => (value, [])

def substituteItems : List Input → List Input × List String
  | [] => ([], [])
  | item :: items =>
    ((substitute item).1 :: (substituteItems items).1,
      (substitute item).2 ++ (substituteItems items).2)

def substituteFields : List (String × Input) → List (String × Input) × List String
  | [] => ([], [])
  | (name, value) :: fields =>
    ((name, (substitute value).1) :: (substituteFields fields).1,
      (substitute value).2 ++ (substituteFields fields).2)

end

end

/-- A field with its stack outputs in place. A transform left with concrete operands is evaluated. -/
def resolveStackRef (rendering : Rendering) (stackOutputs : Dict String Value) (strict : Bool)
    (value : Input) : Except Fault Input :=
  if !value.any isStackOutputRef then .ok value
  else
    match substitute stackOutputs value with
    | (_, key :: _) =>
      if strict then .error (.engine ("stack output not found: " ++ key)) else .ok value
    | (substituted, []) =>
      if substituted.needsResolution || !substituted.any isTransform then .ok substituted
      else resolve rendering ∅ true substituted

def resolveRef (rendering : Rendering) (outputs : LiveOutputs) (value : Input) :
    Except Fault Input :=
  if value.needsResolution then resolve rendering outputs true value else .ok value

/-- A field that is a secret handle, opened. -/
def resolveSecretRef (secrets : SecretRef → Except Fault String) : Input → Except Fault Input
  | .secretRef found => (secrets found).map .str
  | value => .ok value

end Input

/-- Every field of a table rewritten, each on its own. -/
def updatedInputs (rewrite : Input → Except Fault Input) (inputs : Dict String Input) :
    Except Fault (Dict String Input) :=
  Fold.traverse rewrite inputs

/-- A resource's inputs as its provider is given them. -/
def resolveInputs (env : HandleEnv) (inputs : Dict String Input) :
    Except Fault (Dict String Input) := do
  let stacked ← updatedInputs (Input.resolveStackRef env.rendering env.stackOutputs true) inputs
  let referred ← updatedInputs (Input.resolveRef env.rendering env.outputs) stacked
  updatedInputs (Input.resolveSecretRef env.secrets) referred

end Atlantide
