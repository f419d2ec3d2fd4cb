import Atlantide.Lang.Costs

/-! # The interpreter

One definition for each handler. Handlers reach each other through an evaluator, what evaluation can
do with the nesting it has left, so that a handler is an ordinary function and the interpreter ties
the knot. Statements recurse on the tree. -/

namespace Atlantide.Lang

open Metered

variable {A X H N : Type}

/-- What a native has to let through: handed an exhausted fuel it ends with it at once, and a manager
left because of one neither suppresses it nor goes on. -/
def Event.Passes (runtime : Runtime A X H N) : Event A X N → Prop
  | .resumed native .exhausted => ∀ heap, ∃ after,
      runtime.step (native (.error .exhausted)) heap = .done (.error .exhausted) after
  | .unwound manager .exhausted => ∀ heap, ∃ after,
      runtime.step (runtime.exit manager (some .exhausted)) heap = .done (.error .exhausted) after ∨
        ∃ value, runtime.step (runtime.exit manager (some .exhausted)) heap =
          .done (.ok value) after ∧ runtime.truth after value = .ok false
  | _ => True

/-- Fuel: what has been spent, and what running out of it raises. -/
def fuel (runtime : Runtime A X H N) : Meter (State A X H N) (Raised A X) where
  spent state := state.spent
  spend cost state := { state with spent := state.spent + cost }
  exhaustion := .failure .exhausted
  clean state := ∀ event ∈ state.events, event.Passes runtime
  spent_spend _ _ := rfl
  clean_spend _ _ := Iff.rfl

/-- What evaluation can do with the nesting it has left. -/
structure Evaluator (A X H N : Type) where
  /-- `_eval` -/
  eval : Expr → Nat → Run A X H N (Value A)
  /-- `_bind` -/
  bind : Expr → Value A → Nat → Run A X H N Unit
  /-- `_invoke` -/
  invoke : Nat → List (Value A) → List (String × Value A) → Run A X H N (Value A)
  /-- `_call_native` -/
  callNative : Value A → List (Value A) → List (String × Value A) → Run A X H N (Value A)
  /-- the rest of a native -/
  drive : N → Run A X H N (Value A)
  /-- `_sets_as_lists` -/
  setsAsLists : Value A → Run A X H N (Value A)
  /-- the rounds a loop can take -/
  steps : Nat

section Handlers

variable (runtime : Runtime A X H N) (ev : Evaluator A X H N)

/-! ## Fuel -/

/-- `_tick` with a price that looks at values and at what is left. -/
def tickOf (price : (Value A → Shape A) → Nat → Except (Failure X) Nat) : Run A X H N Unit :=
  charge (fuel runtime) fun state left =>
    (price (runtime.shape state.heap) left).mapError .failure

/-- `_tick`. -/
def tick (cost : Nat) : Run A X H N Unit := tickOf runtime fun _ _ => .ok cost

def shapeOf (value : Value A) : Run A X H N (Shape A) :=
  inspect fun state => runtime.shape state.heap value

/-- `_charge_deep`. -/
def chargeDeep (value : Value A) : Run A X H N Unit := do
  let shape ← shapeOf runtime value
  if shape.nested then tickOf runtime fun look left => .ok (deepCost look value left)

/-- `_charge_key`. -/
def chargeKey (key : Value A) : Run A X H N Unit := do
  let hashed ← inspect fun state => hashedKey (runtime.shape state.heap) key
  if hashed then chargeDeep runtime key

/-! ## Natives -/

/-- A native has ended. -/
def settle (result : Except (Failure X) (Value A)) (heap : H) : Run A X H N (Value A) := do
  update (·.setHeap heap)
  ofExcept (result.mapError .failure)

/-- Runs a native: its first step at once if that ends it. -/
def runNative (native : N) : Run A X H N (Value A) := do
  let step ← inspect fun state => runtime.step native state.heap
  match step with
  | .done result heap => settle result heap
  | _ => ev.drive native

/-- `func(*args, **kwargs)`, for a callable a native holds. -/
def callValue (func : Value A) (args : List (Value A)) (kwargs : List (String × Value A)) :
    Run A X H N (Value A) :=
  match func with
  | .closure index => ev.invoke index args kwargs
  | .callback func => ev.callNative func args kwargs
  | .obj _ => runNative runtime ev (runtime.call func args kwargs)

/-- Goes on with a native that called back. -/
def resumeNative (resume : Except (Failure X) (Value A) → N) :
    Except (Raised A X) (Value A) → Run A X H N (Value A)
  | .ok value => runNative runtime ev (resume (.ok value))
  | .error (.failure failure) => do
    update (·.note (.resumed resume failure))
    runNative runtime ev (resume (.error failure))
  | .error (.signal signal) => raise (.signal signal)

/-- One step of a native and what follows it. -/
def driveNative (native : N) : Run A X H N (Value A) := do
  let step ← inspect fun state => runtime.step native state.heap
  match step with
  | .done result heap => settle result heap
  | .silent next heap =>
    update (·.setHeap heap)
    ev.drive next
  | .invoke func args kwargs heap resume =>
    update (·.setHeap heap)
    let result ← outcome (callValue runtime ev func args kwargs)
    resumeNative runtime ev resume result

def prim (op : Prim) (args : List (Value A)) : Run A X H N (Value A) :=
  runNative runtime ev (runtime.prim op args)

def truth (value : Value A) : Run A X H N Bool := do
  let answer ← inspect fun state => runtime.truth state.heap value
  ofExcept (answer.mapError .failure)

/-! ## Iteration -/

/-- `_sorted_set`. -/
def sortedSet (value : Value A) : Run A X H N (Value A) := do
  chargeDeep runtime value
  prim runtime ev .sortedSet [value]

/-- `_iter`. -/
def iter (value : Value A) : Run A X H N (Value A) := do
  let shape ← shapeOf runtime value
  if shape.isSet then
    let sorted ← sortedSet runtime ev value
    prim runtime ev .iter [sorted]
  else prim runtime ev .iter [value]

/-- The next item of an iterator, if it has one. -/
def nextItem (iterator : Value A) : Run A X H N (Option (Value A)) := do
  let answer ← prim runtime ev .next [iterator]
  pure (runtime.item answer)

/-- `for item in iterator`: `body` goes on with a new accumulator or stops the loop. The outcome says
which of the two ended it. -/
def loopItems {γ δ : Type} (iterator : Value A) (body : Value A → γ → Run A X H N (γ ⊕ δ))
    (start : γ) : Run A X H N (γ ⊕ δ) :=
  iterate ev.steps (fun reached => do
    let next ← nextItem runtime ev iterator
    match next with
    | none => pure (.inr (.inl reached))
    | some item =>
      let went ← body item reached
      match went with
      | .inl reached => pure (.inl reached)
      | .inr stopped => pure (.inr (.inr stopped))) start

/-- A loop that nothing stops. -/
def foldItems {γ : Type} (iterator : Value A) (body : Value A → γ → Run A X H N γ) (start : γ) :
    Run A X H N γ := do
  let ended ← loopItems (δ := Empty) runtime ev iterator
    (fun item reached => do
      let next ← body item reached
      pure (.inl next)) start
  match ended with
  | .inl reached => pure reached

/-- `list(itertools.islice(iterator, count))`. -/
def takeItems (iterator : Value A) : Nat → Run A X H N (List (Value A))
  | 0 => pure []
  | count + 1 => do
    let next ← nextItem runtime ev iterator
    match next with
    | none => pure []
    | some item =>
      let rest ← takeItems iterator count
      pure (item :: rest)

/-! ## Binding -/

/-- `_eval_slice`. -/
def evalSlice (node : Expr) (scope : Nat) : Run A X H N (Value A) :=
  match node with
  | .slice lower upper step => do
    let bound (part : Option Expr) : Run A X H N (Value A) :=
      match part with
      | some part => ev.eval part scope
      | none => pure (runtime.literal .none)
    let lower ← bound lower
    let upper ← bound upper
    let step ← bound step
    prim runtime ev .slice [lower, upper, step]
  | node => ev.eval node scope

/-- `_subscript`. -/
def subscript (value slice : Expr) (scope : Nat) : Run A X H N (Value A × Value A) := do
  let container ← ev.eval value scope
  let key ← evalSlice runtime ev slice scope
  chargeKey runtime key
  tickOf runtime fun look _ => .ok (sliceCost look container key)
  pure (container, key)

/-- `isinstance(elt, ast.Starred)`. -/
def Expr.isStarred : Expr → Bool
  | .starred _ => true
  | _ => false

/-- `_unpack`. -/
def unpack (elts : List Expr) (value : Value A) : Run A X H N (List (Value A)) := do
  let count := elts.length
  let iterator ← iter runtime ev value
  if ¬ elts.any Expr.isStarred then
    let items ← takeItems runtime ev iterator (count + 1)
    if count < items.length then refuse (.tooManyToUnpack count)
    else if items.length < count then refuse (.notEnoughToUnpack count items.length)
    else pure items
  else if 1 < elts.countP Expr.isStarred then refuse .multipleStarred
  else
    let items ← foldItems runtime ev iterator
      (fun item items => do
        tick runtime 1
        pure (items ++ [item])) []
    if items.length < count - 1 then refuse (.notEnoughAtLeast (count - 1) items.length)
    else
      let star := elts.findIdx Expr.isStarred
      let after := count - 1 - star
      let rest ← prim runtime ev .list ((items.take (items.length - after)).drop star)
      pure (items.take star ++ [rest] ++ items.drop (items.length - after))

/-- `_bind`. -/
def bindTarget (target : Expr) (value : Value A) (scope : Nat) : Run A X H N Unit :=
  match target with
  | .name ident => update (·.assign scope ident value)
  | .tuple elts | .list elts => do
    let items ← unpack runtime ev elts value
    let _ ← each (fun pair => ev.bind pair.1 pair.2 scope) (elts.zip items)
    pure ()
  | .starred inner => ev.bind inner value scope
  | .subscript container key => do
    let (container, key) ← subscript runtime ev container key scope
    let _ ← prim runtime ev .setItem [container, key, value]
    pure ()
  | other => refuse (.cannotAssign other.kind)

/-- `_eval_load_target`, for the targets that are not subscripts. -/
def loadTarget (target : Expr) (scope : Nat) : Run A X H N (Value A) :=
  match target with
  | .name ident => do
    let found ← inspect fun state => state.get scope ident
    match found with
    | some value => pure value
    | none => refuse (.undefinedName ident)
  | other => refuse (.cannotRead other.kind)

/-! ## Functions -/

/-- `_make_closure`. -/
def makeClosure (params : Params) (defaults : List Expr) (body : List Stmt ⊕ Expr) (scope : Nat)
    (name : String) : Run A X H N (Value A) := do
  if params.vararg.isSome || params.kwarg.isSome || params.posonlyargs ≠ [] ||
      params.kwonlyargs ≠ [] then
    refuse .unsupportedParams
  else
    let defaults ← each (ev.eval · scope) defaults
    let index ← inspect fun state => state.closures.length
    update (·.addClosure { params := params.args, defaults, body, scope, name })
    pure (.closure index)

/-- The loop of `_bind_params`: the variables bound so far, and the keywords not used yet. -/
def bindParamsFrom (name : String) (required : Nat) (defaults : List (Value A)) :
    Nat → List String → List (Value A) → List (String × Value A) → List (String × Value A) →
      Except Refusal (List (String × Value A) × List (String × Value A))
  | _, [], _, kwargs, vars => .ok (vars, kwargs)
  | i, param :: params, value :: args, kwargs, vars =>
    bindParamsFrom name required defaults (i + 1) params args kwargs ((param, value) :: vars)
  | i, param :: params, [], kwargs, vars =>
    match kwargs.lookup param with
    | some value =>
      let kwargs := kwargs.filter (·.1 ≠ param)
      bindParamsFrom name required defaults (i + 1) params [] kwargs ((param, value) :: vars)
    | none =>
      match if required ≤ i then defaults[i - required]? else none with
      | some value =>
        bindParamsFrom name required defaults (i + 1) params [] kwargs ((param, value) :: vars)
      | none => .error (.missingArgument name param)

/-- `_bind_params`. -/
def bindParams (closure : Closure A) (args : List (Value A)) (kwargs : List (String × Value A)) :
    Except Refusal (Scope A) := do
  let required := closure.params.length - closure.defaults.length
  let (vars, left) ← bindParamsFrom closure.name required closure.defaults 0 closure.params args
    kwargs []
  if closure.params.length < args.length then
    .error (.surplusArguments closure.name closure.params.length args.length)
  else if left ≠ [] then .error (.unexpectedKeywords closure.name (left.map (·.1)))
  else .ok { parent := some closure.scope, vars }

/-- Opens a scope and names it. -/
def openScope (scope : Scope A) : Run A X H N Nat := do
  let index ← inspect fun state => state.scopes.length
  update (·.addScope scope)
  pure index

/-! ## Calls -/

/-- `callback_slot`: whether the first argument, or `key=`, is what the native calls. -/
def callbackSlot (look : Value A → Shape A) (callee : Callee A) : Option (Option String) :=
  match callee.builtin with
  | some .map | some .filter => some none
  | some .sorted | some .min | some .max => some (some "key")
  | _ =>
    match callee.name, callee.receiver.map look with
    | some "sort", some (.seq .list _) => some (some "key")
    | _, _ => none

/-- `_callback`. -/
def callbackOf (func : Value A) : Value A :=
  match func with
  | .closure index => .closure index
  | func => if runtime.isNone func then func else .callback func

/-- What `_native_prepared` hands back to be called. -/
inductive Prepared (A : Type) where
  | native (func : Value A) (args : List (Value A)) (kwargs : List (String × Value A))
  | str (func : Value A) (args : List (Value A)) (kwargs : List (String × Value A))
  | setPop (args : List (Value A)) (kwargs : List (String × Value A))

/-- `_normalize_arg`. -/
def normalizeArg (value : Value A) : Run A X H N (Value A) := do
  let shape ← shapeOf runtime value
  if shape.isSet then sortedSet runtime ev value else pure value

/-- `holds_set`, over the values still to look at. -/
def holdsSet (look : Value A → Shape A) : Nat → List (Value A) → Option Bool
  | 0, _ => none
  | _ + 1, [] => some false
  | rounds + 1, item :: stack =>
    match look item with
    | .seq .set _ | .seq .frozenset _ => some true
    | .seq .list items | .seq .tuple items => holdsSet look rounds (items.reverse ++ stack)
    | .dict keys values => holdsSet look rounds ((keys ++ values).reverse ++ stack)
    | _ => holdsSet look rounds stack

/-- `_sets_as_lists`. -/
def setsAsLists (value : Value A) : Run A X H N (Value A) := do
  let shape ← shapeOf runtime value
  match shape with
  | .seq .set _ | .seq .frozenset _ =>
    let sorted ← sortedSet runtime ev value
    let iterator ← prim runtime ev .iter [sorted]
    let items ← foldItems runtime ev iterator
      (fun item items => do
        let item ← ev.setsAsLists item
        pure (items ++ [item])) []
    prim runtime ev .list items
  | .dict keys values =>
    let values ← each ev.setsAsLists values
    let result ← prim runtime ev .newDict []
    let _ ← each (fun pair => prim runtime ev .setItem [result, pair.1, pair.2]) (keys.zip values)
    pure result
  | .seq .list items =>
    let items ← each ev.setsAsLists items
    prim runtime ev .list items
  | .seq .tuple items =>
    let items ← each ev.setsAsLists items
    prim runtime ev .tuple items
  | _ => pure value

/-- `_model_arg`. -/
def modelArg (value : Value A) : Run A X H N (Value A) := do
  let holds ← inspect fun state => holdsSet (runtime.shape state.heap) ev.steps [value]
  match holds with
  | none => unfinished
  | some true => ev.setsAsLists value
  | some false => pure value

/-- Applies an argument conversion to positional and keyword arguments. -/
def convertArgs (convert : Value A → Run A X H N (Value A)) (args : List (Value A))
    (kwargs : List (String × Value A)) :
    Run A X H N (List (Value A) × List (String × Value A)) := do
  let args ← each convert args
  let values ← each convert (kwargs.map (·.2))
  pure (args, (kwargs.map (·.1)).zip values)

/-- The end of `_native_prepared`: the argument a native calls is wrapped. -/
def wrapCallback (look : Value A → Shape A) (callee : Callee A) (args : List (Value A))
    (kwargs : List (String × Value A)) : List (Value A) × List (String × Value A) :=
  match callbackSlot look callee, args with
  | some none, func :: rest => (callbackOf runtime func :: rest, kwargs)
  | some (some key), args =>
    (args, kwargs.map fun pair =>
      if pair.1 = key then (pair.1, callbackOf runtime pair.2) else pair)
  | _, args => (args, kwargs)

/-- Whether a bound method walks its receiver, a built-in container or a text. -/
def walksReceiver (look : Value A → Shape A) (callee : Callee A) : Bool :=
  (match callee.receiver.map look with
    | some (.dict ..) | some (.str _) | some (.bytes _) => true
    | some (.seq .list _) | some (.seq .set _) | some (.seq .frozenset _)
    | some (.seq .tuple _) => true
    | _ => false) && !callee.name.any (· ∈ receiverFree)

/-- The charge for walking a bound method's receiver. -/
def chargeReceiver (callee : Callee A) : Run A X H N Unit := do
  let walks ← inspect fun state => walksReceiver (runtime.shape state.heap) callee
  match callee.receiver, walks with
  | some receiver, true => tickOf runtime fun look left => .ok (deepCost look receiver left)
  | _, _ => pure ()

/-- `_native_prepared`. -/
def nativePrepared (func : Value A) (args : List (Value A)) (kwargs : List (String × Value A)) :
    Run A X H N (Prepared A) := do
  let callee ← inspect fun state => runtime.callee state.heap func
  tickOf runtime fun look left => nativeCallCost look callee args kwargs left
  chargeReceiver runtime callee
  if callee.builtin = some .str then pure (.str func args kwargs)
  else if callee.model then
    let (args, kwargs) ← convertArgs (modelArg runtime ev) args kwargs
    pure (.native func args kwargs)
  else if callee.builtin = some .setPop then pure (.setPop args kwargs)
  else
    let owner ← inspect fun state => callee.receiver.map (runtime.shape state.heap)
    match owner, callee.receiver, decide (callee.name = some "pop") with
    | some (.seq .set _), some receiver, true => pure (.setPop (receiver :: args) kwargs)
    | _, _, _ =>
      let (args, kwargs) ← convertArgs (normalizeArg runtime ev) args kwargs
      let (args, kwargs) ← inspect fun state =>
        wrapCallback runtime (runtime.shape state.heap) callee args kwargs
      pure (.native func args kwargs)

/-- `_render`. -/
def render (value : Value A) (conversion : Conversion) : Run A X H N (Value A) := do
  chargeDeep runtime value
  prim runtime ev (.render conversion) [value]

/-- `_set_pop`. -/
def setPop (args : List (Value A)) (kwargs : List (String × Value A)) : Run A X H N (Value A) :=
  match args, kwargs with
  | [target], [] => do
    let shape ← shapeOf runtime target
    match shape with
    | .seq .set items =>
      if items = [] then refuse .setPopEmpty
      else
        let sorted ← sortedSet runtime ev target
        let first ← prim runtime ev .getItem [sorted, runtime.literal (.int 0)]
        let _ ← prim runtime ev .setRemove [target, first]
        pure first
    | _ => refuse .setPopMisuse
  | _, _ => refuse .setPopMisuse

/-- Calls what was prepared; `_str` is the `str` builtin as config calls it. -/
def callPrepared : Prepared A → Run A X H N (Value A)
  | .native func args kwargs => callValue runtime ev func args kwargs
  | .str _ [value] [] => render runtime ev value .str
  | .str func args kwargs => callValue runtime ev func args kwargs
  | .setPop args kwargs => setPop runtime ev args kwargs

/-- `_call_native`. -/
def callNative (func : Value A) (args : List (Value A)) (kwargs : List (String × Value A)) :
    Run A X H N (Value A) := do
  let prepared ← nativePrepared runtime ev func args kwargs
  callPrepared runtime ev prepared

/-- The items expanded between fuel checks, `_STAR_CHUNK`. -/
def starChunk : Nat := 1024

/-- `_expand_star`. -/
def expandStar (value : Value A) : Run A X H N (List (Value A)) := do
  let shape ← shapeOf runtime value
  let size : Option Length := match shape with
    | .leaf .unsized | .int _ | .slice .. | .badSlice => none
    | .leaf len => some len
    | shape => some (.counted shape.sizedLen)
  match size with
  | some len =>
    tickOf runtime fun _ left => .ok (match len with
      | .counted count => count
      | _ => left + 1)
    let iterator ← iter runtime ev value
    foldItems runtime ev iterator (fun item items => pure (items ++ [item])) []
  | none =>
    let iterator ← iter runtime ev value
    let (items, pending) ← foldItems runtime ev iterator
      (fun item reached => do
        let items := reached.1 ++ [item]
        if reached.2 + 1 = starChunk then
          tick runtime starChunk
          pure (items, 0)
        else pure (items, reached.2 + 1)) (([], 0) : List (Value A) × Nat)
    tick runtime pending
    pure items

/-- One item of the dict of keywords: one that comes again keeps its place. -/
def setKeyword (kwargs : List (String × Value A)) (pair : String × Value A) :
    List (String × Value A) :=
  if kwargs.any (·.1 = pair.1) then kwargs.map fun old => if old.1 = pair.1 then pair else old
  else kwargs ++ [pair]

/-- `_call_args`. -/
def callArgs (args : List Expr) (keywords : List (Option String)) (values : List Expr)
    (scope : Nat) : Run A X H N (List (Value A) × List (String × Value A)) := do
  let args ← each (fun arg =>
    match arg with
    | .starred inner => do
      let value ← ev.eval inner scope
      expandStar runtime ev value
    | arg => do
      let value ← ev.eval arg scope
      pure [value]) args
  if none ∈ keywords then refuse .keywordUnpacking
  else
    let values ← each (ev.eval · scope) values
    pure (args.flatten, (keywords.reduceOption.zip values).foldl setKeyword [])

/-- `_ex_Call`. -/
def evalCall (func : Expr) (args : List Expr) (keywords : List (Option String))
    (values : List Expr) (scope : Nat) : Run A X H N (Value A) := do
  let func ← ev.eval func scope
  let (args, kwargs) ← callArgs runtime ev args keywords values scope
  match func with
  | .closure index => ev.invoke index args kwargs
  | func => callNative runtime ev func args kwargs

/-! ## Expressions -/

/-- `_apply_binop`. -/
def applyBinop (op : Operator) (left right : Value A) : Run A X H N (Value A) := do
  tickOf runtime fun look _ => binopCost runtime look op left right
  let text ← inspect fun state => (runtime.shape state.heap left).text
  if op = .mod ∧ text then
    chargeDeep runtime right
    prim runtime ev .printf [left, right]
  else prim runtime ev (.binop op) [left, right]

/-- `_ex_FormattedValue`. -/
def evalFormattedValue (value : Expr) (conversion : Option Conversion) (formatSpec : Option Expr)
    (scope : Nat) : Run A X H N (Value A) := do
  let value ← ev.eval value scope
  let value ← match conversion with
    | some conversion => render runtime ev value conversion
    | none => pure value
  match formatSpec with
  | some spec =>
    let spec ← ev.eval spec scope
    tickOf runtime fun look _ => .ok (match look spec with
      | .str content => formatCost content
      | _ => 0)
    let shape ← shapeOf runtime value
    match shape with
    | .str _ => prim runtime ev .format [value, spec]
    | _ =>
      chargeDeep runtime value
      prim runtime ev .format [value, spec]
  | none => render runtime ev value .str

/-- `_ex_BoolOp`: the deciding operand's value, or the last one. -/
def evalBoolOp (op : BoolOperator) (scope : Nat) :
    List Expr → Value A → Run A X H N (Value A)
  | [], result => pure result
  | value :: rest, _ => do
    let result ← ev.eval value scope
    let holds ← truth runtime result
    if holds = decide (op ≠ .and) then pure result else evalBoolOp op scope rest result

/-- `_ex_Compare`. -/
def evalCompare (scope : Nat) :
    List (CmpOperator × Expr) → Value A → Run A X H N (Value A)
  | [], _ => pure (runtime.literal (.bool true))
  | (op, right) :: rest, left => do
    let right ← ev.eval right scope
    tickOf runtime fun look limit => .ok (compareCost look op left right limit)
    let answer ← prim runtime ev (.compare op) [left, right]
    let holds ← truth runtime answer
    if holds then evalCompare scope rest right else pure (runtime.literal (.bool false))

/-- `_ex_Attribute`. -/
def evalAttribute (value : Expr) (attr : String) (scope : Nat) : Run A X H N (Value A) := do
  let object ← ev.eval value scope
  let allowed ← inspect fun state => match object with
    | .obj _ => runtime.attributeAllowed state.heap object attr
    | _ => false
  if runtime.attributeRejected attr || !allowed then refuse (.attributeRefused attr)
  else
    let value ← prim runtime ev (.getattr attr) [object]
    let unreachable ← inspect fun state => runtime.unreachable state.heap value
    if unreachable then refuse (.attributeRefused attr) else pure value

/-- One item of `_make_set`. -/
def addToSet (target item : Value A) : Run A X H N Unit := do
  chargeKey runtime item
  let _ ← prim runtime ev .setAdd [target, item]
  pure ()

/-- `_ex_Set`. -/
def evalSet (elts : List Expr) (scope : Nat) : Run A X H N (Value A) := do
  let result ← prim runtime ev .newSet []
  let _ ← each (fun elt => do
    let item ← ev.eval elt scope
    addToSet runtime ev result item) elts
  pure result

/-- `_ex_Dict`. -/
def evalDict (keys : List (Option Expr)) (values : List Expr) (scope : Nat) :
    Run A X H N (Value A) := do
  let result ← prim runtime ev .newDict []
  let _ ← each (fun (pair : Option Expr × Expr) =>
    match pair.1 with
    | none => refuse .dictUnpacking
    | some key => do
      let key ← ev.eval key scope
      chargeKey runtime key
      let value ← ev.eval pair.2 scope
      let _ ← prim runtime ev .setItem [result, key, value]
      pure ()) (keys.zip values)
  pure result

/-- `all(self._eval(cond, inner) for cond in gen.ifs)`. -/
def allHold (scope : Nat) : List Expr → Run A X H N Bool
  | [] => pure true
  | cond :: rest => do
    let value ← ev.eval cond scope
    let holds ← truth runtime value
    if holds then allHold scope rest else pure false

/-- `_run_comp`, with what `emit` collects threaded through. -/
def runComp {γ : Type} (emit : Nat → γ → Run A X H N γ) :
    List Generator → Nat → γ → Run A X H N γ
  | [], scope, reached => emit scope reached
  | .mk target source ifs :: rest, scope, reached => do
    let source ← ev.eval source scope
    let iterator ← iter runtime ev source
    foldItems runtime ev iterator (fun item reached => do
      tick runtime 1
      let inner ← openScope { parent := some scope }
      ev.bind target item inner
      let holds ← allHold runtime ev inner ifs
      if holds then runComp emit rest inner reached else pure reached) reached

/-- `_comp_elements`. -/
def compElements (elt : Expr) (generators : List Generator) (scope : Nat) :
    Run A X H N (List (Value A)) :=
  runComp runtime ev (fun inner out => do
    let value ← ev.eval elt inner
    pure (out ++ [value])) generators scope []

/-- `_ex_DictComp`. -/
def evalDictComp (key value : Expr) (generators : List Generator) (scope : Nat) :
    Run A X H N (Value A) := do
  let result ← prim runtime ev .newDict []
  runComp runtime ev (fun inner _ => do
    let key ← ev.eval key inner
    chargeKey runtime key
    let value ← ev.eval value inner
    let _ ← prim runtime ev .setItem [result, key, value]
    pure ()) generators scope ()
  pure result

/-- A node type without a handler. -/
def unhandled {α : Type} (kind : NodeKind) (refusal : Refusal) : Run A X H N α := do
  update (·.note (.unhandled kind))
  refuse refusal

/-- `_eval`: a step, and the node's handler. -/
def evalExpr (node : Expr) (scope : Nat) : Run A X H N (Value A) := do
  tick runtime 1
  match node with
  | .constant value => pure (runtime.literal value)
  | .name ident => loadTarget (.name ident) scope
  | .joinedStr values => do
    let parts ← each (ev.eval · scope) values
    prim runtime ev .joinStr parts
  | .formattedValue value conversion spec =>
    evalFormattedValue runtime ev value conversion spec scope
  | .binOp left op right => do
    let left ← ev.eval left scope
    let right ← ev.eval right scope
    applyBinop runtime ev op left right
  | .unaryOp op operand => do
    let value ← ev.eval operand scope
    prim runtime ev (.unary op) [value]
  | .boolOp op values => evalBoolOp runtime ev op scope values (runtime.literal .none)
  | .compare left ops comparators => do
    let left ← ev.eval left scope
    evalCompare runtime ev scope (ops.zip comparators) left
  | .ifExp test body orelse => do
    let value ← ev.eval test scope
    let holds ← truth runtime value
    ev.eval (if holds then body else orelse) scope
  | .call func args keywords values => evalCall runtime ev func args keywords values scope
  | .attribute value attr => evalAttribute runtime ev value attr scope
  | .subscript value slice => do
    let (container, key) ← subscript runtime ev value slice scope
    prim runtime ev .getItem [container, key]
  | .list elts => do
    let items ← each (ev.eval · scope) elts
    prim runtime ev .list items
  | .tuple elts => do
    let items ← each (ev.eval · scope) elts
    prim runtime ev .tuple items
  | .set elts => evalSet runtime ev elts scope
  | .dict keys values => evalDict runtime ev keys values scope
  | .lambda params defaults body =>
    makeClosure ev params defaults (.inr body) scope "<lambda>"
  | .listComp elt generators | .generatorExp elt generators => do
    let items ← compElements runtime ev elt generators scope
    prim runtime ev .list items
  | .setComp elt generators => do
    let items ← compElements runtime ev elt generators scope
    let result ← prim runtime ev .newSet []
    let _ ← each (addToSet runtime ev result) items
    pure result
  | .dictComp key value generators => evalDictComp runtime ev key value generators scope
  | .slice .. => unhandled .slice (.cannotEvaluate .slice)
  | .starred _ => unhandled .starred (.cannotEvaluate .starred)
  | .other kind => unhandled (.foreignExpr kind) (.cannotEvaluate (.foreignExpr kind))

/-! ## Statements -/

/-- `_st_AugAssign`. -/
def execAugAssign (target : Expr) (op : Operator) (value : Expr) (scope : Nat) :
    Run A X H N Unit :=
  match target with
  | .subscript container key => do
    let (container, key) ← subscript runtime ev container key scope
    let current ← prim runtime ev .getItem [container, key]
    let rhs ← ev.eval value scope
    let result ← applyBinop runtime ev op current rhs
    let _ ← prim runtime ev .setItem [container, key, result]
    pure ()
  | target => do
    let current ← loadTarget target scope
    let rhs ← ev.eval value scope
    let result ← applyBinop runtime ev op current rhs
    ev.bind target result scope

/-- `_annotation_of`. -/
def annotationOf : Expr → Except Refusal String
  | .name ident => .ok ident
  | .binOp (.name ident) _ _ => .ok (ident ++ " | None")
  | _ => .error .annotationUnsupporteds

def ofRefusal {α : Type} (result : Except Refusal α) : Run A X H N α :=
  ofExcept (result.mapError fun refusal => .failure (.refused refusal))

/-- One field of `_schema_fields`: its name, its annotation and its default. -/
def schemaField (owner : String) (scope : Nat) :
    Stmt → Run A X H N (List (String × String × Option (Value A)))
  | .annAssign (.name field) annotation value _ => do
    tick runtime 1
    let text ← ofRefusal (annotationOf annotation)
    match value with
    | none => pure [(field, text, none)]
    | some value =>
      let default ← ev.eval value scope
      let _ ← prim runtime ev (.fieldDefault owner field text) [default]
      pure [(field, text, some default)]
  | .annAssign .. => refuse .annotationUnsupporteds
  | _ => pure []

/-- `_st_ClassDef`. -/
def execClassDef (name : String) (bases : List Expr) (body : List Stmt) (scope : Nat) :
    Run A X H N Unit :=
  match bases with
  | [] => refuse (.reboundSchema name)
  | base :: _ => do
    let base ← ev.eval base scope
    if ¬ runtime.envSchema base then refuse (.reboundSchema name)
    else
      let fields ← each (schemaField runtime ev name scope) body
      let fields := fields.flatten
      let declared := fields.map fun field => (field.1, field.2.1)
      let defaulted := fields.filterMap fun field => field.2.2.map fun default => (field.1, default)
      let schema ← prim runtime ev (.newSchema name declared (defaulted.map (·.1)))
        (defaulted.map (·.2))
      update (·.assign scope name schema)

/-- `_bind_import`. -/
def bindImport (module : String) (scope : Nat) (name : String × Option String) :
    Run A X H N Unit := do
  if name.1.startsWith "_" then refuse (.privateImport name.1)
  else
    let value ← prim runtime ev (.bindImport module name.1) []
    update (·.assign scope (name.2.getD name.1) value)

/-- `_st_ImportFrom`. -/
def execImportFrom (module : Option String) (names : List (String × Option String))
    (scope : Nat) : Run A X H N Unit :=
  match module with
  | none => refuse (.importNotAllowed none)
  | some path => do
    if ¬ runtime.importAllowed module then refuse (.importNotAllowed module)
    else
      let _ ← prim runtime ev (.importModule path) []
      let _ ← each (bindImport runtime ev path scope) names
      pure ()

/-- A failure is suppressed, on the way out of a loop or a function if `unwinding`. -/
def noteSuppressed (unwinding : Bool) (manager : Value A) : Run A X H N Unit :=
  if unwinding then update (·.note (.suppressed manager)) else pure ()

/-- `_exit_managers` and what follows it: the managers are left the last entered first, `pending` is
the failure still active, and `after` is what happens when none is. `unwinding` says that a loop or
a function is being left. -/
def leave (unwinding : Bool) (after : Run A X H N Unit) :
    List (Value A) → Option (Failure X) → Run A X H N Unit
  | [], none => after
  | [], some failure => raise (.failure failure)
  | manager :: rest, none => do
    let left ← outcome (runNative runtime ev (runtime.exit manager none))
    match left with
    | .ok _ => leave unwinding after rest none
    | .error (.failure failure) => leave unwinding after rest (some failure)
    | .error (.signal signal) => raise (.signal signal)
  | manager :: rest, some failure => do
    update (·.note (.unwound manager failure))
    let left ← outcome (do
      let answer ← runNative runtime ev (runtime.exit manager (some failure))
      truth runtime answer)
    match left with
    | .ok true =>
      noteSuppressed unwinding manager
      leave unwinding after rest none
    | .ok false => leave unwinding after rest (some failure)
    | .error (.failure failure) => leave unwinding after rest (some failure)
    | .error (.signal signal) => raise (.signal signal)

/-- The end of `_st_With`, whichever way its body ended. -/
def unwind (managers : List (Value A)) : Except (Raised A X) Unit → Run A X H N Unit
  | .ok () => leave runtime ev false (pure ()) managers none
  | .error (.signal signal) => leave runtime ev true (raise (.signal signal)) managers none
  | .error (.failure failure) => leave runtime ev false (pure ()) managers (some failure)

/-- Evaluates and enters one manager. -/
def enterManager (context : Expr) (scope : Nat) : Run A X H N (Value A × Value A) := do
  let manager ← ev.eval context scope
  update (·.note (.entered manager))
  let entered ← prim runtime ev .enter [manager]
  pure (manager, entered)

/-- `_st_With`: `managers` are those entered so far, the last one first. -/
def execWith (body : Run A X H N Unit) (scope : Nat) :
    List (Expr × Option Expr) → List (Value A) → Run A X H N Unit
  | [], managers => do
    let ended ← outcome body
    unwind runtime ev managers ended
  | (context, target) :: rest, managers => do
    let entered ← outcome (enterManager runtime ev context scope)
    match entered with
    | .error raised => unwind runtime ev managers (.error raised)
    | .ok (manager, entered) =>
      let bound ← outcome (match target with
        | none => pure ()
        | some target => ev.bind target entered scope)
      match bound with
      | .error raised => unwind runtime ev (manager :: managers) (.error raised)
      | .ok () => execWith body scope rest (manager :: managers)

/-- `_st_For`: the loop's body and `else` are given as what they do. -/
def execFor (target source : Expr) (body orelse : Run A X H N Unit) (scope : Nat) :
    Run A X H N Unit := do
  let source ← ev.eval source scope
  let iterator ← iter runtime ev source
  let ended ← loopItems runtime ev iterator (fun item (_ : Unit) => do
    tick runtime 1
    ev.bind target item scope
    let ended ← outcome body
    match ended with
    | .ok () | .error (.signal .cont) => pure (.inl ())
    | .error (.signal .brk) => pure (.inr ())
    | .error raised => raise raised) ()
  match ended with
  | .inl () => orelse
  | .inr () => pure ()

mutual

/-- `_exec`: a step, and the statement's handler. -/
def exec (stmt : Stmt) (scope : Nat) : Run A X H N Unit := do
  tick runtime 1
  update (·.visit stmt)
  match stmt with
  | .passStmt => pure ()
  | .exprStmt value => do
    let _ ← ev.eval value scope
    pure ()
  | .assign targets value => do
    let value ← ev.eval value scope
    let _ ← each (ev.bind · value scope) targets
    pure ()
  | .annAssign target _ (some value) _ => do
    let value ← ev.eval value scope
    ev.bind target value scope
  | .annAssign _ _ none _ => pure ()
  | .augAssign target op value => execAugAssign runtime ev target op value scope
  | .ifStmt test body orelse => do
    let value ← ev.eval test scope
    let holds ← truth runtime value
    if holds then execAll body scope else execAll orelse scope
  | .forStmt target source body orelse =>
    execFor runtime ev target source (execAll body scope) (execAll orelse scope) scope
  | .withStmt items body => execWith runtime ev (execAll body scope) scope items []
  | .breakStmt => raise (.signal .brk)
  | .continueStmt => raise (.signal .cont)
  | .returnStmt none => raise (.signal (.ret (runtime.literal .none)))
  | .returnStmt (some value) => do
    let value ← ev.eval value scope
    raise (.signal (.ret value))
  | .functionDef name params _ defaults body _ _ => do
    let closure ← makeClosure ev params defaults (.inl body) scope name
    update (·.assign scope name closure)
  | .classDef name bases _ _ _ body => execClassDef runtime ev name bases body scope
  | .importStmt names => refuse (.importBindsModule (names.headD ""))
  | .importFrom module names _ => execImportFrom runtime ev module names scope
  | .other kind => unhandled (.foreignStmt kind) (.cannotExecute (.foreignStmt kind))

/-- `for stmt in body: self._exec(stmt, scope)`. -/
def execAll (stmts : List Stmt) (scope : Nat) : Run A X H N Unit :=
  match stmts with
  | [] => pure ()
  | stmt :: rest => do
    exec stmt scope
    execAll rest scope

end

/-- A signal reaches where nothing handles it. -/
def stray {α : Type} (signal : Signal A) : Run A X H N α := do
  update (·.note (.strayed signal))
  refuse signal.stray

/-- `_invoke`. -/
def invoke (index : Nat) (args : List (Value A)) (kwargs : List (String × Value A)) :
    Run A X H N (Value A) := do
  let found ← inspect fun state => state.closures[index]?
  match found with
  | none => unfinished
  | some closure =>
    let scope ← ofRefusal (bindParams closure args kwargs)
    let inner ← openScope scope
    match closure.body with
    | .inr body => ev.eval body inner
    | .inl body =>
      let ended ← outcome (execAll runtime ev body inner)
      match ended with
      | .ok () => pure (runtime.literal .none)
      | .error (.signal (.ret value)) => pure value
      | .error (.signal signal) => stray signal
      | .error (.failure failure) => raise (.failure failure)

end Handlers

/-! ## The knot -/

section Knot

variable (runtime : Runtime A X H N)

/-- The evaluator with `depth` levels of nesting left. -/
def evaluator : Nat → Evaluator A X H N
  | 0 =>
    { eval := fun _ _ => unfinished
      bind := fun _ _ _ => unfinished
      invoke := fun _ _ _ => unfinished
      callNative := fun _ _ _ => unfinished
      drive := fun _ => unfinished
      setsAsLists := fun _ => unfinished
      steps := 0 }
  | depth + 1 =>
    { eval := evalExpr runtime (evaluator depth)
      bind := bindTarget runtime (evaluator depth)
      invoke := invoke runtime (evaluator depth)
      callNative := callNative runtime (evaluator depth)
      drive := driveNative runtime (evaluator depth)
      setsAsLists := setsAsLists runtime (evaluator depth)
      steps := depth + 1 }

/-- `Interpreter.run`. -/
def runModule (depth : Nat) (program : Program) : Run A X H N Unit := do
  let ended ← outcome (execAll runtime (evaluator runtime depth) program 0)
  match ended with
  | .ok () => pure ()
  | .error (.signal signal) => stray signal
  | .error (.failure failure) => raise (.failure failure)

end Knot

end Atlantide.Lang
