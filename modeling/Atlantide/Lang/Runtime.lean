import Atlantide.Lang.Ast
import Atlantide.Lib.Binary
import Atlantide.Lib.Metered

/-! # What the interpreter runs on

Config values are Python objects, the functions config defines and the wrappers handed to natives
that call back. Python itself, its objects and the natives of the language surface are a parameter:
a heap the interpreter never looks into except to price a value, and natives that run step by step
and may call back into the interpreter. Functions and scopes are the interpreter's own, so they live
in its state and are named by their place there. -/

namespace Atlantide.Lang

/-- `closure` names a user function, `callback` is a `_NativeCallback`. -/
inductive Value (A : Type) : Type where
  | obj (object : A)
  | closure (index : Nat)
  | callback (func : Value A)
  deriving DecidableEq

/-- Why the interpreter itself refuses to go on: its own `LanguageError`s. -/
inductive Refusal where
  | undefinedName (name : String)
  | cannotExecute (kind : NodeKind)
  | cannotEvaluate (kind : NodeKind)
  | cannotAssign (kind : NodeKind)
  | cannotRead (kind : NodeKind)
  | missingArgument (function param : String)
  | surplusArguments (function : String) (params given : Nat)
  | unexpectedKeywords (function : String) (names : List String)
  | unsupportedParams
  | tooManyToUnpack (expected : Nat)
  | notEnoughToUnpack (expected got : Nat)
  | notEnoughAtLeast (expected got : Nat)
  | multipleStarred
  | dictUnpacking
  | keywordUnpacking
  | attributeRefused (attr : String)
  | quadraticSum
  | strayBreak
  | strayContinue
  | strayReturn
  | reboundSchema (name : String)
  | importBindsModule (name : String)
  | importNotAllowed (module : Option String)
  | privateImport (name : String)
  | annotationUnsupporteds
  | setPopMisuse
  | setPopEmpty
  deriving DecidableEq

/-- The errors config can end with: the fuel, the interpreter's refusals, and whatever a native
raises. -/
inductive Failure (X : Type) where
  | exhausted
  | refused (refusal : Refusal)
  | native (exception : X)

/-- `_Break`, `_Continue` and `_Return`. -/
inductive Signal (A : Type) where
  | brk
  | cont
  | ret (value : Value A)

/-- What unwinds the interpreter. Natives only ever see a failure. -/
inductive Raised (A X : Type) where
  | failure (failure : Failure X)
  | signal (signal : Signal A)

/-- `Signal.stray`. -/
def Signal.stray {A : Type} : Signal A → Refusal
  | brk => .strayBreak
  | cont => .strayContinue
  | ret _ => .strayReturn

inductive Sequence where
  | list | tuple | set | frozenset | keysView | valuesView | itemsView
  deriving DecidableEq

/-- What `len` answers: a `TypeError`, a number, or an `OverflowError`. -/
inductive Length where
  | unsized
  | counted (count : Nat)
  | uncountable
  deriving DecidableEq

/-- What the prices look at in a value. -/
inductive Shape (A : Type) where
  | dict (keys values : List (Value A))
  | seq (kind : Sequence) (items : List (Value A))
  | str (text : String)
  | bytes (text : List UInt8)
  | int (value : Int)
  | slice (lower upper step : Option Int)
  | badSlice
  | leaf (len : Length)

/-- The builtins told apart by identity. -/
inductive Builtin where
  | len | bool | isinstance | str | map | filter | sorted | min | max | sum | setPop
  deriving DecidableEq

/-- What is looked up on a callable before it is called: its identity if it is one of the builtins
above, `__name__`, `__self__`, whether `__objclass__` is `str`, `bytes` or `int`, and whether it is a
model class. -/
structure Callee (A : Type) where
  builtin : Option Builtin := none
  name : Option String := none
  receiver : Option (Value A) := none
  unboundMethod : Bool := false
  model : Bool := false

/-- The operations of Python the interpreter applies itself. -/
inductive Prim where
  | binop (op : Operator)
  | printf
  | unary (op : UnaryOperator)
  | compare (op : CmpOperator)
  | getattr (name : String)
  | getItem
  | setItem
  | slice
  | list
  | tuple
  | newSet
  | setAdd
  | setRemove
  | newDict
  | iter
  | next
  | sortedSet
  | render (conversion : Conversion)
  | format
  | joinStr
  | enter
  | importModule (module : String)
  | bindImport (module name : String)
  | fieldDefault (owner field annotation : String)
  | newSchema (name : String) (fields : List (String × String)) (defaulted : List String)
  deriving DecidableEq

/-- A positive `float`, unless it is too large or too small to be one. -/
abbrev Double := Binary.Normal 52

/-- One step of a native: it ends, goes on by itself, or calls a callable it was given and goes on
with how that call ended. -/
inductive NativeStep (A X H N : Type) where
  | done (result : Except (Failure X) (Value A)) (heap : H)
  | silent (next : N) (heap : H)
  | invoke (func : Value A) (args : List (Value A)) (kwargs : List (String × Value A)) (heap : H)
      (resume : Except (Failure X) (Value A) → N)

/-- Python, the natives of the surface, and the import policy. `A` are objects, `X` exceptions,
`H` heaps and `N` natives under way. `item` reads what `next` answered: an item, or the end. `log2` is
the logarithm of a whole number above one, and `overflow` the exception of a float that is too large. -/
structure Runtime (A X H N : Type) where
  literal : Literal → Value A
  shape : H → Value A → Shape A
  callee : H → Value A → Callee A
  truth : H → Value A → Except (Failure X) Bool
  item : Value A → Option (Value A)
  isNone : Value A → Bool
  attributeAllowed : H → Value A → String → Bool
  unreachable : H → Value A → Bool
  envSchema : Value A → Bool
  prim : Prim → List (Value A) → N
  exit : Value A → Option (Failure X) → N
  call : Value A → List (Value A) → List (String × Value A) → N
  step : N → H → NativeStep A X H N
  importAllowed : Option String → Bool
  attributeRejected : String → Bool
  log2 : Nat → Double
  overflow : X
  printfWidths : String → List Int → Nat

/-- A scope's variables, the latest assignment of a name first. -/
structure Scope (A : Type) where
  parent : Option Nat := none
  vars : List (String × Value A) := []

def Scope.assign {A : Type} (scope : Scope A) (name : String) (value : Value A) : Scope A :=
  { scope with vars := (name, value) :: scope.vars }

/-- A user `def` or `lambda`. -/
structure Closure (A : Type) where
  params : List String
  defaults : List (Value A)
  body : List Stmt ⊕ Expr
  scope : Nat
  name : String

/-- What happens in a run that a statement about it may ask for: a native is handed a failure of what
it called, a manager is about to be entered, is left because of a failure, or suppresses a failure on
the way out of a loop or a function, a node has no handler, a signal strays. -/
inductive Event (A X N : Type) where
  | resumed (native : Except (Failure X) (Value A) → N) (failure : Failure X)
  | entered (manager : Value A)
  | unwound (manager : Value A) (failure : Failure X)
  | suppressed (manager : Value A)
  | unhandled (kind : NodeKind)
  | strayed (signal : Signal A)

/-- The interpreter's state. `visited` and `events` are kept for statements about runs: the
statements executed so far and what happened, the latest first. -/
structure State (A X H N : Type) where
  heap : H
  scopes : List (Scope A)
  closures : List (Closure A) := []
  spent : Nat := 0
  visited : List Stmt := []
  events : List (Event A X N) := []

/-- A piece of evaluation. -/
abbrev Run (A X H N α : Type) := Metered (State A X H N) (Raised A X) α

variable {A X H N : Type}

def refuse {α : Type} (refusal : Refusal) : Run A X H N α :=
  Metered.raise (.failure (.refused refusal))

namespace State

/-- `Scope.get`: resolves a name up the parent chain. A parent is older than its children, so the
chain is no longer than the table. -/
def getFrom (scopes : List (Scope A)) (name : String) : Nat → Nat → Option (Value A)
  | 0, _ => none
  | depth + 1, scope =>
    match scopes[scope]? with
    | none => none
    | some found =>
      match found.vars.lookup name with
      | some value => some value
      | none => found.parent.bind (getFrom scopes name depth)

def get (state : State A X H N) (scope : Nat) (name : String) : Option (Value A) :=
  getFrom state.scopes name state.scopes.length scope

def assign (state : State A X H N) (scope : Nat) (name : String) (value : Value A) :
    State A X H N :=
  { state with scopes := state.scopes.modify scope (·.assign name value) }

def setHeap (state : State A X H N) (heap : H) : State A X H N := { state with heap }

def addScope (state : State A X H N) (scope : Scope A) : State A X H N :=
  { state with scopes := state.scopes ++ [scope] }

def addClosure (state : State A X H N) (closure : Closure A) : State A X H N :=
  { state with closures := state.closures ++ [closure] }

def visit (state : State A X H N) (stmt : Stmt) : State A X H N :=
  { state with visited := stmt :: state.visited }

def note (state : State A X H N) (event : Event A X N) : State A X H N :=
  { state with events := event :: state.events }

end State

end Atlantide.Lang
