import Atlantide.Core.Value

/-! # Handles as markers

A property holds a reference to an upstream output, a secret or another stack's output as a
single-key object, its marker. `Ref` markers are matched strictly where they are resolved and
loosely where the plan asks which upstreams a field depends on. -/

namespace Atlantide

structure Ref where
  nodeId : String
  attr : String
  deriving DecidableEq

structure SecretRef where
  name : String
  provider : Option String
  deriving DecidableEq

def refKey : String := "$ref"
def transformKey : String := "$transform"
def secretRefKey : String := "$secret_ref"
def stackOutputKey : String := "$stack_output"

/-- `text.partition(sep)`: what is before the first `sep`, and what is after it if there is one. -/
def partition (sep : Char) (text : String) : String × Option String :=
  let before := text.toList.takeWhile (· ≠ sep)
  match text.toList.dropWhile (· ≠ sep) with
  | [] => (String.ofList before, none)
  | _ :: after => (String.ofList before, some (String.ofList after))

namespace Value

/-- What a number or a boolean is compared by: a boolean is the integer it converts to. -/
def number : Value → Option String
  | bool value => some (if value then "1" else "0")
  | int value => some (toString value)
  | float repr => some (if repr.endsWith ".0" then (repr.dropEnd 2).toString else repr)
  | _ => none

mutual

/-- Python's `==` on JSON values. -/
def same : Value → Value → Bool
  | null, null => true
  | str a, str b => a = b
  | list a, list b => sameItems a b
  | dict a, dict b => sameFields a b
  | a, b => (number a).isSome && number a = number b

def sameItems : List Value → List Value → Bool
  | [], [] => true
  | a :: as, b :: bs => same a b && sameItems as bs
  | _, _ => false

def sameFields : List (String × Value) → List (String × Value) → Bool
  | [], [] => true
  | (k, a) :: as, (l, b) :: bs => k = l && same a b && sameFields as bs
  | _, _ => false

end

/-- `value.get(key)` of an object. -/
def field (key : String) : Value → Option Value
  | dict fields => fields.lookup key
  | _ => none

/-- The payload of a strict single-key marker. -/
def singleKeyMarker (key : String) : Value → Option Value
  | dict [(name, payload)] => if name = key then some payload else none
  | _ => none

mutual

/-- Whether `p` holds of the value or of anything nested in it. -/
def any (p : Value → Bool) : Value → Bool
  | list items => p (list items) || anyItem p items
  | dict fields => p (dict fields) || anyField p fields
  | value => p value

def anyItem (p : Value → Bool) : List Value → Bool
  | [] => false
  | item :: items => item.any p || anyItem p items

def anyField (p : Value → Bool) : List (String × Value) → Bool
  | [] => false
  | (_, value) :: fields => value.any p || anyField p fields

end

mutual

/-- Everything `p` holds of in the value; what is collected is not searched further. -/
def collect (p : Value → Bool) : Value → List Value
  | list items => if p (list items) then [list items] else collectItems p items
  | dict fields => if p (dict fields) then [dict fields] else collectFields p fields
  | value => if p value then [value] else []

def collectItems (p : Value → Bool) : List Value → List Value
  | [] => []
  | item :: items => item.collect p ++ collectItems p items

def collectFields (p : Value → Bool) : List (String × Value) → List Value
  | [] => []
  | (_, value) :: fields => value.collect p ++ collectFields p fields

end

/-- The `Ref` a strict `{"$ref": "node_id#attr"}` marker stands for. -/
def refFromMarker (value : Value) : Option Ref :=
  match value.singleKeyMarker refKey with
  | some (str target) =>
    match partition '#' target with
    | (nodeId, some attr) => some ⟨nodeId, attr⟩
    | (_, none) => none
  | _ => none

def isRefMarker (value : Value) : Bool := value.refFromMarker.isSome

def isTransformMarker (value : Value) : Bool :=
  match value.singleKeyMarker transformKey with
  | some body => (body.field "op").isSome && (body.field "args").isSome
  | none => false

def secretRefFromMarker (value : Value) : Option SecretRef :=
  match value.singleKeyMarker secretRefKey with
  | some inner =>
    match inner.field "name", inner.field "provider" with
    | some (str name), some (str provider) => some ⟨name, some provider⟩
    | some (str name), _ => some ⟨name, none⟩
    | _, _ => none
  | none => none

/-- The key of the output a strict `{"$stack_output": "stack:name"}` marker stands for. -/
def stackOutputFromMarker (value : Value) : Option String :=
  match value.singleKeyMarker stackOutputKey with
  | some (str key) => some key
  | _ => none

/-- Whether any object in the value has a `$ref` key. -/
def hasRefKey (value : Value) : Bool := value.any fun v => (v.field refKey).isSome

/-- What a `$ref` key of the object points at, matched loosely. -/
def refTarget (value : Value) : Option String :=
  match value.field refKey with
  | some (str target) => some (partition '#' target).1
  | _ => none

def collectRefTargets (value : Value) : List String :=
  (value.collect fun v => v.refTarget.isSome).filterMap refTarget

def needsResolution (value : Value) : Bool :=
  value.any fun v => v.isRefMarker || v.isTransformMarker

/-! ## Induction and the walkers -/

def children : Value → List Value
  | list items => items
  | dict fields => fields.map Prod.snd
  | _ => []

mutual

theorem ind {motive : Value → Prop}
    (step : ∀ value, (∀ child ∈ value.children, motive child) → motive value) :
    ∀ value, motive value
  | list items => step _ (indItems step items)
  | dict fields => step _ (indFields step fields)
  | null | bool _ | int _ | float _ | str _ => step _ (List.forall_mem_nil _)

theorem indItems {motive : Value → Prop}
    (step : ∀ value, (∀ child ∈ value.children, motive child) → motive value) :
    ∀ items : List Value, ∀ item ∈ items, motive item
  | [] => List.forall_mem_nil _
  | item :: items => List.forall_mem_cons.mpr ⟨ind step item, indItems step items⟩

theorem indFields {motive : Value → Prop}
    (step : ∀ value, (∀ child ∈ value.children, motive child) → motive value) :
    ∀ fields : List (String × Value), ∀ value ∈ fields.map Prod.snd, motive value
  | [] => List.forall_mem_nil _
  | (_, value) :: fields => List.forall_mem_cons.mpr ⟨ind step value, indFields step fields⟩

end

theorem anyItem_eq (p : Value → Bool) (items : List Value) :
    anyItem p items = items.any (·.any p) := by
  induction items with
  | nil => rfl
  | cons item items ih => rw [anyItem, ih, List.any_cons]

theorem anyField_eq (p : Value → Bool) (fields : List (String × Value)) :
    anyField p fields = (fields.map Prod.snd).any (·.any p) := by
  induction fields with
  | nil => rfl
  | cons entry fields ih => rw [anyField, ih, List.map_cons, List.any_cons]

theorem any_eq (p : Value → Bool) (value : Value) :
    value.any p = (p value || value.children.any (·.any p)) := by
  cases value <;> simp [any, children, anyItem_eq, anyField_eq]

theorem collectItems_eq (p : Value → Bool) (items : List Value) :
    collectItems p items = items.flatMap (·.collect p) := by
  induction items with
  | nil => rfl
  | cons item items ih => rw [collectItems, ih, List.flatMap_cons]

theorem collectFields_eq (p : Value → Bool) (fields : List (String × Value)) :
    collectFields p fields = (fields.map Prod.snd).flatMap (·.collect p) := by
  induction fields with
  | nil => rfl
  | cons entry fields ih => rw [collectFields, ih, List.map_cons, List.flatMap_cons]

theorem collect_eq (p : Value → Bool) (value : Value) :
    value.collect p = if p value then [value] else value.children.flatMap (·.collect p) := by
  cases value <;> simp [collect, children, collectItems_eq, collectFields_eq]

/-- What a search finds satisfies the predicate. -/
theorem of_mem_collect {p : Value → Bool} (value : Value) :
    ∀ found ∈ value.collect p, p found = true := by
  induction value using ind with
  | step value ih =>
    intro found hfound
    rw [collect_eq] at hfound
    split at hfound
    next hp => rwa [List.mem_singleton.mp hfound]
    next =>
      obtain ⟨child, hchild, hmem⟩ := List.mem_flatMap.mp hfound
      exact ih child hchild found hmem

/-- A search is empty where the predicate holds nowhere. -/
theorem collect_eq_nil {p : Value → Bool} (value : Value) :
    value.collect p = [] ↔ value.any p = false := by
  induction value using ind with
  | step value ih =>
    rw [collect_eq, any_eq]
    cases hp : p value
    · simp only [Bool.false_eq_true, if_false, List.flatMap_eq_nil_iff, Bool.false_or,
        List.any_eq_false, Bool.not_eq_true]
      exact forall₂_congr ih
    · simp

end Value

end Atlantide
