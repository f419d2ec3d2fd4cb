import Atlantide.Core.Markers

/-! # Live handles

Config holds a reference as an object of its own, at any depth of a property and inside the operands
of a deferred transform. Lowering writes every such handle as its marker. -/

namespace Atlantide

/-- A property as config holds it; a tuple is a list, and fields stand in canonical order. -/
inductive Input
  | null
  | bool (value : Bool)
  | int (value : Int)
  | float (repr : String)
  | str (value : String)
  | list (items : List Input)
  | dict (fields : List (String × Input))
  | model (fields : List (String × Input))
  | ref (ref : Ref)
  | secretRef (ref : SecretRef)
  | stackOutputRef (stack name : String)
  | transform (op : String) (args : List Input)
  /-- A text that the printed form of a handle is part of. -/
  | rendered (text : String)
  deriving Inhabited

namespace Input

mutual

/-- Plain data. -/
def ofValue : Value → Input
  | .null => null
  | .bool value => bool value
  | .int value => int value
  | .float repr => float repr
  | .str value => str value
  | .list items => list (ofItems items)
  | .dict fields => dict (ofFields fields)

def ofItems : List Value → List Input
  | [] => []
  | item :: items => ofValue item :: ofItems items

def ofFields : List (String × Value) → List (String × Input)
  | [] => []
  | (name, value) :: fields => (name, ofValue value) :: ofFields fields

end

/-- What the tree walkers descend into. -/
def children : Input → List Input
  | list items => items
  | dict fields | model fields => fields.map Prod.snd
  | transform _ args => args
  | _ => []

mutual

/-- Whether `p` holds of the value or of anything nested in it. -/
def any (p : Input → Bool) : Input → Bool
  | list items => p (list items) || anyItem p items
  | dict fields => p (dict fields) || anyField p fields
  | model fields => p (model fields) || anyField p fields
  | transform op args => p (transform op args) || anyItem p args
  | value => p value

def anyItem (p : Input → Bool) : List Input → Bool
  | [] => false
  | item :: items => item.any p || anyItem p items

def anyField (p : Input → Bool) : List (String × Input) → Bool
  | [] => false
  | (_, value) :: fields => value.any p || anyField p fields

end

mutual

/-- Everything `p` holds of in the value; what is collected is not searched further. -/
def collect (p : Input → Bool) : Input → List Input
  | list items => if p (list items) then [list items] else collectItems p items
  | dict fields => if p (dict fields) then [dict fields] else collectFields p fields
  | model fields => if p (model fields) then [model fields] else collectFields p fields
  | transform op args => if p (transform op args) then [transform op args] else collectItems p args
  | value => if p value then [value] else []

def collectItems (p : Input → Bool) : List Input → List Input
  | [] => []
  | item :: items => item.collect p ++ collectItems p items

def collectFields (p : Input → Bool) : List (String × Input) → List Input
  | [] => []
  | (_, value) :: fields => value.collect p ++ collectFields p fields

end

/-! ## The kinds of handles -/

def isRef : Input → Bool
  | ref _ => true
  | _ => false

def isSecretRef : Input → Bool
  | secretRef _ => true
  | _ => false

def isStackOutputRef : Input → Bool
  | stackOutputRef _ _ => true
  | _ => false

def isTransform : Input → Bool
  | transform _ _ => true
  | _ => false

def isHandle (value : Input) : Bool :=
  value.isRef || value.isSecretRef || value.isStackOutputRef || value.isTransform

def isRendered : Input → Bool
  | rendered _ => true
  | _ => false

def containsHandle (value : Input) : Bool := value.any isHandle

/-- Every live `Ref` in the value. -/
def collectRefs (value : Input) : List Ref :=
  (value.collect isRef).filterMap fun
    | ref found => some found
    | _ => none

/-! ## Markers in a value -/

/-- The payload of a strict single-key marker. -/
def singleKeyMarker (key : String) : Input → Option Input
  | dict [(name, payload)] => if name = key then some payload else none
  | _ => none

def field (key : String) : Input → Option Input
  | dict fields => fields.lookup key
  | _ => none

def refFromMarker (value : Input) : Option Ref :=
  match value.singleKeyMarker refKey with
  | some (str target) =>
    match partition '#' target with
    | (nodeId, some attr) => some ⟨nodeId, attr⟩
    | (_, none) => none
  | _ => none

def isRefMarker (value : Input) : Bool := value.refFromMarker.isSome

def isTransformMarker (value : Input) : Bool :=
  match value.singleKeyMarker transformKey with
  | some body => (body.field "op").isSome && (body.field "args").isSome
  | none => false

def isSecretRefMarker (value : Input) : Bool :=
  match value.singleKeyMarker secretRefKey with
  | some (dict _) => true
  | _ => false

def isStackOutputMarker (value : Input) : Bool :=
  match value.singleKeyMarker stackOutputKey with
  | some (str _) => true
  | _ => false

def isMarker (value : Input) : Bool :=
  value.isRefMarker || value.isTransformMarker || value.isSecretRefMarker || value.isStackOutputMarker

/-- Whether anything in the value is for resolution to replace. -/
def needsResolution (value : Input) : Bool :=
  value.any fun v => v.isRef || v.isRefMarker || v.isTransformMarker

/-! ## Lowering -/

mutual

/-- Every handle as its marker. -/
def canonicalize : Input → Value
  | null => .null
  | bool value => .bool value
  | int value => .int value
  | float repr => .float repr
  | str value | rendered value => .str value
  | list items => .list (canonicalizeItems items)
  | dict fields | model fields => .dict (canonicalizeFields fields)
  | ref found => .dict [(refKey, .str (found.nodeId ++ "#" ++ found.attr))]
  | secretRef found =>
    .dict [(secretRefKey, .dict [("name", .str found.name),
      ("provider", (found.provider.map Value.str).getD .null)])]
  | stackOutputRef stack name => .dict [(stackOutputKey, .str (stack ++ ":" ++ name))]
  | transform op args =>
    .dict [(transformKey, .dict [("args", .list (canonicalizeItems args)), ("op", .str op)])]

def canonicalizeItems : List Input → List Value
  | [] => []
  | item :: items => canonicalize item :: canonicalizeItems items

def canonicalizeFields : List (String × Input) → List (String × Value)
  | [] => []
  | (name, value) :: fields => (name, canonicalize value) :: canonicalizeFields fields

end

/-! ## Induction and the walkers -/

mutual

theorem ind {motive : Input → Prop}
    (step : ∀ value, (∀ child ∈ value.children, motive child) → motive value) :
    ∀ value, motive value
  | list items => step _ (indItems step items)
  | dict fields => step _ (indFields step fields)
  | model fields => step _ (indFields step fields)
  | transform _ args => step _ (indItems step args)
  | null | bool _ | int _ | float _ | str _ | ref _ | secretRef _ | stackOutputRef _ _
  | rendered _ => step _ (List.forall_mem_nil _)

theorem indItems {motive : Input → Prop}
    (step : ∀ value, (∀ child ∈ value.children, motive child) → motive value) :
    ∀ items : List Input, ∀ item ∈ items, motive item
  | [] => List.forall_mem_nil _
  | item :: items => List.forall_mem_cons.mpr ⟨ind step item, indItems step items⟩

theorem indFields {motive : Input → Prop}
    (step : ∀ value, (∀ child ∈ value.children, motive child) → motive value) :
    ∀ fields : List (String × Input), ∀ value ∈ fields.map Prod.snd, motive value
  | [] => List.forall_mem_nil _
  | (_, value) :: fields => List.forall_mem_cons.mpr ⟨ind step value, indFields step fields⟩

end

theorem anyItem_eq (p : Input → Bool) (items : List Input) :
    anyItem p items = items.any (·.any p) := by
  induction items with
  | nil => rfl
  | cons item items ih => rw [anyItem, ih, List.any_cons]

theorem anyField_eq (p : Input → Bool) (fields : List (String × Input)) :
    anyField p fields = (fields.map Prod.snd).any (·.any p) := by
  induction fields with
  | nil => rfl
  | cons entry fields ih => rw [anyField, ih, List.map_cons, List.any_cons]

/-- A walk looks at the value, then at its children. -/
theorem any_eq (p : Input → Bool) (value : Input) :
    value.any p = (p value || value.children.any (·.any p)) := by
  cases value <;> simp [any, children, anyItem_eq, anyField_eq]

theorem collectItems_eq (p : Input → Bool) (items : List Input) :
    collectItems p items = items.flatMap (·.collect p) := by
  induction items with
  | nil => rfl
  | cons item items ih => rw [collectItems, ih, List.flatMap_cons]

theorem collectFields_eq (p : Input → Bool) (fields : List (String × Input)) :
    collectFields p fields = (fields.map Prod.snd).flatMap (·.collect p) := by
  induction fields with
  | nil => rfl
  | cons entry fields ih => rw [collectFields, ih, List.map_cons, List.flatMap_cons]

theorem collect_eq (p : Input → Bool) (value : Input) :
    value.collect p = if p value then [value] else value.children.flatMap (·.collect p) := by
  cases value <;> simp [collect, children, collectItems_eq, collectFields_eq]

/-- A search is empty where the predicate holds nowhere. -/
theorem collect_eq_nil {p : Input → Bool} (value : Input) :
    value.collect p = [] ↔ value.any p = false := by
  induction value using ind with
  | step value ih =>
    rw [collect_eq, any_eq]
    cases hp : p value
    · simp only [Bool.false_eq_true, if_false, List.flatMap_eq_nil_iff, Bool.false_or,
        List.any_eq_false, Bool.not_eq_true]
      exact forall₂_congr ih
    · simp

/-! ## Plain data among the inputs -/

theorem ofItems_eq (items : List Value) : ofItems items = items.map ofValue := by
  induction items with
  | nil => rfl
  | cons item items ih => rw [ofItems, ih, List.map_cons]

theorem ofFields_eq (fields : List (String × Value)) :
    ofFields fields = fields.map fun entry => (entry.1, ofValue entry.2) := by
  induction fields with
  | nil => rfl
  | cons entry fields ih => rw [ofFields, ih, List.map_cons]

theorem canonicalizeItems_eq (items : List Input) :
    canonicalizeItems items = items.map canonicalize := by
  induction items with
  | nil => rfl
  | cons item items ih => rw [canonicalizeItems, ih, List.map_cons]

theorem canonicalizeFields_eq (fields : List (String × Input)) :
    canonicalizeFields fields = fields.map fun entry => (entry.1, canonicalize entry.2) := by
  induction fields with
  | nil => rfl
  | cons entry fields ih => rw [canonicalizeFields, ih, List.map_cons]

theorem children_ofValue (value : Value) :
    (ofValue value).children = value.children.map ofValue := by
  cases value <;> simp [ofValue, children, Value.children, ofItems_eq, ofFields_eq]

/-- What holds nowhere but where its counterpart does holds somewhere in plain data exactly if
its counterpart does. -/
theorem any_ofValue {p : Input → Bool} {q : Value → Bool}
    (hagree : ∀ value, p (ofValue value) = q value) (value : Value) :
    (ofValue value).any p = value.any q := by
  induction value using Value.ind with
  | step value ih =>
    rw [any_eq, Value.any_eq, hagree, children_ofValue, List.any_map]
    congr 1
    rw [Bool.eq_iff_iff, List.any_eq_true, List.any_eq_true]
    exact exists_congr fun child => and_congr_right fun hchild => by rw [Function.comp, ih child hchild]

@[simp] theorem canonicalize_ofValue (value : Value) : canonicalize (ofValue value) = value := by
  induction value using Value.ind with
  | step value ih =>
    cases value with
    | list items =>
      rw [ofValue, canonicalize, canonicalizeItems_eq, ofItems_eq, List.map_map]
      have hitems : items.map (canonicalize ∘ ofValue) = items.map id :=
        List.map_congr_left fun item hitem => ih item hitem
      rw [hitems, List.map_id]
    | dict fields =>
      rw [ofValue, canonicalize, canonicalizeFields_eq, ofFields_eq, List.map_map]
      have hfields : fields.map ((fun entry => (entry.1, canonicalize entry.2)) ∘
          fun entry => (entry.1, ofValue entry.2)) = fields.map id :=
        List.map_congr_left fun entry hentry =>
          Prod.ext rfl (ih entry.2 (List.mem_map_of_mem hentry))
      rw [hfields, List.map_id]
    | _ => rfl

end Input

end Atlantide
