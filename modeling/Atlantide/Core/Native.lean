import Mathlib.Data.String.Basic
import Atlantide.Core.Markers
import Atlantide.IR.Canonical
import Atlantide.Lib.Sorting

/-! # Values as Python holds them

A property before it is lowered: containers of every kind, mapping keys of any, handles as objects.
Its canonical form is plain data: a set a list in the order of its elements' texts, a mapping under
the texts of its keys, a handle its marker. -/

namespace Atlantide

open Canonical Sorting

/-- A mapping's key. One that is not a text is given by its `repr` and its `str`, which begins as no
marker's key does. -/
inductive Key
  | str (text : String)
  | other (shown text : String) (plain : text.toList.head? ≠ some '$')
  deriving DecidableEq

/-- A field of a nested model: an identifier. -/
structure FieldName where
  text : String
  plain : text.toList.head? ≠ some '$'

inductive Native
  | null
  | bool (value : Bool)
  | int (value : Int)
  | float (repr : String)
  | str (value : String)
  | list (items : List Native)
  | tuple (items : List Native)
  /-- In the order it is iterated. -/
  | set (items : List Native)
  | dict (fields : List (Key × Native))
  /-- In the order of the names. -/
  | model (fields : List (FieldName × Native))
  /-- A node's id has no `#` in it. -/
  | ref (ref : Ref) (plain : '#' ∉ ref.nodeId.toList)
  | secretRef (ref : SecretRef)
  | stackOutputRef (stack name : String)
  | transform (op : String) (args : List Native)
  deriving Inhabited

/-- What the standard library prints. -/
structure Printing where
  repr : Native → String
  str : Native → String
  /-- `format_template`. -/
  format : String → List Native → Option String

/-! ## The order of a set's elements -/

def hexDigits (code : Nat) : List Char :=
  [code / 0x1000, code / 0x100 % 0x10, code / 0x10 % 0x10, code % 0x10].map Nat.digitChar

/-- What stands for a character within an ASCII string. -/
def asciiEscaped (c : Char) : List Char :=
  match shortEscape c with
  | some letter => [backslash, letter]
  | none =>
    if 0x20 ≤ c.toNat ∧ c.toNat ≤ 0x7e then [c]
    else if c.toNat < 0x10000 then backslash :: 'u' :: hexDigits c.toNat
    else
      let rest := c.toNat - 0x10000
      backslash :: 'u' :: hexDigits (0xd800 + rest / 0x400) ++
        backslash :: 'u' :: hexDigits (0xdc00 + rest % 0x400)

/-- `json.dumps(text)`. -/
def asciiDumps (text : String) : List Char :=
  quote :: (text.toList.flatMap asciiEscaped ++ [quote])

namespace Key

def text : Key → String
  | str text | other _ text _ => text

/-- The key a rewrite stores a value under. -/
def stored (stringify : Bool) (key : Key) : Key := if stringify then .str key.text else key

end Key

namespace Native

section

variable (printing : Printing)

mutual

/-- `json.dumps(value, sort_keys=True, default=repr)`. -/
def orderKey : Native → List Char
  | .null => ['n', 'u', 'l', 'l']
  | .bool true => ['t', 'r', 'u', 'e']
  | .bool false => ['f', 'a', 'l', 's', 'e']
  | .int value => (toString value).toList
  | .float repr => repr.toList
  | .str value => asciiDumps value
  | .list items | .tuple items =>
    '[' :: ([',', ' '].intercalate (orderKeyItems items) ++ [']'])
  | .dict fields =>
    openBrace :: ([',', ' '].intercalate ((sortBy Prod.fst (orderKeyFields fields)).map
      fun entry => asciiDumps entry.1 ++ ':' :: ' ' :: entry.2) ++ [closeBrace])
  | value => asciiDumps (printing.repr value)

def orderKeyItems : List Native → List (List Char)
  | [] => []
  | item :: items => orderKey item :: orderKeyItems items

def orderKeyFields : List (Key × Native) → List (String × List Char)
  | [] => []
  | (key, value) :: fields => (key.text, orderKey value) :: orderKeyFields fields

end

/-! ## Handles as markers -/

def refMarker (found : Ref) : Native :=
  .dict [(.str refKey, .str (found.nodeId ++ "#" ++ found.attr))]

def secretRefMarker (found : SecretRef) : Native :=
  .dict [(.str secretRefKey, .dict [(.str "name", .str found.name),
    (.str "provider", (found.provider.map .str).getD .null)])]

def stackOutputMarker (stack name : String) : Native :=
  .dict [(.str stackOutputKey, .str (stack ++ ":" ++ name))]

def transformMarker (op : String) (args : List Native) : Native :=
  .dict [(.str transformKey, .dict [(.str "op", .str op), (.str "args", .list args)])]

/-- Whether two keys of a mapping have one text. -/
def collides (fields : List (Key × Native)) : Bool :=
  (fields.map Prod.fst).any fun key =>
    (fields.map Prod.fst).any fun other => key.text = other.text && key ≠ other

mutual

/-- Rebuilds a value with its handles as markers; not if two keys of a mapping become one. -/
def handlesToMarkers (stringify : Bool) : Native → Option Native
  | .list items | .tuple items => (markerItems stringify items).map .list
  | .set items => (markerItems stringify items).map fun found =>
      .list (sortBy (orderKey printing) found)
  | .dict fields =>
    if stringify && collides fields then none
    else (markerFields stringify fields).map .dict
  | .model fields => (markerNames stringify fields).map .dict
  | .ref found _ => some (refMarker found)
  | .secretRef found => some (secretRefMarker found)
  | .stackOutputRef stack name => some (stackOutputMarker stack name)
  -- The operands keep their keys.
  | .transform op args => (markerItems false args).map (transformMarker op)
  | value => some value

def markerItems (stringify : Bool) : List Native → Option (List Native)
  | [] => some []
  | item :: items => do
    let image ← handlesToMarkers stringify item
    return image :: (← markerItems stringify items)

def markerFields (stringify : Bool) : List (Key × Native) → Option (List (Key × Native))
  | [] => some []
  | (key, value) :: fields => do
    let image ← handlesToMarkers stringify value
    return (key.stored stringify, image) :: (← markerFields stringify fields)

def markerNames (stringify : Bool) : List (FieldName × Native) → Option (List (Key × Native))
  | [] => some []
  | (name, value) :: fields => do
    let image ← handlesToMarkers stringify value
    return (.str name.text, image) :: (← markerNames stringify fields)

end

def canonicalize (value : Native) : Option Native := handlesToMarkers printing true value

end

/-! ## Induction -/

/-- What stands in a value. -/
def children : Native → List Native
  | .list items | .tuple items | .set items | .transform _ items => items
  | .dict fields => fields.map Prod.snd
  | .model fields => fields.map Prod.snd
  | _ => []

mutual

theorem ind {motive : Native → Prop}
    (step : ∀ value, (∀ child ∈ value.children, motive child) → motive value) :
    ∀ value, motive value
  | .list items | .tuple items | .set items => step _ (indItems step items)
  | .transform _ items => step _ (indItems step items)
  | .dict fields => step _ (indFields step fields)
  | .model fields => step _ (indNames step fields)
  | .null | .bool _ | .int _ | .float _ | .str _ => step _ (List.forall_mem_nil _)
  | .ref _ _ | .secretRef _ | .stackOutputRef _ _ => step _ (List.forall_mem_nil _)

theorem indItems {motive : Native → Prop}
    (step : ∀ value, (∀ child ∈ value.children, motive child) → motive value) :
    ∀ items : List Native, ∀ item ∈ items, motive item
  | [] => List.forall_mem_nil _
  | item :: items => List.forall_mem_cons.mpr ⟨ind step item, indItems step items⟩

theorem indFields {motive : Native → Prop}
    (step : ∀ value, (∀ child ∈ value.children, motive child) → motive value) :
    ∀ fields : List (Key × Native), ∀ value ∈ fields.map Prod.snd, motive value
  | [] => List.forall_mem_nil _
  | (_, value) :: fields => List.forall_mem_cons.mpr ⟨ind step value, indFields step fields⟩

theorem indNames {motive : Native → Prop}
    (step : ∀ value, (∀ child ∈ value.children, motive child) → motive value) :
    ∀ fields : List (FieldName × Native), ∀ value ∈ fields.map Prod.snd, motive value
  | [] => List.forall_mem_nil _
  | (_, value) :: fields => List.forall_mem_cons.mpr ⟨ind step value, indNames step fields⟩

end

/-! ## Item by item -/

section

variable {printing : Printing} {stringify : Bool}

theorem markerItems_eq (items : List Native) :
    markerItems printing stringify items = items.mapM (handlesToMarkers printing stringify) := by
  induction items with
  | nil => rfl
  | cons item items ih =>
    rw [markerItems, ih, List.mapM_cons]

theorem markerFields_eq (fields : List (Key × Native)) :
    markerFields printing stringify fields = fields.mapM fun entry =>
      (handlesToMarkers printing stringify entry.2).map (entry.1.stored stringify, ·) := by
  induction fields with
  | nil => rfl
  | cons entry fields ih =>
    rw [markerFields, ih, List.mapM_cons]
    cases handlesToMarkers printing stringify entry.2 <;> rfl

theorem markerNames_eq (fields : List (FieldName × Native)) :
    markerNames printing stringify fields = fields.mapM fun entry =>
      (handlesToMarkers printing stringify entry.2).map (.str entry.1.text, ·) := by
  induction fields with
  | nil => rfl
  | cons entry fields ih =>
    rw [markerNames, ih, List.mapM_cons]
    cases handlesToMarkers printing stringify entry.2 <;> rfl

end

end Native

end Atlantide
