import Atlantide.Core.Markers

/-! # Config values as they are written

A value before it is lowered: its containers are told apart, and handles stand in it as objects. A
rewrite lowers every container it descends into: a set becomes a list in a fixed order, a nested
model a mapping. -/

namespace Atlantide

inductive SeqKind
  | list
  | tuple
  | set
  deriving DecidableEq

/-- A model's fields stand in the order of their names. -/
inductive TableKind
  | dict
  | model
  deriving DecidableEq

inductive Tree
  | null
  | bool (value : Bool)
  | int (value : Int)
  | float (repr : String)
  | str (value : String)
  | seq (kind : SeqKind) (items : List Tree)
  | table (kind : TableKind) (fields : List (String × Tree))
  | ref (ref : Ref)
  | secretRef (ref : SecretRef)
  | stackOutputRef (stack name : String)
  | transform (op : String) (args : List Tree)
  deriving Inhabited

namespace Tree

def children : Tree → List Tree
  | seq _ items | transform _ items => items
  | table _ fields => fields.map Prod.snd
  | _ => []

mutual

/-- What stands in a value without anything in it. -/
def leaves : Tree → List Tree
  | seq _ items | transform _ items => leavesItems items
  | table _ fields => leavesFields fields
  | value => [value]

def leavesItems : List Tree → List Tree
  | [] => []
  | item :: items => leaves item ++ leavesItems items

def leavesFields : List (String × Tree) → List Tree
  | [] => []
  | (_, value) :: fields => leaves value ++ leavesFields fields

end

def stackKey? : Tree → Option String
  | stackOutputRef stack name => some (stack ++ ":" ++ name)
  | _ => none

def ref? : Tree → Option Ref
  | ref found => some found
  | _ => none

/-- The keys of the stack outputs a value refers to. -/
def stackKeys (value : Tree) : List String := value.leaves.filterMap stackKey?

/-- The upstream outputs a value refers to. -/
def refs (value : Tree) : List Ref := value.leaves.filterMap ref?

mutual

theorem ind {motive : Tree → Prop}
    (step : ∀ value, (∀ child ∈ value.children, motive child) → motive value) :
    ∀ value, motive value
  | seq _ items => step _ (indItems step items)
  | transform _ items => step _ (indItems step items)
  | table _ fields => step _ (indFields step fields)
  | null | bool _ | int _ | float _ | str _ | ref _ | secretRef _ | stackOutputRef _ _ =>
    step _ (List.forall_mem_nil _)

theorem indItems {motive : Tree → Prop}
    (step : ∀ value, (∀ child ∈ value.children, motive child) → motive value) :
    ∀ items : List Tree, ∀ item ∈ items, motive item
  | [] => List.forall_mem_nil _
  | item :: items => List.forall_mem_cons.mpr ⟨ind step item, indItems step items⟩

theorem indFields {motive : Tree → Prop}
    (step : ∀ value, (∀ child ∈ value.children, motive child) → motive value) :
    ∀ fields : List (String × Tree), ∀ value ∈ fields.map Prod.snd, motive value
  | [] => List.forall_mem_nil _
  | (_, value) :: fields => List.forall_mem_cons.mpr ⟨ind step value, indFields step fields⟩

end

theorem leavesItems_eq (items : List Tree) : leavesItems items = items.flatMap leaves := by
  induction items with
  | nil => rfl
  | cons item items ih => rw [leavesItems, ih, List.flatMap_cons]

theorem leavesFields_eq (fields : List (String × Tree)) :
    leavesFields fields = (fields.map Prod.snd).flatMap leaves := by
  induction fields with
  | nil => rfl
  | cons entry fields ih => rw [leavesFields, ih, List.map_cons, List.flatMap_cons]

/-- Whether a value has a place for others in it. -/
def isContainer : Tree → Bool
  | seq _ _ | transform _ _ | table _ _ => true
  | _ => false

theorem leaves_of_container {value : Tree} (hcontainer : value.isContainer) :
    value.leaves = value.children.flatMap leaves := by
  cases value with
  | seq kind items | transform op items => rw [leaves, children, leavesItems_eq]
  | table kind fields => rw [leaves, children, leavesFields_eq]
  | _ => cases hcontainer

theorem leaves_of_leaf {value : Tree} (hleaf : value.isContainer = false) :
    value.leaves = [value] := by
  cases value with
  | seq _ _ | transform _ _ | table _ _ => cases hleaf
  | _ => rfl

/-- Nothing stands in a leaf. -/
theorem isContainer_of_mem_leaves {value leaf : Tree} (hleaf : leaf ∈ value.leaves) :
    leaf.isContainer = false := by
  induction value using ind with
  | step value ih =>
    cases hcontainer : value.isContainer with
    | false =>
      rw [leaves_of_leaf hcontainer, List.mem_singleton] at hleaf
      rw [hleaf, hcontainer]
    | true =>
      rw [leaves_of_container hcontainer] at hleaf
      obtain ⟨child, hchild, hleaf⟩ := List.mem_flatMap.mp hleaf
      exact ih child hchild hleaf

theorem mem_stackKeys {value : Tree} {key : String} :
    key ∈ value.stackKeys ↔ ∃ leaf ∈ value.leaves, leaf.stackKey? = some key :=
  List.mem_filterMap

theorem stackKeys_child {value child : Tree} (hcontainer : value.isContainer)
    (hchild : child ∈ value.children) {key : String} (hkey : key ∈ child.stackKeys) :
    key ∈ value.stackKeys := by
  obtain ⟨leaf, hleaf, hfound⟩ := mem_stackKeys.mp hkey
  rw [mem_stackKeys, leaves_of_container hcontainer]
  exact ⟨leaf, List.mem_flatMap.mpr ⟨child, hchild, hleaf⟩, hfound⟩

theorem stackKeys_of_leaf {value : Tree} (hleaf : value.isContainer = false) :
    value.stackKeys = value.stackKey?.toList := by
  rw [stackKeys, leaves_of_leaf hleaf]
  cases hkey : value.stackKey? with
  | none => rw [List.filterMap_cons_none hkey, List.filterMap_nil, Option.toList_none]
  | some key => rw [List.filterMap_cons_some hkey, List.filterMap_nil, Option.toList_some]

theorem mem_refs {value : Tree} {found : Ref} : found ∈ value.refs ↔ .ref found ∈ value.leaves := by
  rw [refs, List.mem_filterMap]
  constructor
  · rintro ⟨leaf, hmem, hleaf⟩
    cases leaf with
    | ref other =>
      cases hleaf
      exact hmem
    | _ => cases hleaf
  · exact fun hmem => ⟨_, hmem, rfl⟩

end Tree

end Atlantide
