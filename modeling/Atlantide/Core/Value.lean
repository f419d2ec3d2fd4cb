import Std.Data.ExtTreeMap
import Std.Data.ExtTreeSet

/-! # Plain JSON values and string-keyed maps

`Dict` is the map the state code keeps in Python dicts. It is equal exactly when the lookups are,
and lists its keys in increasing order, which is the order the code sorts them into wherever the
order can be seen. -/

namespace Atlantide

abbrev Dict (K V : Type) [Ord K] := Std.ExtTreeMap K V compare

/-- A JSON value. A float is known by its `repr` only; an object's fields stand in canonical
order. -/
inductive Value
  | null
  | bool (value : Bool)
  | int (value : Int)
  | float (repr : String)
  | str (value : String)
  | list (items : List Value)
  | dict (fields : List (String × Value))
  deriving Inhabited

namespace Value

mutual

def decEq : (a b : Value) → Decidable (a = b)
  | null, null => isTrue rfl
  | bool a, bool b => decidable_of_iff (a = b) (by simp)
  | int a, int b => decidable_of_iff (a = b) (by simp)
  | float a, float b => decidable_of_iff (a = b) (by simp)
  | str a, str b => decidable_of_iff (a = b) (by simp)
  | list a, list b => @decidable_of_iff _ (a = b) (by simp) (decEqItems a b)
  | dict a, dict b => @decidable_of_iff _ (a = b) (by simp) (decEqFields a b)
  | null, bool _ | null, int _ | null, float _ | null, str _ | null, list _ | null, dict _
  | bool _, null | bool _, int _ | bool _, float _ | bool _, str _ | bool _, list _
  | bool _, dict _ | int _, null | int _, bool _ | int _, float _ | int _, str _ | int _, list _
  | int _, dict _ | float _, null | float _, bool _ | float _, int _ | float _, str _
  | float _, list _ | float _, dict _ | str _, null | str _, bool _ | str _, int _
  | str _, float _ | str _, list _ | str _, dict _ | list _, null | list _, bool _
  | list _, int _ | list _, float _ | list _, str _ | list _, dict _ | dict _, null
  | dict _, bool _ | dict _, int _ | dict _, float _ | dict _, str _ | dict _, list _ =>
    isFalse nofun

def decEqItems : (a b : List Value) → Decidable (a = b)
  | [], [] => isTrue rfl
  | [], _ :: _ => isFalse nofun
  | _ :: _, [] => isFalse nofun
  | a :: as, b :: bs =>
    match decEq a b, decEqItems as bs with
    | isTrue h, isTrue hs => isTrue (by rw [h, hs])
    | isFalse h, _ => isFalse (by simp [h])
    | _, isFalse hs => isFalse (by simp [hs])

def decEqFields : (a b : List (String × Value)) → Decidable (a = b)
  | [], [] => isTrue rfl
  | [], _ :: _ => isFalse nofun
  | _ :: _, [] => isFalse nofun
  | (k, a) :: as, (l, b) :: bs =>
    match decEq a b, decEqFields as bs with
    | isTrue h, isTrue hs => decidable_of_iff (k = l) (by simp [h, hs])
    | isFalse h, _ => isFalse (by simp [h])
    | _, isFalse hs => isFalse (by simp [hs])

end

instance : DecidableEq Value := decEq

end Value

/-- `sorted(set(names))`. -/
def sortedSet (names : List String) : List String :=
  (Std.ExtTreeSet.ofList names compare).toList

theorem mem_sortedSet {names : List String} {name : String} :
    name ∈ sortedSet names ↔ name ∈ names := by
  rw [sortedSet, Std.ExtTreeSet.mem_toList, Std.ExtTreeSet.mem_ofList, List.contains_iff_mem]

theorem nodup_sortedSet (names : List String) : (sortedSet names).Nodup := by
  refine (Std.ExtTreeSet.distinct_toList (t := Std.ExtTreeSet.ofList names compare)).imp ?_
  rintro a b hne rfl
  exact hne Std.ReflCmp.compare_self

/-- The part of a node id before its first `:`. -/
def stackOf (nodeId : String) : String :=
  String.ofList (nodeId.toList.takeWhile (· ≠ ':'))

/-- A map is made again of what it holds. -/
theorem ofList_toList {V : Type} (entries : Dict String V) :
    Std.ExtTreeMap.ofList entries.toList compare = entries := by
  refine Std.ExtTreeMap.ext_getElem? fun key => ?_
  cases hfound : entries[key]? with
  | some value =>
    exact Std.ExtTreeMap.getElem?_ofList_of_mem Std.ReflCmp.compare_self
      Std.ExtTreeMap.distinct_keys_toList (Std.ExtTreeMap.mem_toList_iff_getElem?_eq_some.mpr hfound)
  | none =>
    refine Std.ExtTreeMap.getElem?_ofList_of_contains_eq_false ?_
    rw [Std.ExtTreeMap.map_fst_toList_eq_keys, List.contains_eq_mem, decide_eq_false_iff_not,
      Std.ExtTreeMap.mem_keys]
    intro hmem
    rw [Std.ExtTreeMap.mem_iff_isSome_getElem?, hfound] at hmem
    cases hmem

/-- A table of items under their keys, no two of which share one. -/
theorem getElem?_foldl_insert {α : Type} {key : α → String} {items : List α} {table : Dict String α}
    {name : String} {item : α} (hdistinct : (items.map key).Nodup) :
    (items.foldl (fun table item => table.insert (key item) item) table)[name]? = some item ↔
      (item ∈ items ∧ key item = name) ∨
        (table[name]? = some item ∧ ∀ other ∈ items, key other ≠ name) := by
  induction items generalizing table with
  | nil => simp
  | cons first items ih =>
    rw [List.map_cons, List.nodup_cons, List.mem_map] at hdistinct
    rw [List.foldl_cons, ih hdistinct.2, Std.ExtTreeMap.getElem?_insert, List.forall_mem_cons]
    by_cases hsame : key first = name
    · subst hsame
      have hlast : ∀ other ∈ items, key other ≠ key first :=
        fun other hmem heq => hdistinct.1 ⟨other, hmem, heq⟩
      simp only [Std.ReflCmp.compare_self, if_pos, Option.some.injEq, List.mem_cons]
      constructor
      · rintro (⟨hmem, heq⟩ | ⟨rfl, -⟩)
        · exact .inl ⟨.inr hmem, heq⟩
        · exact .inl ⟨.inl rfl, rfl⟩
      · rintro (⟨rfl | hmem, heq⟩ | ⟨-, hne, -⟩)
        · exact .inr ⟨rfl, hlast⟩
        · exact .inl ⟨hmem, heq⟩
        · exact (hne rfl).elim
    · have hcompare : ¬ compare (key first) name = .eq := fun heq =>
        hsame (Std.LawfulEqCmp.eq_of_compare heq)
      rw [if_neg hcompare, List.mem_cons]
      constructor
      · rintro (⟨hmem, heq⟩ | ⟨hfound, hrest⟩)
        · exact .inl ⟨.inr hmem, heq⟩
        · exact .inr ⟨hfound, hsame, hrest⟩
      · rintro (⟨rfl | hmem, heq⟩ | ⟨hfound, -, hrest⟩)
        · exact (hsame heq).elim
        · exact .inl ⟨hmem, heq⟩
        · exact .inr ⟨hfound, hrest⟩

section

variable {α : Type} {key : α → String} {items : List α} {table : Dict String α} {name : String}

/-- A table is as it was under a name that no item has. -/
theorem getElem?_foldl_insert_of_forall_ne (hnone : ∀ item ∈ items, key item ≠ name) :
    (items.foldl (fun table item => table.insert (key item) item) table)[name]? = table[name]? := by
  induction items generalizing table with
  | nil => rfl
  | cons first items ih =>
    obtain ⟨hfirst, hrest⟩ := List.forall_mem_cons.mp hnone
    rw [List.foldl_cons, ih hrest, Std.ExtTreeMap.getElem?_insert, if_neg]
    exact fun heq => hfirst (Std.LawfulEqCmp.eq_of_compare heq)

/-- A table has under a name the only item of that name. -/
theorem getElem?_foldl_insert_of_forall_eq {item : α}
    (hmem : item ∈ items ∨ table[name]? = some item) (hname : key item = name)
    (honly : ∀ other ∈ items, key other = name → other = item) :
    (items.foldl (fun table item => table.insert (key item) item) table)[name]? = some item := by
  induction items generalizing table with
  | nil =>
    rcases hmem with hmem | hmem
    · cases hmem
    · exact hmem
  | cons first items ih =>
    obtain ⟨hfirst, hrest⟩ := List.forall_mem_cons.mp honly
    rw [List.foldl_cons]
    refine ih ?_ hrest
    rw [Std.ExtTreeMap.getElem?_insert]
    by_cases hsame : key first = name
    · right
      rw [hfirst hsame, hname, if_pos Std.ReflCmp.compare_self]
    · rw [if_neg fun heq => hsame (Std.LawfulEqCmp.eq_of_compare heq)]
      rcases hmem with hmem | hmem
      · rcases List.mem_cons.mp hmem with rfl | hmem
        · exact (hsame hname).elim
        · exact .inl hmem
      · exact .inr hmem

/-- What a table has under a name is an item of that name. -/
theorem mem_of_getElem?_foldl_insert {item : α}
    (hfound : (items.foldl (fun table item => table.insert (key item) item) table)[name]? =
      some item) : (item ∈ items ∧ key item = name) ∨ table[name]? = some item := by
  induction items generalizing table with
  | nil => exact .inr hfound
  | cons first items ih =>
    rw [List.foldl_cons] at hfound
    rcases ih hfound with ⟨hmem, hname⟩ | hfound
    · exact .inl ⟨List.mem_cons_of_mem _ hmem, hname⟩
    · rw [Std.ExtTreeMap.getElem?_insert] at hfound
      split at hfound
      next hsame =>
        cases hfound
        exact .inl ⟨List.mem_cons_self .., Std.LawfulEqCmp.eq_of_compare hsame⟩
      next => exact .inr hfound

/-- A table has every item's name. -/
theorem mem_foldl_insert (hmem : name ∈ items.map key ∨ name ∈ table) :
    name ∈ items.foldl (fun table item => table.insert (key item) item) table := by
  induction items generalizing table with
  | nil =>
    rcases hmem with hmem | hmem
    · cases hmem
    · exact hmem
  | cons first items ih =>
    rw [List.map_cons, List.mem_cons] at hmem
    refine ih ?_
    rcases hmem with (rfl | hmem) | hmem
    · exact .inr Std.ExtTreeMap.mem_insert_self
    · exact .inl hmem
    · exact .inr (Std.ExtTreeMap.mem_insert.mpr (.inr hmem))

end

end Atlantide
