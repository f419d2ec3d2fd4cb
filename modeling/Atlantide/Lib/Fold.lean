import Std.Data.ExtTreeMap
import Mathlib.Data.List.Nodup

/-! # Observing a fold over a map

A fold over a map's entries in which each entry changes only what belongs to its own key: what it
leaves of one observation is what that key's entry makes of it, or what it started with. -/

namespace Fold

variable {K E D O : Type} {cmp : K → K → Ordering} [Std.TransCmp cmp] [Std.LawfulEqCmp cmp]

private theorem observe_list {step : D → K → E → D} {observe : D → O} {entries : List (K × E)}
    (hother : ∀ state key entry, (key, entry) ∈ entries →
      observe (step state key entry) = observe state) (start : D) :
    observe (entries.foldl (fun state pair => step state pair.1 pair.2) start) = observe start := by
  induction entries generalizing start with
  | nil => rfl
  | cons pair entries ih =>
    rw [List.foldl_cons, ih fun state key entry hmem => hother state key entry (by simp [hmem])]
    exact hother start pair.1 pair.2 (by simp)

theorem observe_of_forall {map : Std.ExtTreeMap K E cmp} {step : D → K → E → D} (observe : D → O)
    (hother : ∀ state key entry, map[key]? = some entry →
      observe (step state key entry) = observe state) (start : D) :
    observe (map.foldl step start) = observe start := by
  rw [Std.ExtTreeMap.foldl_eq_foldl_toList]
  exact observe_list (fun state key entry hmem =>
    hother state key entry (Std.ExtTreeMap.mem_toList_iff_getElem?_eq_some.mp hmem)) start

theorem observe_at {map : Std.ExtTreeMap K E cmp} {step : D → K → E → D} (observe : D → O)
    {here : K} {entry : E} {value : O} {start : D} (hhere : map[here]? = some entry)
    (hstep : ∀ state, observe state = observe start → observe (step state here entry) = value)
    (hother : ∀ state key entry, map[key]? = some entry → key ≠ here →
      observe (step state key entry) = observe state) :
    observe (map.foldl step start) = value := by
  rw [Std.ExtTreeMap.foldl_eq_foldl_toList]
  have hmem : (here, entry) ∈ map.toList :=
    Std.ExtTreeMap.mem_toList_iff_getElem?_eq_some.mpr hhere
  have hnodup : (map.toList.map Prod.fst).Nodup := by
    rw [Std.ExtTreeMap.map_fst_toList_eq_keys]
    exact Std.ExtTreeMap.nodup_keys
  obtain ⟨before, after, hsplit⟩ := List.append_of_mem hmem
  have hkeys : ∀ key entry', (key, entry') ∈ before ∨ (key, entry') ∈ after →
      map[key]? = some entry' ∧ key ≠ here := by
    intro key entry' hin
    constructor
    · apply Std.ExtTreeMap.mem_toList_iff_getElem?_eq_some.mp
      rw [hsplit]
      rcases hin with hin | hin <;> simp [hin]
    · rintro rfl
      rw [hsplit, List.map_append, List.map_cons, List.nodup_middle, List.nodup_cons] at hnodup
      apply hnodup.1
      rw [List.mem_append]
      rcases hin with hin | hin
      · exact .inl (List.mem_map.mpr ⟨(key, entry'), hin, rfl⟩)
      · exact .inr (List.mem_map.mpr ⟨(key, entry'), hin, rfl⟩)
  rw [hsplit, List.foldl_append, List.foldl_cons]
  rw [observe_list fun state key entry' hin =>
    hother state key entry' (hkeys key entry' (.inr hin)).1 (hkeys key entry' (.inr hin)).2]
  exact hstep _ (observe_list (fun state key entry' hin =>
    hother state key entry' (hkeys key entry' (.inl hin)).1 (hkeys key entry' (.inl hin)).2) start)

/-! ## A fallible map over the entries -/

variable {X V : Type}

/-- Every entry's image under its key, or the first fault. -/
def traverse (image : E → Except X V) (map : Std.ExtTreeMap K E cmp) :
    Except X (Std.ExtTreeMap K V cmp) :=
  map.foldl (fun found key entry => do
    let table ← found
    .ok (table.insert key (← image entry))) (.ok ∅)

omit [Std.LawfulEqCmp cmp] in
private theorem traverse_error {image : E → Except X V} (entries : List (K × E)) (fault : X) :
    entries.foldl (fun (found : Except X (Std.ExtTreeMap K V cmp)) pair => do
      let table ← found
      .ok (table.insert pair.1 (← image pair.2))) (.error fault) = .error fault := by
  induction entries with
  | nil => rfl
  | cons pair entries ih => exact ih

private theorem traverse_list {image : E → Except X V} {entries : List (K × E)}
    (hnodup : (entries.map Prod.fst).Nodup) {start out : Std.ExtTreeMap K V cmp} :
    entries.foldl (fun (found : Except X (Std.ExtTreeMap K V cmp)) pair => do
      let table ← found
      .ok (table.insert pair.1 (← image pair.2))) (.ok start) = .ok out ↔
      (∀ pair ∈ entries, ∃ value, image pair.2 = .ok value ∧ out[pair.1]? = some value) ∧
        ∀ key, key ∉ entries.map Prod.fst → out[key]? = start[key]? := by
  induction entries generalizing start with
  | nil =>
    simp only [List.foldl_nil, Except.ok.injEq, List.map_nil, List.not_mem_nil, not_false_eq_true,
      forall_const, false_implies, implies_true, true_and]
    constructor
    · rintro rfl key
      rfl
    · intro hsame
      exact Std.ExtTreeMap.ext_getElem? fun key => (hsame key).symm
  | cons pair entries ih =>
    rw [List.map_cons, List.nodup_cons] at hnodup
    obtain ⟨key, entry⟩ := pair
    cases himage : image entry with
    | error fault =>
      simp only [List.foldl_cons, himage]
      constructor
      · intro hfold
        exact nomatch (traverse_error entries fault).symm.trans hfold
      · rintro ⟨hall, -⟩
        obtain ⟨value, hvalue, -⟩ := hall (key, entry) (List.mem_cons_self ..)
        rw [himage] at hvalue
        cases hvalue
    | ok value =>
      have hstep : (((key, entry) :: entries).foldl
          (fun (found : Except X (Std.ExtTreeMap K V cmp)) pair => do
            let table ← found
            .ok (table.insert pair.1 (← image pair.2))) (.ok start)) =
          entries.foldl (fun (found : Except X (Std.ExtTreeMap K V cmp)) pair => do
            let table ← found
            .ok (table.insert pair.1 (← image pair.2))) (.ok (start.insert key value)) := by
        rw [List.foldl_cons]
        dsimp only
        rw [himage]
        rfl
      rw [hstep, ih hnodup.2]
      constructor
      · rintro ⟨hall, hrest⟩
        refine ⟨?_, ?_⟩
        · rintro other hmem
          rcases List.mem_cons.mp hmem with rfl | hmem
          · refine ⟨value, himage, ?_⟩
            rw [hrest key hnodup.1, Std.ExtTreeMap.getElem?_insert_self]
          · exact hall other hmem
        · intro other hother
          rw [List.map_cons, List.mem_cons, not_or] at hother
          rw [hrest other hother.2, Std.ExtTreeMap.getElem?_insert, if_neg]
          exact fun heq => hother.1 (Std.LawfulEqCmp.eq_of_compare heq).symm
      · rintro ⟨hall, hrest⟩
        refine ⟨fun other hmem => hall other (List.mem_cons_of_mem _ hmem), ?_⟩
        intro other hother
        rw [Std.ExtTreeMap.getElem?_insert]
        by_cases hsame : key = other
        · subst hsame
          obtain ⟨found, hfound, hout⟩ := hall (key, entry) (List.mem_cons_self ..)
          rw [himage] at hfound
          cases hfound
          rw [hout, if_pos Std.ReflCmp.compare_self]
        · rw [if_neg fun heq => hsame (Std.LawfulEqCmp.eq_of_compare heq)]
          apply hrest
          rw [List.map_cons, List.mem_cons, not_or]
          exact ⟨fun heq => hsame heq.symm, hother⟩

/-- A traversal that ends well leaves each key the image of its entry. -/
theorem traverse_eq_ok {image : E → Except X V} {map : Std.ExtTreeMap K E cmp}
    {out : Std.ExtTreeMap K V cmp} : traverse image map = .ok out ↔
      (∀ (key : K) (entry : E), map[key]? = some entry →
        ∃ value, image entry = .ok value ∧ out[key]? = some value) ∧
      ∀ key : K, map[key]? = none → out[key]? = none := by
  have hnodup : (map.toList.map Prod.fst).Nodup := by
    rw [Std.ExtTreeMap.map_fst_toList_eq_keys]
    exact Std.ExtTreeMap.nodup_keys
  rw [traverse, Std.ExtTreeMap.foldl_eq_foldl_toList, traverse_list hnodup]
  refine and_congr ?_ ?_
  · constructor
    · intro hall key entry hentry
      exact hall (key, entry) (Std.ExtTreeMap.mem_toList_iff_getElem?_eq_some.mpr hentry)
    · intro hall pair hmem
      exact hall pair.1 pair.2 (Std.ExtTreeMap.mem_toList_iff_getElem?_eq_some.mp hmem)
  · refine forall_congr' fun key => ?_
    rw [Std.ExtTreeMap.map_fst_toList_eq_keys, Std.ExtTreeMap.mem_keys,
      Std.ExtTreeMap.mem_iff_isSome_getElem?]
    cases map[key]? <;> simp

/-- A traversal ends well exactly when every entry has an image. -/
theorem traverse_isOk {image : E → Except X V} {map : Std.ExtTreeMap K E cmp} :
    (∃ out : Std.ExtTreeMap K V cmp, traverse image map = .ok out) ↔
      ∀ (key : K) (entry : E), map[key]? = some entry → ∃ value, image entry = .ok value := by
  constructor
  · rintro ⟨out, hout⟩ key entry hentry
    obtain ⟨value, hvalue, -⟩ := (traverse_eq_ok.mp hout).1 key entry hentry
    exact ⟨value, hvalue⟩
  · intro hall
    refine ⟨map.filterMap fun _ entry => (image entry).toOption, traverse_eq_ok.mpr ⟨?_, ?_⟩⟩
    · intro key entry hentry
      obtain ⟨value, hvalue⟩ := hall key entry hentry
      refine ⟨value, hvalue, ?_⟩
      rw [Std.ExtTreeMap.getElem?_filterMap', hentry, Option.bind_some, hvalue]
      rfl
    · intro key hnone
      rw [Std.ExtTreeMap.getElem?_filterMap', hnone]
      rfl

end Fold
