import Atlantide.Graph.Cbd

/-! # The walk that finds the forcers

One table holds, for every node met so far, the declared nodes it was met from. Each declared node
walks the graph with a stack of its own, and stops at the nodes that already hold it. -/

namespace Atlantide

open Closure

/-- The declared nodes each node was met from. -/
abbrev Forcers := Dict String (List String)

namespace IRGraph

variable (ir : IRGraph)

/-- The walk of one declared node; none where the rounds do not suffice. The end of the list of
edges is popped first. -/
def walkFrom (origin : String) : Nat → List String → Forcers → Option Forcers
  | _, [], forcers => some forcers
  | 0, _ :: _, _ => none
  | rounds + 1, nodeId :: stack, forcers =>
    let seen := forcers.getD nodeId []
    if origin ∈ seen then walkFrom origin rounds stack (forcers.insert nodeId seen)
    else
      walkFrom origin rounds ((ir.edgesOf nodeId).reverse ++ stack)
        (forcers.insert nodeId (origin :: seen))

/-- Rounds enough for any walk: one for the declared node, one for each edge. -/
def walkRounds : Nat := 1 + pushes ir.edgesOf ir.byId.keys []

/-- Every create-before-destroy node, with the declared ones that make it so. -/
def walkForcers : Option Forcers :=
  (ir.nodes.filter (·.createBeforeDestroy)).foldlM
    (fun forcers origin => ir.walkFrom origin.id ir.walkRounds [origin.id] forcers) ∅

end IRGraph

section

variable {ir : IRGraph} {origin : String}

/-- What a walk has marked, as the walk that keeps a list sees it. -/
def Marks (origin : String) (forcers : Forcers) (seen : List String) : Prop :=
  ∀ nodeId, nodeId ∈ seen ↔ origin ∈ forcers.getD nodeId []

theorem Marks.insert {forcers : Forcers} {seen : List String} (hmarks : Marks origin forcers seen)
    (nodeId : String) :
    Marks origin (forcers.insert nodeId (origin :: forcers.getD nodeId [])) (nodeId :: seen) := by
  intro other
  rw [Std.ExtTreeMap.getD_insert, List.mem_cons]
  split
  next hsame =>
    obtain rfl := Std.LawfulEqCmp.eq_of_compare hsame
    simp
  next hother =>
    rw [← hmarks other]
    refine or_iff_right fun hsame => hother ?_
    rw [hsame]
    exact Std.ReflCmp.compare_self

theorem getD_insert_getD (forcers : Forcers) (nodeId other : String) :
    (forcers.insert nodeId (forcers.getD nodeId [])).getD other [] = forcers.getD other [] := by
  rw [Std.ExtTreeMap.getD_insert]
  split
  next hsame =>
    obtain rfl := Std.LawfulEqCmp.eq_of_compare hsame
    rfl
  next => rfl

/-- A table keeps no empty entry. -/
def Forcers.Proper (forcers : Forcers) : Prop :=
  ∀ nodeId, nodeId ∈ forcers ↔ forcers.getD nodeId [] ≠ []

theorem Forcers.Proper.insert {forcers : Forcers} (hproper : forcers.Proper) {nodeId : String}
    {origins : List String} (hsome : origins ≠ []) :
    Forcers.Proper (forcers.insert nodeId origins) := by
  intro other
  rw [Std.ExtTreeMap.mem_insert, Std.ExtTreeMap.getD_insert]
  by_cases hsame : compare nodeId other = .eq
  · simp [hsame, hsome]
  · simp [hsame, hproper other]

/-- What a walk from `origin` does to the table: it marks what the walk that keeps a list marks, and
leaves every other origin's marks. -/
structure Walked (origin : String) (before after : Forcers) (seen : List String) : Prop where
  marks : Marks origin after seen
  others : ∀ other, other ≠ origin → ∀ nodeId,
    other ∈ after.getD nodeId [] ↔ other ∈ before.getD nodeId []
  proper : before.Proper → after.Proper

/-- **The walk over the table and the walk over a list agree**, and both end. -/
theorem walkFrom_eq_some {nodes : List String} (hnodes : ∀ node ∉ nodes, ir.edgesOf node = [])
    {rounds : Nat} {stack seen : List String} {forcers : Forcers}
    (hmarks : Marks origin forcers seen)
    (hrounds : stack.length + pushes ir.edgesOf nodes seen ≤ rounds) :
    ∃ after, ir.walkFrom origin rounds stack forcers = some after ∧
      Walked origin forcers after
        (visit (fun nodeId => (ir.edgesOf nodeId).reverse) rounds stack seen) := by
  induction rounds generalizing stack seen forcers with
  | zero =>
    have hempty : stack = [] := List.length_eq_zero_iff.mp (by omega)
    subst hempty
    exact ⟨forcers, rfl, hmarks, fun _ _ _ => Iff.rfl, fun hproper => hproper⟩
  | succ rounds ih =>
    cases stack with
    | nil => exact ⟨forcers, rfl, hmarks, fun _ _ _ => Iff.rfl, fun hproper => hproper⟩
    | cons nodeId stack =>
      rw [List.length_cons] at hrounds
      rw [IRGraph.walkFrom, visit]
      by_cases hseen : nodeId ∈ seen
      · have hheld : origin ∈ forcers.getD nodeId [] := (hmarks nodeId).mp hseen
        rw [if_pos hheld, if_pos hseen]
        have hkept : Marks origin (forcers.insert nodeId (forcers.getD nodeId [])) seen := by
          intro other
          rw [getD_insert_getD]
          exact hmarks other
        obtain ⟨after, hafter, hwalked⟩ := @ih stack seen _ hkept (by omega)
        refine ⟨after, hafter, hwalked.marks, fun other hother node => ?_, fun hproper => ?_⟩
        · rw [hwalked.others other hother, getD_insert_getD]
        · exact hwalked.proper (hproper.insert (List.ne_nil_of_mem hheld))
      · have hfree : origin ∉ forcers.getD nodeId [] :=
          fun hheld => hseen ((hmarks nodeId).mpr hheld)
        rw [if_neg hfree, if_neg hseen]
        have hpushes : pushes ir.edgesOf nodes (nodeId :: seen) + (ir.edgesOf nodeId).length ≤
            pushes ir.edgesOf nodes seen := by
          by_cases hmem : nodeId ∈ nodes
          · exact pushes_cons hmem hseen
          · rw [hnodes nodeId hmem, List.length_nil, Nat.add_zero]
            exact pushes_mono nodes seen nodeId
        obtain ⟨after, hafter, hwalked⟩ := 
          @ih ((ir.edgesOf nodeId).reverse ++ stack) _ _ (hmarks.insert nodeId)
          (by rw [List.length_append, List.length_reverse]; omega)
        refine ⟨after, hafter, hwalked.marks, fun other hother node => ?_, fun hproper => ?_⟩
        · rw [hwalked.others other hother, Std.ExtTreeMap.getD_insert]
          split
          next hsame =>
            obtain rfl := Std.LawfulEqCmp.eq_of_compare hsame
            simp [hother]
          next => rfl
        · exact hwalked.proper (hproper.insert (List.cons_ne_nil _ _))

/-- `origin` depends on the node, or is it. -/
def Depends (ir : IRGraph) (origin nodeId : String) : Prop :=
  Relation.ReflTransGen (Step ir.edgesOf) origin nodeId

theorem edgesOf_eq_nil : ∀ node ∉ ir.byId.keys, ir.edgesOf node = [] := by
  intro node hnode
  rw [Std.ExtTreeMap.mem_keys] at hnode
  rw [IRGraph.edgesOf, Std.ExtTreeMap.getElem?_eq_none hnode]

/-- The walk over a list meets the same nodes whichever end of the edges it takes first. -/
theorem mem_visit_reverse {nodeId : String} :
    nodeId ∈ visit (fun node => (ir.edgesOf node).reverse) ir.walkRounds [origin] [] ↔
      Depends ir origin nodeId := by
  have hstep : Step (fun node => (ir.edgesOf node).reverse) = Step ir.edgesOf := by
    funext source target
    exact propext List.mem_reverse
  have hpushes : pushes (fun node => (ir.edgesOf node).reverse) ir.byId.keys [] =
      pushes ir.edgesOf ir.byId.keys [] := by
    simp only [pushes, List.length_reverse]
  have hnone : ∀ node ∉ ir.byId.keys, (ir.edgesOf node).reverse = [] := by
    intro node hnode
    rw [edgesOf_eq_nil node hnode, List.reverse_nil]
  rw [@mem_visit_iff _ _ _ _ [origin] hnone _
    (by rw [hpushes, IRGraph.walkRounds, List.length_singleton]), hstep]
  simp [Depends]

/-- The table says of every node exactly which of the given nodes depend on it. -/
structure Forcers.Tells (forcers : Forcers) (ir : IRGraph) (origins : List String) : Prop where
  proper : forcers.Proper
  tells : ∀ origin nodeId,
    origin ∈ forcers.getD nodeId [] ↔ origin ∈ origins ∧ Depends ir origin nodeId

theorem Forcers.Tells.walk {forcers : Forcers} {origins : List String}
    (htells : forcers.Tells ir origins) (origin : String) :
    ∃ after, ir.walkFrom origin ir.walkRounds [origin] forcers = some after ∧
      after.Tells ir (origin :: origins) := by
  -- Enough that the walk ends with `origin` marked where it should be.
  suffices h : ∃ after seen, ir.walkFrom origin ir.walkRounds [origin] forcers = some after ∧
      Walked origin forcers after seen ∧ ∀ nodeId, nodeId ∈ seen ↔ Depends ir origin nodeId by
    obtain ⟨after, seen, hafter, hwalked, hseen⟩ := h
    refine ⟨after, hafter, hwalked.proper htells.proper, fun other nodeId => ?_⟩
    by_cases hother : other = origin
    · subst hother
      rw [← hwalked.marks nodeId, hseen nodeId]
      simp
    · rw [hwalked.others other hother, htells.tells, List.mem_cons]
      simp [hother]
  have hrounds : ∀ seen : List String,
      [origin].length + pushes ir.edgesOf ir.byId.keys seen ≤ ir.walkRounds := by
    intro seen
    rw [IRGraph.walkRounds, List.length_singleton]
    exact Nat.add_le_add_left (pushes_le _ seen) 1
  by_cases hdone : origin ∈ origins
  · have hmarks : Marks origin forcers
        (forcers.keys.filter fun nodeId => origin ∈ forcers.getD nodeId []) := by
      intro nodeId
      rw [List.mem_filter, decide_eq_true_iff, and_iff_right_iff_imp, Std.ExtTreeMap.mem_keys]
      exact fun hheld => (htells.proper nodeId).mpr (List.ne_nil_of_mem hheld)
    obtain ⟨after, hafter, hwalked⟩ := walkFrom_eq_some edgesOf_eq_nil hmarks (hrounds _)
    have hhere : origin ∈ forcers.keys.filter fun nodeId => origin ∈ forcers.getD nodeId [] :=
      (hmarks origin).mpr ((htells.tells origin origin).mpr ⟨hdone, .refl⟩)
    refine ⟨after, _, hafter, hwalked, fun nodeId => ?_⟩
    have hstays : ∀ rounds : Nat, visit (fun node => (ir.edgesOf node).reverse) (1 + rounds)
        [origin] (forcers.keys.filter fun nodeId => origin ∈ forcers.getD nodeId []) =
          forcers.keys.filter fun nodeId => origin ∈ forcers.getD nodeId [] := by
      intro rounds
      rw [Nat.add_comm, visit, if_pos hhere]
      cases rounds <;> rfl
    rw [IRGraph.walkRounds, hstays, hmarks nodeId, htells.tells]
    exact and_iff_right hdone
  · have hmarks : Marks origin forcers [] := by
      intro nodeId
      refine iff_of_false List.not_mem_nil fun hheld => hdone ?_
      exact ((htells.tells origin nodeId).mp hheld).1
    obtain ⟨after, hafter, hwalked⟩ := walkFrom_eq_some edgesOf_eq_nil hmarks (hrounds [])
    exact ⟨after, _, hafter, hwalked, fun nodeId => mem_visit_reverse⟩

/-- **The walk ends, and tells exactly which declared nodes depend on each node.** -/
theorem walkForcers_eq_some (ir : IRGraph) : ∃ forcers, ir.walkForcers = some forcers ∧
    forcers.Tells ir ((ir.nodes.filter (·.createBeforeDestroy)).map (·.id)) := by
  unfold IRGraph.walkForcers
  have hstart : (∅ : Forcers).Tells ir [] := by
    constructor
    · intro nodeId
      simp
    · intro origin nodeId
      simp
  suffices h : ∀ (declared : List IRNode) (forcers : Forcers) (origins : List String),
      forcers.Tells ir origins → ∃ after, declared.foldlM
        (fun forcers origin => ir.walkFrom origin.id ir.walkRounds [origin.id] forcers) forcers =
          some after ∧ after.Tells ir ((declared.map (·.id)).reverse ++ origins) by
    obtain ⟨after, hafter, htells⟩ := h _ ∅ [] hstart
    refine ⟨after, hafter, htells.proper, fun origin nodeId => ?_⟩
    rw [htells.tells, List.append_nil, List.mem_reverse]
  intro declared
  induction declared with
  | nil => exact fun forcers origins htells => ⟨forcers, rfl, htells⟩
  | cons origin declared ih =>
    intro forcers origins htells
    obtain ⟨middle, hmiddle, hwalk⟩ := htells.walk origin.id
    obtain ⟨after, hafter, hlast⟩ := ih middle (origin.id :: origins) hwalk
    refine ⟨after, ?_, ?_⟩
    · rw [List.foldlM_cons, hmiddle]
      exact hafter
    · rw [List.map_cons, List.reverse_cons, List.append_assoc]
      exact hlast

theorem mem_cbdForcers {forcers : Forcers} (hwalk : ir.walkForcers = some forcers)
    {origin nodeId : String} : origin ∈ cbdForcers ir nodeId ↔ origin ∈ forcers.getD nodeId [] := by
  obtain ⟨found, hfound, htells⟩ := walkForcers_eq_some ir
  cases hwalk.symm.trans hfound
  rw [htells.tells, cbdForcers, List.mem_filter, decide_eq_true_iff, mem_cbdReach]
  rfl

/-- The nodes a REPLACE creates first are the keys of the walk's table. -/
theorem mem_effectiveCbd_iff {forcers : Forcers} (hwalk : ir.walkForcers = some forcers)
    {nodeId : String} : nodeId ∈ effectiveCbd ir ↔ nodeId ∈ forcers := by
  obtain ⟨found, hfound, htells⟩ := walkForcers_eq_some ir
  cases hwalk.symm.trans hfound
  rw [mem_effectiveCbd, htells.proper nodeId, List.ne_nil_iff_exists_cons]
  constructor
  · rintro ⟨origin, hmem, hflag, hreach⟩
    have hheld : origin.id ∈ forcers.getD nodeId [] := (htells.tells origin.id nodeId).mpr
      ⟨List.mem_map_of_mem (List.mem_filter.mpr ⟨hmem, hflag⟩), hreach⟩
    exact List.exists_cons_of_ne_nil (List.ne_nil_of_mem hheld)
  · rintro ⟨origin, rest, horigins⟩
    have hheld : origin ∈ forcers.getD nodeId [] := by
      rw [horigins]
      exact List.mem_cons_self
    obtain ⟨hdeclared, hreach⟩ := (htells.tells origin nodeId).mp hheld
    obtain ⟨node, hnode, rfl⟩ := List.mem_map.mp hdeclared
    obtain ⟨hmem, hflag⟩ := List.mem_filter.mp hnode
    exact ⟨node, hmem, hflag, hreach⟩

/-- The nodes a REPLACE creates first are closed under what they depend on. -/
theorem effectiveCbd_closed {nodeId dep : String} (hmem : nodeId ∈ effectiveCbd ir)
    (hdep : dep ∈ ir.edgesOf nodeId) : dep ∈ effectiveCbd ir := by
  obtain ⟨origin, horigin, hflag, hreach⟩ := mem_effectiveCbd.mp hmem
  exact mem_effectiveCbd.mpr ⟨origin, horigin, hflag, hreach.tail hdep⟩

end

end Atlantide
