import Atlantide.Lang.Costs

/-! # What a bounded walk is worth

A walk over a nested value stops once it is past its limit. Up to the limit it tells the exact cost,
beyond it only that there is more, and it never meets more nodes than the limit pays for. -/

namespace Atlantide.Lang

variable {A : Type} (look : Value A → Shape A)

/-- What the nodes of a list cost with everything below them, a shared one once a reference. -/
inductive Costs : List (Value A) → Nat → Prop
  | nil : Costs [] 0
  | cons {item : Value A} {rest : List (Value A)} {below others : Nat}
      (hbelow : Costs (look item).children below) (hothers : Costs rest others) :
    Costs (item :: rest) ((look item).nodeCost + below + others)

/-- The exact cost of a value: a leaf on its own costs a step and its length. -/
def ExactCost (value : Value A) (cost : Nat) : Prop :=
  if (look value).nested then Costs look [value] cost else cost = 1 + (look value).sizedLen

/-- Nothing below the value holds it. -/
def Acyclic (value : Value A) : Prop :=
  Acc (fun child parent => child ∈ (look parent).children) value

/-! ## The loops, with the nodes they meet -/

/-- What a walk ends with: the cost so far, and how many nodes were put on its stack. -/
structure Walk where
  total : Nat
  met : Nat

/-- The loop of `deep_cost`; none where the rounds do not suffice. -/
def walkLoop (limit : Nat) : Nat → List (Value A) → Nat → Nat → Option Walk
  | _, [], total, met => some ⟨total, met⟩
  | 0, _ :: _, _, _ => none
  | rounds + 1, item :: stack, total, met =>
    let next := total + (look item).nodeCost
    if limit < next then some ⟨next, met⟩
    else walkLoop limit rounds ((look item).children ++ stack) next
      (met + (look item).children.length)

/-- `deep_cost`, with the nodes it meets. -/
def walk (value : Value A) (limit : Nat) : Option Walk :=
  if (look value).nested then walkLoop look limit (limit + 1) [value] 0 1
  else some ⟨1 + (look value).sizedLen, 1⟩

/-- The loop of `_smaller_deep_cost`; none where the rounds do not suffice. -/
def smallerLoop (left right : Value A) (limit : Nat) : Nat → Nat → Nat → Option Walk
  | 0, _, _ => none
  | rounds + 1, bound, met => do
    let leftWalk ← walk look left bound
    let rightWalk ← walk look right bound
    let seen := met + leftWalk.met + rightWalk.met
    if leftWalk.total ≤ bound ∨ rightWalk.total ≤ bound ∨ limit < bound then
      some ⟨min leftWalk.total rightWalk.total, seen⟩
    else smallerLoop left right limit rounds (bound * 2) seen

section

variable {look} {value left right : Value A} {limit cost : Nat}

/-! ## The exact cost -/

theorem Costs.append {first second : List (Value A)} {cost other : Nat}
    (hfirst : Costs look first cost) (hsecond : Costs look second other) :
    Costs look (first ++ second) (cost + other) := by
  induction hfirst with
  | nil =>
    rw [List.nil_append, Nat.zero_add]
    exact hsecond
  | @cons item rest below others hbelow _ _ ih =>
    rw [List.cons_append, Nat.add_assoc]
    exact .cons hbelow ih

theorem Costs.unique {items : List (Value A)} {cost other : Nat} (hcost : Costs look items cost)
    (hother : Costs look items other) : cost = other := by
  induction hcost generalizing other with
  | nil =>
    cases hother
    rfl
  | cons hbelow hothers ihbelow ihothers =>
    cases hother with
    | cons hbelow' hothers' => rw [ihbelow hbelow', ihothers hothers']

theorem Costs.of_forall {items : List (Value A)}
    (hall : ∀ item ∈ items, ∃ cost, Costs look [item] cost) : ∃ cost, Costs look items cost := by
  induction items with
  | nil => exact ⟨0, .nil⟩
  | cons item items ih =>
    rw [List.forall_mem_cons] at hall
    obtain ⟨cost, hcost⟩ := hall.1
    obtain ⟨others, hothers⟩ := ih hall.2
    exact ⟨cost + others, hcost.append hothers⟩

theorem Acyclic.exactCost (hacyclic : Acyclic look value) : ∃ cost, ExactCost look value cost := by
  have hall : ∃ cost, Costs look [value] cost := by
    induction hacyclic with
    | intro value _ ih =>
      obtain ⟨below, hbelow⟩ := Costs.of_forall ih
      exact ⟨_, .cons hbelow .nil⟩
  unfold ExactCost
  split
  · exact hall
  · exact ⟨_, rfl⟩

theorem ExactCost.unique {other : Nat} (hcost : ExactCost look value cost)
    (hother : ExactCost look value other) : cost = other := by
  unfold ExactCost at hcost hother
  split at hcost
  next hnested =>
    rw [if_pos hnested] at hother
    exact hcost.unique hother
  next hleaf =>
    rw [if_neg hleaf] at hother
    rw [hcost, hother]

/-! ## One walk -/

/-- What a walk over a stack finds, given the cost of what is on it. -/
theorem deepWalk_exact {rounds total : Nat} {stack : List (Value A)}
    (hcost : Costs look stack cost) (hrounds : limit < rounds + total) :
    (total + cost ≤ limit → deepWalk look limit rounds stack total = total + cost) ∧
      (limit < total + cost → limit < deepWalk look limit rounds stack total) := by
  induction rounds generalizing stack total cost with
  | zero =>
    refine ⟨fun hwithin => ?_, fun _ => ?_⟩
    · omega
    · rw [deepWalk]
      omega
  | succ rounds ih =>
    cases hcost with
    | nil =>
      rw [deepWalk, Nat.add_zero]
      exact ⟨fun _ => rfl, fun hover => hover⟩
    | @cons item rest below others hbelow hothers =>
      have hnode := (look item).one_le_nodeCost
      rw [deepWalk]
      by_cases hover : limit < total + (look item).nodeCost
      · rw [if_pos hover]
        exact ⟨fun hwithin => by omega, fun _ => hover⟩
      · rw [if_neg hover]
        have hleft : limit < rounds + (total + (look item).nodeCost) := by omega
        obtain ⟨hwithin, hmore⟩ := ih (hbelow.append hothers) hleft
        constructor
        · intro hsum
          rw [hwithin (by omega)]
          omega
        · intro hsum
          exact hmore (by omega)

/-- **`deep_cost` is exact up to its limit**, and past it tells only that there is more. -/
theorem deepCost_exact (hcost : ExactCost look value cost) :
    (cost ≤ limit → deepCost look value limit = cost) ∧
      (limit < cost → limit < deepCost look value limit) := by
  unfold ExactCost at hcost
  unfold deepCost
  split
  next hnested =>
    rw [if_pos hnested] at hcost
    have hrounds : limit < limit + 1 + 0 := by omega
    have hwalk := deepWalk_exact hcost hrounds
    rwa [Nat.zero_add] at hwalk
  next hleaf =>
    rw [if_neg hleaf] at hcost
    rw [hcost]
    exact ⟨fun _ => rfl, fun hmore => hmore⟩

/-! ## The nodes a walk meets -/

/-- A dict has as many values as keys. -/
def DictsMatch (look : Value A → Shape A) : Prop :=
  ∀ (value : Value A) (keys values : List (Value A)), look value = .dict keys values →
    values.length = keys.length

theorem length_children (hmatch : DictsMatch look) (item : Value A) :
    (look item).children.length + 2 ≤ 2 * (look item).nodeCost := by
  cases hlook : look item with
  | dict keys values =>
    have hlength := hmatch item keys values hlook
    simp only [Shape.children, Shape.nodeCost, Shape.sizedLen, List.length_reverse,
      List.length_append]
    omega
  | seq kind items =>
    simp only [Shape.children, Shape.nodeCost, Shape.sizedLen, List.length_reverse]
    omega
  | _ =>
    simp only [Shape.children, Shape.nodeCost, List.length_nil]
    omega

/-- The loop ends within its rounds, with the total of the loop that has no count. -/
theorem walkLoop_eq_some (hmatch : DictsMatch look) {rounds total met : Nat}
    {stack : List (Value A)} (hrounds : limit < rounds + total) (htotal : total ≤ limit) :
    ∃ found, walkLoop look limit rounds stack total met = some found ∧
      found.total = deepWalk look limit rounds stack total ∧
      found.met ≤ met + 2 * (limit - total) := by
  induction rounds generalizing stack total met with
  | zero => omega
  | succ rounds ih =>
    cases stack with
    | nil => exact ⟨⟨total, met⟩, rfl, rfl, Nat.le_add_right _ _⟩
    | cons item stack =>
      have hnode := (look item).one_le_nodeCost
      have hchildren := length_children hmatch item
      rw [walkLoop, deepWalk]
      by_cases hover : limit < total + (look item).nodeCost
      · rw [if_pos hover, if_pos hover]
        exact ⟨_, rfl, rfl, Nat.le_add_right _ _⟩
      · rw [if_neg hover, if_neg hover]
        obtain ⟨found, hfound, htotals, hmet⟩ := @ih (total + (look item).nodeCost)
          (met + (look item).children.length) ((look item).children ++ stack) (by omega) (by omega)
        exact ⟨found, hfound, htotals, by omega⟩

theorem walk_eq_some (hmatch : DictsMatch look) (value : Value A) (limit : Nat) :
    ∃ found, walk look value limit = some found ∧ found.total = deepCost look value limit ∧
      found.met ≤ 1 + 2 * limit := by
  unfold walk deepCost
  split
  · obtain ⟨found, hfound, htotal, hmet⟩ := @walkLoop_eq_some _ _ limit hmatch
      (limit + 1) 0 1 [value] (by omega) (by omega)
    exact ⟨found, hfound, htotal, by omega⟩
  · exact ⟨_, rfl, rfl, Nat.le_add_right _ _⟩

/-! ## Two walks side by side -/

theorem min_deepCost {other bound : Nat} (hleft : ExactCost look left cost)
    (hright : ExactCost look right other) :
    (min cost other ≤ bound → min (deepCost look left bound) (deepCost look right bound) =
        min cost other ∧ (deepCost look left bound ≤ bound ∨ deepCost look right bound ≤ bound)) ∧
      (bound < min cost other →
        bound < min (deepCost look left bound) (deepCost look right bound)) := by
  obtain ⟨hleftWithin, hleftMore⟩ := @deepCost_exact _ _ _ bound _ hleft
  obtain ⟨hrightWithin, hrightMore⟩ := @deepCost_exact _ _ _ bound _ hright
  rcases Nat.lt_or_ge bound cost with hl | hl
  · rcases Nat.lt_or_ge bound other with hr | hr
    · have hleftCost := hleftMore hl
      have hrightCost := hrightMore hr
      exact ⟨fun hwithin => by omega, fun _ => by omega⟩
    · have hleftCost := hleftMore hl
      have hrightCost := hrightWithin hr
      exact ⟨fun _ => ⟨by omega, .inr (by omega)⟩, fun hmore => by omega⟩
  · have hleftCost := hleftWithin hl
    rcases Nat.lt_or_ge bound other with hr | hr
    · have hrightCost := hrightMore hr
      exact ⟨fun _ => ⟨by omega, .inl (by omega)⟩, fun hmore => by omega⟩
    · have hrightCost := hrightWithin hr
      exact ⟨fun _ => ⟨by omega, .inl (by omega)⟩, fun hmore => by omega⟩

/-- The doubling loop ends within its rounds, with the total of the loop that has no count, and
meets no more nodes than the last bound and those before it pay for. -/
theorem smallerLoop_eq_some (hmatch : DictsMatch look) (left right : Value A)
    {rounds bound met : Nat} (hbound : 1 ≤ bound) (hrounds : limit + 1 < rounds + bound) (hsome : 1 ≤ rounds) :
    ∃ found, smallerLoop look left right limit rounds bound met = some found ∧
      found.total = smallerDeepCost look left right limit rounds bound ∧
      found.met + 6 * bound ≤ met + 12 * max bound (2 * limit) := by
  induction rounds generalizing bound met with
  | zero => omega
  | succ rounds ih =>
    obtain ⟨leftWalk, hleft, hleftTotal, hleftMet⟩ := walk_eq_some hmatch left bound
    obtain ⟨rightWalk, hright, hrightTotal, hrightMet⟩ := walk_eq_some hmatch right bound
    rw [smallerLoop, smallerDeepCost, hleft, hright]
    simp only [Option.bind_eq_bind, Option.bind_some]
    rw [hleftTotal, hrightTotal]
    split
    next => exact ⟨_, rfl, rfl, by simp only; omega⟩
    next hgoes =>
      rw [not_or, not_or, Nat.not_lt] at hgoes
      obtain ⟨found, hfound, htotal, hmet⟩ := @ih (bound * 2)
        (met + leftWalk.met + rightWalk.met) (by omega) (by omega) (by omega)
      exact ⟨found, hfound, htotal, by omega⟩

/-- **`_smaller_deep_cost` is the exact minimum up to its limit**, and past it tells only that there
is more. -/
theorem smallerDeepCost_exact {other rounds bound : Nat} (hleft : ExactCost look left cost)
    (hright : ExactCost look right other) (hbound : 1 ≤ bound) (hrounds : limit < rounds + bound) :
    (min cost other ≤ limit → smallerDeepCost look left right limit rounds bound =
        min cost other) ∧
      (limit < min cost other → limit < smallerDeepCost look left right limit rounds bound) := by
  induction rounds generalizing bound with
  | zero =>
    obtain ⟨hwithin, hmore⟩ := @min_deepCost _ _ _ _ _ _ bound hleft hright
    rw [smallerDeepCost]
    refine ⟨fun hless => (hwithin (by omega)).1, fun hover => ?_⟩
    rcases Nat.lt_or_ge bound (min cost other) with hb | hb
    · have hcost := hmore hb
      omega
    · rw [(hwithin hb).1]
      exact hover
  | succ rounds ih =>
    obtain ⟨hwithin, hmore⟩ := @min_deepCost _ _ _ _ _ _ bound hleft hright
    rw [smallerDeepCost]
    split
    next hstops =>
      rcases Nat.lt_or_ge bound (min cost other) with hb | hb
      · have hcost := hmore hb
        have hlimit : limit < bound := by
          rcases hstops with hstop | hstop | hstop
          · omega
          · omega
          · exact hstop
        exact ⟨fun hless => by omega, fun _ => by omega⟩
      · rw [(hwithin hb).1]
        exact ⟨fun _ => rfl, fun hover => hover⟩
    next => exact ih (by omega) (by omega)

/-- **Walk costs are exact within the limit.** Both walks end over every acyclic value, tell the
exact cost up to the limit and more than the limit beyond it, and meet a bounded number of nodes. -/
theorem walks_exact (hmatch : DictsMatch look) (hleft : Acyclic look left)
    (hright : Acyclic look right) (limit : Nat) : ∃ cost other found smaller,
    ExactCost look left cost ∧ ExactCost look right other ∧
    walk look left limit = some found ∧ found.total = deepCost look left limit ∧
    (cost ≤ limit → found.total = cost) ∧ (limit < cost → limit < found.total) ∧
    smallerLoop look left right limit (limit + 1) 64 0 = some smaller ∧
    smaller.total = smallerDeepCost look left right limit (limit + 1) 64 ∧
    (min cost other ≤ limit → smaller.total = min cost other) ∧
    (limit < min cost other → limit < smaller.total) ∧
    found.met ≤ 768 * (limit + (look left).nodeCost) ∧
    smaller.met ≤ 768 * (limit + (look left).nodeCost) := by
  obtain ⟨cost, hcost⟩ := hleft.exactCost
  obtain ⟨other, hother⟩ := hright.exactCost
  obtain ⟨found, hfound, htotal, hmet⟩ := walk_eq_some hmatch left limit
  obtain ⟨smaller, hsmaller, hsum, hseen⟩ := @smallerLoop_eq_some _ _ limit hmatch left right
    (limit + 1) 64 0 (by omega) (by omega) (by omega)
  obtain ⟨hwithin, hmore⟩ := @deepCost_exact _ _ _ limit _ hcost
  obtain ⟨hboth, hneither⟩ := @smallerDeepCost_exact _ _ _ _ limit _ _ (limit + 1) 64
    hcost hother (by omega) (by omega)
  have hnode := (look left).one_le_nodeCost
  refine ⟨cost, other, found, smaller, hcost, hother, hfound, htotal, ?_, ?_, hsmaller, hsum, ?_, ?_,
    by omega, by omega⟩
  · rw [htotal]
    exact hwithin
  · rw [htotal]
    exact hmore
  · rw [hsum]
    exact hboth
  · rw [hsum]
    exact hneither

end

namespace Shared

/-- A list that holds one text twice. -/
def reads : Value Nat → Shape Nat
  | .obj 1 => .seq .list [.obj 0, .obj 0]
  | _ => .str "tag"

theorem acyclic (value : Value Nat) : Acyclic reads value := by
  have htext : Acyclic reads (.obj 0) := .intro _ fun child hmem => nomatch hmem
  constructor
  intro child hmem
  cases value with
  | obj index =>
    match index with
    | 1 =>
      have hchild : child = .obj 0 := by
        rcases List.mem_cons.mp hmem with hhead | hrest
        · exact hhead
        · exact List.mem_singleton.mp hrest
      rw [hchild]
      exact htext
    | 0 | _ + 2 => cases hmem
  | closure _ | callback _ => cases hmem

theorem dictsMatch : DictsMatch reads := by
  intro value keys values hlook
  unfold reads at hlook
  split at hlook <;> cases hlook

theorem walks_exact_shared : ∃ cost other found smaller,
    ExactCost reads (.obj 1) cost ∧ ExactCost reads (.obj 0) other ∧
    walk reads (.obj 1) 10 = some found ∧ found.total = deepCost reads (.obj 1) 10 ∧
    (cost ≤ 10 → found.total = cost) ∧ (10 < cost → 10 < found.total) ∧
    smallerLoop reads (.obj 1) (.obj 0) 10 (10 + 1) 64 0 = some smaller ∧
    smaller.total = smallerDeepCost reads (.obj 1) (.obj 0) 10 (10 + 1) 64 ∧
    (min cost other ≤ 10 → smaller.total = min cost other) ∧
    (10 < min cost other → 10 < smaller.total) ∧
    found.met ≤ 768 * (10 + (reads (.obj 1)).nodeCost) ∧
    smaller.met ≤ 768 * (10 + (reads (.obj 1)).nodeCost) :=
  walks_exact dictsMatch (acyclic _) (acyclic _) 10

end Shared

end Atlantide.Lang
