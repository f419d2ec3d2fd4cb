import Atlantide.Lang.Interp

/-! # Binding as Python binds

What Python's compiler makes of an assignment target is a tree of stores: names, subscripts, and
sequences that are unpacked, with a starred element or without one. Python reads an item for each
element of a sequence and looks once more for the end. Where an element is starred it reads all
items, deals them out to the elements before the star from the front and to those after it from the
back, and makes a list of what is left. The interpreter works with indices and slices instead, and
ends in the same state with the same outcome, whatever is iterated and however deep the nesting.

A call fills the slots of the parameters: positional arguments from the left, each keyword the slot
of its name, defaults what is still empty. -/

namespace Atlantide.Lang

open Metered

variable {A X H N : Type} {α β : Type}

/-! ## Targets -/

/-- An assignment target with one star a level at most, as a tuple or in brackets. -/
inductive Target where
  | name (ident : String)
  | subscript (container key : Expr)
  | sequence (bracketed : Bool) (elts : List Target)
  | starred (bracketed : Bool) (before : List Target) (rest : Target) (after : List Target)

/-- The node of a tuple or a list. -/
def display (bracketed : Bool) (elts : List Expr) : Expr :=
  if bracketed then .list elts else .tuple elts

namespace Target

mutual

def expr : Target → Expr
  | name ident => .name ident
  | subscript container key => .subscript container key
  | sequence bracketed elts => display bracketed (exprs elts)
  | starred bracketed before rest after =>
    display bracketed (exprs before ++ .starred rest.expr :: exprs after)

def exprs : List Target → List Expr
  | [] => []
  | target :: rest => target.expr :: exprs rest

end

end Target

/-- Each target with the next item, and the items that are left. -/
def deal : List β → List α → Option (List (β × α) × List α)
  | [], items => some ([], items)
  | _ :: _, [] => none
  | target :: targets, item :: items =>
    (deal targets items).map fun dealt => ((target, item) :: dealt.1, dealt.2)

/-- The items of the targets before a star and after it, and those between. -/
def dealAround (before after : List β) (items : List α) :
    Option (List (β × α) × List α × List (β × α)) := do
  let (front, left) ← deal before items
  let (back, middle) ← deal after.reverse left.reverse
  some (front, middle.reverse, back.reverse)

section Unpacking

variable (runtime : Runtime A X H N)

/-- `UNPACK_SEQUENCE`: an item for each of `count` elements, `left` of them still to be read, and then
the end. -/
def readEach (ev : Evaluator A X H N) (iterator : Value A) (count : Nat) :
    Nat → Run A X H N (List (Value A))
  | 0 => do
    let next ← nextItem runtime ev iterator
    match next with
    | none => pure []
    | some _ => refuse (.tooManyToUnpack count)
  | left + 1 => do
    let next ← nextItem runtime ev iterator
    match next with
    | none => refuse (.notEnoughToUnpack count (count - (left + 1)))
    | some item => do
      let rest ← readEach ev iterator count left
      pure (item :: rest)

/-- The items up to the end. Each one costs a step. -/
def readAll (ev : Evaluator A X H N) (iterator : Value A) : Run A X H N (List (Value A)) :=
  foldItems runtime ev iterator (fun item items => do
    tick runtime 1
    pure (items ++ [item])) []

/-- `UNPACK_EX`: the elements before the star and after it with their items, and the list of the items
between. -/
def readAround (ev : Evaluator A X H N) (iterator : Value A) (before after : List Target) :
    Run A X H N (List (Target × Value A) × Value A × List (Target × Value A)) := do
  let items ← readAll runtime ev iterator
  match dealAround before after items with
  | none => refuse (.notEnoughAtLeast (before.length + after.length) items.length)
  | some (front, middle, back) => do
    let list ← prim runtime ev .list middle
    pure (front, list, back)

/-- Python's assignment to a target. `opening` opens an iterator over a value, and a starred element,
which is a node of its own, takes a level of nesting. -/
def Target.assign (opening : Evaluator A X H N → Value A → Run A X H N (Value A)) :
    Nat → Target → Value A → Nat → Run A X H N Unit
  | 0, _, _, _ => unfinished
  | _ + 1, .name ident, value, scope => update (·.assign scope ident value)
  | depth + 1, .subscript container key, value, scope => do
    let (container, key) ← Lang.subscript runtime (evaluator runtime depth) container key scope
    let _ ← prim runtime (evaluator runtime depth) .setItem [container, key, value]
    pure ()
  | depth + 1, .sequence _ elts, value, scope => do
    let iterator ← opening (evaluator runtime depth) value
    let items ← readEach runtime (evaluator runtime depth) iterator elts.length elts.length
    let _ ← each (fun pair => assign opening depth pair.1 pair.2 scope) (elts.zip items)
    pure ()
  | depth + 1, .starred _ before rest after, value, scope => do
    let iterator ← opening (evaluator runtime depth) value
    let (front, list, back) ← readAround runtime (evaluator runtime depth) iterator before after
    let _ ← each (fun pair => assign opening depth pair.1 pair.2 scope) front
    match depth with
    | 0 => unfinished
    | inner + 1 => assign opening inner rest list scope
    let _ ← each (fun pair => assign opening depth pair.1 pair.2 scope) back
    pure ()

end Unpacking

/-! ## Unpacking -/

theorem Target.exprs_eq_map (targets : List Target) : exprs targets = targets.map expr := by
  induction targets with
  | nil => rfl
  | cons target rest ih => simp only [exprs, ih, List.map_cons]

theorem Target.isStarred_expr (target : Target) : target.expr.isStarred = false := by
  cases target with
  | name ident => rfl
  | subscript container key => rfl
  | sequence bracketed elts => cases bracketed <;> rfl
  | starred bracketed before rest after => cases bracketed <;> rfl

theorem Target.any_isStarred (targets : List Target) :
    (exprs targets).any Expr.isStarred = false := by
  rw [exprs_eq_map, List.any_map, List.any_eq_false]
  intro target _
  simp [isStarred_expr target]

theorem Target.countP_isStarred (targets : List Target) :
    (exprs targets).countP Expr.isStarred = 0 := by
  rw [List.countP_eq_zero]
  exact List.any_eq_false.mp (any_isStarred targets)

theorem deal_eq (targets : List β) (items : List α) :
    deal targets items =
      if targets.length ≤ items.length then
        some (targets.zip items, items.drop targets.length)
      else none := by
  induction targets generalizing items with
  | nil => simp [deal]
  | cons target targets ih =>
    cases items with
    | nil => simp [deal]
    | cons item items =>
      rw [deal, ih]
      by_cases hle : targets.length ≤ items.length <;> simp [hle]

theorem zip_reverse_reverse (targets : List β) (items : List α)
    (hle : targets.length ≤ items.length) :
    (targets.reverse.zip items.reverse).reverse =
      targets.zip (items.drop (items.length - targets.length)) := by
  have htake : targets.reverse.zip items.reverse =
      targets.reverse.zip (items.drop (items.length - targets.length)).reverse := by
    rw [List.reverse_drop, Nat.sub_sub_self hle]
    have hlength : targets.reverse.length = targets.length := List.length_reverse
    conv_lhs => rw [← List.take_append_drop targets.length items.reverse]
    rw [← List.append_nil targets.reverse, List.zip_append, List.zip_nil_left, List.append_nil]
    · simp
    · simp [hle]
  rw [htake, List.zip_eq_zipWith, List.zip_eq_zipWith, ← List.reverse_zipWith]
  · rw [List.reverse_reverse]
  · rw [List.length_drop]
    omega

/-- Dealing from both ends is slicing by indices. -/
theorem dealAround_eq (before after : List β) (items : List α) :
    dealAround before after items =
      if items.length < before.length + after.length then none
      else some (before.zip items,
        (items.take (items.length - after.length)).drop before.length,
        after.zip (items.drop (items.length - after.length))) := by
  unfold dealAround
  rw [deal_eq]
  by_cases hbefore : before.length ≤ items.length
  · rw [if_pos hbefore]
    simp only [Option.bind_eq_bind, Option.bind_some]
    rw [deal_eq]
    simp only [List.length_reverse, List.length_drop]
    by_cases hafter : after.length ≤ items.length - before.length
    · rw [if_pos hafter, if_neg (by omega)]
      simp only [Option.bind_some, Option.some.injEq, Prod.mk.injEq, true_and]
      constructor
      · rw [List.drop_reverse, List.reverse_reverse, List.length_drop, List.drop_take]
        congr 1
        omega
      · rw [zip_reverse_reverse _ _ (by rw [List.length_drop]; exact hafter), List.drop_drop,
          List.length_drop]
        congr 2
        omega
    · rw [if_neg hafter, if_pos (by omega)]
      rfl
  · rw [if_neg hbefore, if_pos (by omega)]
    rfl

section

variable {runtime : Runtime A X H N} {ev : Evaluator A X H N}

/-- Reading one item more than there are elements and counting tells what reading one for each and
looking for the end does. -/
theorem readEach_eq (runtime : Runtime A X H N) (ev : Evaluator A X H N) (iterator : Value A)
    (left got : Nat) : (do
      let items ← takeItems runtime ev iterator (left + 1)
      if left < items.length then refuse (.tooManyToUnpack (got + left))
      else if items.length < left then
        refuse (.notEnoughToUnpack (got + left) (got + items.length))
      else pure items : Run A X H N (List (Value A))) =
      readEach runtime ev iterator (got + left) left := by
  induction left generalizing got with
  | zero =>
    simp only [takeItems, readEach, bind_assoc]
    refine bind_congr fun next => ?_
    cases next <;> simp
  | succ left ih =>
    simp only [readEach]
    rw [takeItems]
    simp only [bind_assoc]
    refine bind_congr fun next => ?_
    cases next with
    | none => simp
    | some item =>
      have hcount : got + (left + 1) = got + 1 + left := by omega
      simp only [bind_assoc, pure_bind]
      rw [hcount, ← ih (got + 1), bind_assoc]
      refine bind_congr fun items => ?_
      simp only [List.length_cons, Nat.add_lt_add_iff_right]
      by_cases hmore : left < items.length
      · simp only [if_pos hmore]
        rfl
      · simp only [if_neg hmore]
        by_cases hless : items.length < left
        · simp only [if_pos hless]
          rw [show got + (items.length + 1) = got + 1 + items.length by omega]
          rfl
        · simp only [if_neg hless, pure_bind]

theorem unpack_sequence (elts : List Target) (value : Value A) :
    unpack runtime ev (Target.exprs elts) value = (do
      let iterator ← iter runtime ev value
      readEach runtime ev iterator elts.length elts.length) := by
  have hlength : (Target.exprs elts).length = elts.length := by
    rw [Target.exprs_eq_map, List.length_map]
  unfold unpack
  refine bind_congr fun iterator => ?_
  have hread := readEach_eq runtime ev iterator elts.length 0
  rw [if_pos (by simp [Target.any_isStarred]), hlength]
  simpa only [Nat.zero_add] using hread

theorem unpack_starred (before after : List Target) (rest : Expr) (value : Value A) :
    unpack runtime ev (Target.exprs before ++ .starred rest :: Target.exprs after) value = (do
      let iterator ← iter runtime ev value
      let items ← readAll runtime ev iterator
      if items.length < before.length + after.length then
        refuse (.notEnoughAtLeast (before.length + after.length) items.length)
      else
        let list ← prim runtime ev .list
          ((items.take (items.length - after.length)).drop before.length)
        pure (items.take before.length ++ [list] ++ items.drop (items.length - after.length))) := by
  have hbefore : (Target.exprs before).length = before.length := by
    rw [Target.exprs_eq_map, List.length_map]
  have hafter : (Target.exprs after).length = after.length := by
    rw [Target.exprs_eq_map, List.length_map]
  have hstar : (Target.exprs before ++ .starred rest :: Target.exprs after).any
      Expr.isStarred = true := by
    simp [Expr.isStarred]
  have hone : (Target.exprs before ++ .starred rest :: Target.exprs after).countP
      Expr.isStarred = 1 := by
    rw [List.countP_append, List.countP_cons_of_pos rfl, Target.countP_isStarred,
      Target.countP_isStarred]
  have hplace : (Target.exprs before ++ .starred rest :: Target.exprs after).findIdx
      Expr.isStarred = before.length := by
    rw [List.findIdx_append, List.findIdx_cons, hbefore]
    have hnone : (Target.exprs before).findIdx Expr.isStarred = before.length := by
      rw [← hbefore, List.findIdx_eq_length]
      intro elt hmem
      exact Bool.eq_false_iff.mpr (List.any_eq_false.mp (Target.any_isStarred before) elt hmem)
    simp [Expr.isStarred, hnone]
  have hcount : (Target.exprs before ++ .starred rest :: Target.exprs after).length - 1 =
      before.length + after.length := by
    rw [List.length_append, List.length_cons, hbefore, hafter]
    rfl
  unfold unpack
  refine bind_congr fun iterator => ?_
  rw [if_neg (by simp [hstar]), if_neg (by omega)]
  refine bind_congr fun items => ?_
  simp only [hplace, hcount, Nat.add_sub_cancel_left]

theorem each_zip_append {before after : List Expr} {front back : List (Value A)} {elt : Expr}
    {item : Value A} (store : Expr × Value A → Run A X H N Unit)
    (hfront : before.length = front.length) :
    (do
      let _ ← each store ((before ++ elt :: after).zip (front ++ [item] ++ back))
      pure ()) = (do
      let _ ← each store (before.zip front)
      store (elt, item)
      let _ ← each store (after.zip back)
      pure ()) := by
  rw [List.append_assoc, List.zip_append hfront, each_append]
  simp only [List.singleton_append, List.zip_cons_cons, each, bind_assoc, pure_bind]

end

/-- **A target is bound as Python binds it.** -/
theorem bind_expr (runtime : Runtime A X H N) (depth : Nat) (target : Target) (value : Value A)
    (scope : Nat) : (evaluator runtime depth).bind target.expr value scope =
      target.assign runtime (iter runtime) depth value scope := by
  induction depth using Nat.strongRecOn generalizing target value with
  | ind depth ih =>
    cases depth with
    | zero => rfl
    | succ depth =>
      have hstore (targets : List Target) (items : List (Value A)) :
          each (fun pair => (evaluator runtime depth).bind pair.1 pair.2 scope)
            ((Target.exprs targets).zip items) =
          each (fun pair => Target.assign runtime (iter runtime) depth pair.1 pair.2 scope)
            (targets.zip items) := by
        rw [Target.exprs_eq_map, List.zip_map_left, each_map]
        congr 1
        funext pair
        exact ih depth (Nat.lt_succ_self depth) pair.1 pair.2
      cases target with
      | name ident => rfl
      | subscript container key => rfl
      | sequence bracketed elts =>
        have hunpack : (evaluator runtime (depth + 1)).bind
            (Target.sequence bracketed elts).expr value scope = (do
              let items ← unpack runtime (evaluator runtime depth) (Target.exprs elts) value
              let _ ← each (fun pair => (evaluator runtime depth).bind pair.1 pair.2 scope)
                ((Target.exprs elts).zip items)
              pure ()) := by
          cases bracketed <;> rfl
        rw [hunpack, unpack_sequence]
        simp only [hstore, bind_assoc, Target.assign]
      | starred bracketed before rest after =>
        have hunpack : (evaluator runtime (depth + 1)).bind
            (Target.starred bracketed before rest after).expr value scope = (do
              let items ← unpack runtime (evaluator runtime depth)
                (Target.exprs before ++ .starred rest.expr :: Target.exprs after) value
              let _ ← each (fun pair => (evaluator runtime depth).bind pair.1 pair.2 scope)
                ((Target.exprs before ++ .starred rest.expr :: Target.exprs after).zip items)
              pure ()) := by
          cases bracketed <;> rfl
        have hstar (list : Value A) :
            (evaluator runtime depth).bind (.starred rest.expr) list scope =
            match depth with
            | 0 => unfinished
            | inner + 1 => Target.assign runtime (iter runtime) inner rest list scope := by
          cases depth with
          | zero => rfl
          | succ inner => exact ih inner (by omega) rest list
        rw [hunpack, unpack_starred]
        simp only [Target.assign, readAround, bind_assoc]
        refine bind_congr fun iterator => bind_congr fun items => ?_
        rw [dealAround_eq]
        by_cases hfew : items.length < before.length + after.length
        · simp only [if_pos hfew]
          rfl
        · have hfront : (Target.exprs before).length = (items.take before.length).length := by
            rw [Target.exprs_eq_map, List.length_map, List.length_take]
            omega
          have htake : before.zip items = before.zip (items.take before.length) := by
            rw [List.zip_eq_zip_take_min, Nat.min_eq_left (by omega), List.take_length]
          simp only [if_neg hfew, bind_assoc, pure_bind]
          refine bind_congr fun list => ?_
          rw [each_zip_append _ hfront]
          simp only [hstore, hstar, htake]
          refine bind_congr fun _ => ?_
          cases depth <;> rfl

/-! ## Parameters -/

/-- A call of a function: a function has each parameter once and no more defaults than parameters,
and a call each keyword once. -/
structure Call (A : Type) where
  closure : Closure A
  args : List (Value A)
  kwargs : List (String × Value A)
  params_nodup : closure.params.Nodup
  defaults_le : closure.defaults.length ≤ closure.params.length
  kwargs_nodup : (kwargs.map Prod.fst).Nodup

theorem nodup_setKeyword {kwargs : List (String × Value A)} (hnodup : (kwargs.map Prod.fst).Nodup)
    (pair : String × Value A) : ((setKeyword kwargs pair).map Prod.fst).Nodup := by
  unfold setKeyword
  split
  · have hsame : (kwargs.map fun old => if old.1 = pair.1 then pair else old).map Prod.fst =
        kwargs.map Prod.fst := by
      rw [List.map_map]
      refine List.map_congr_left fun old _ => ?_
      by_cases hold : old.1 = pair.1 <;> simp [hold]
    rw [hsame]
    exact hnodup
  · rename_i hnone
    rw [List.map_append, List.nodup_append]
    refine ⟨hnodup, List.pairwise_singleton _ _, ?_⟩
    rintro name hname other hother rfl
    obtain ⟨old, hold, hkey⟩ := List.mem_map.mp hname
    rw [List.map_singleton, List.mem_singleton] at hother
    exact hnone (List.any_eq_true.mpr ⟨old, hold, by simp [hkey, hother]⟩)

theorem nodup_foldl_setKeyword (kwargs : List (String × Value A))
    (hnodup : (kwargs.map Prod.fst).Nodup) (pairs : List (String × Value A)) :
    ((pairs.foldl setKeyword kwargs).map Prod.fst).Nodup := by
  induction pairs generalizing kwargs with
  | nil => exact hnodup
  | cons pair pairs ih => exact ih _ (nodup_setKeyword hnodup pair)

/-- The keywords that a call evaluates are a dict. -/
theorem callArgs_nodup (runtime : Runtime A X H N) (ev : Evaluator A X H N) (args : List Expr)
    (keywords : List (Option String)) (values : List Expr) (scope : Nat) :
    Yields (fun called => (called.2.map Prod.fst).Nodup)
      (callArgs runtime ev args keywords values scope) := by
  refine .bind (.trivial _) fun args _ => ?_
  split
  · exact nofun
  · refine .bind (.trivial _) fun values _ => .pure ?_
    exact nodup_foldl_setKeyword [] List.nodup_nil _

/-- A parameter and what is in its slot. -/
abbrev Slot (A : Type) := String × Option (Value A)

/-- Positional arguments fill the slots from the left. A `TypeError` is `none`, here and below: there
are more arguments than slots. -/
def fillPositional : List String → List (Value A) → Option (List (Slot A))
  | [], [] => some []
  | [], _ :: _ => none
  | param :: params, args => do
    let rest ← fillPositional params args.tail
    some ((param, args.head?) :: rest)

/-- A keyword fills the slot of its name: there has to be one, and it has to be empty. -/
def fillKeyword : List (Slot A) → String × Value A → Option (List (Slot A))
  | [], _ => none
  | (param, slot) :: slots, (name, value) =>
    if param = name then
      if slot.isSome then none else some ((param, some value) :: slots)
    else do
      let rest ← fillKeyword slots (name, value)
      some ((param, slot) :: rest)

/-- A slot that is still empty takes the default of its parameter, if it has one. -/
def fillDefaults : List (Slot A) → List (Option (Value A)) → Option (List (String × Value A))
  | (param, slot) :: slots, default :: defaults => do
    let value ← slot.or default
    let rest ← fillDefaults slots defaults
    some ((param, value) :: rest)
  | _, _ => some []

/-- The default of each parameter: the last ones have them. -/
def alignedDefaults (closure : Closure A) : List (Option (Value A)) :=
  List.replicate (closure.params.length - closure.defaults.length) none ++
    closure.defaults.map some

/-- What Python binds the parameters of a call to. -/
def Call.bound (call : Call A) : Option (List (String × Value A)) := do
  let slots ← fillPositional call.closure.params call.args
  let slots ← call.kwargs.foldlM fillKeyword slots
  fillDefaults slots (alignedDefaults call.closure)

theorem fillPositional_of_lt {params : List String} {args : List (Value A)}
    (hlt : params.length < args.length) : fillPositional params args = none := by
  induction params generalizing args with
  | nil =>
    cases args with
    | nil => exact absurd hlt (Nat.lt_irrefl 0)
    | cons arg args => rfl
  | cons param params ih =>
    cases args with
    | nil => exact absurd hlt (Nat.not_lt_zero _)
    | cons arg args =>
      rw [fillPositional, List.tail_cons, ih (Nat.lt_of_succ_lt_succ hlt)]
      rfl

theorem fillPositional_nil (params : List String) :
    fillPositional params ([] : List (Value A)) = some (params.map fun param => (param, none)) := by
  induction params with
  | nil => rfl
  | cons param params ih =>
    rw [fillPositional, List.tail_nil, ih]
    rfl

theorem fillPositional_append {before : List String} (after : List String) {args : List (Value A)}
    (hlength : before.length = args.length) :
    fillPositional (before ++ after) args =
      some ((before.zip args).map (fun pair => (pair.1, some pair.2)) ++
        after.map fun param => (param, none)) := by
  induction before generalizing args with
  | nil =>
    cases args with
    | nil => exact fillPositional_nil after
    | cons arg args => cases hlength
  | cons param before ih =>
    cases args with
    | nil => cases hlength
    | cons arg args =>
      rw [List.cons_append, fillPositional, List.tail_cons, ih (Nat.succ_inj.mp hlength)]
      rfl

theorem fillDefaults_nil (defaults : List (Option (Value A))) :
    fillDefaults [] defaults = some [] := by
  cases defaults <;> rfl

/-- Slots that are filled keep what they hold. -/
theorem fillDefaults_append {params : List String} {args : List (Value A)} (slots : List (Slot A))
    {before : List (Option (Value A))} (after : List (Option (Value A)))
    (hargs : params.length = args.length) (hbefore : before.length = params.length) :
    fillDefaults ((params.zip args).map (fun pair => (pair.1, some pair.2)) ++ slots)
      (before ++ after) = (fillDefaults slots after).map fun bound => params.zip args ++ bound := by
  induction params generalizing args before with
  | nil =>
    rw [List.eq_nil_of_length_eq_zero hbefore]
    simp
  | cons param params ih =>
    cases args with
    | nil => cases hargs
    | cons arg args =>
      cases before with
      | nil => cases hbefore
      | cons default before =>
        rw [List.zip_cons_cons, List.map_cons, List.cons_append, List.cons_append, fillDefaults,
          ih (Nat.succ_inj.mp hargs) (Nat.succ_inj.mp hbefore)]
        cases fillDefaults slots after with
        | none => rfl
        | some bound => rfl

section Keywords

variable {filled : List (Slot A)} {name : String} {value : Value A}

/-- A keyword of a slot that is still open. -/
theorem fillKeyword_of_mem (hfilled : name ∉ filled.map Prod.fst) {params : List String}
    (hnodup : params.Nodup) (hmem : name ∈ params) {found : String → Option (Value A)}
    (hnone : found name = none) :
    fillKeyword (filled ++ params.map fun param => (param, found param)) (name, value) =
      some (filled ++ params.map fun param =>
        (param, if param = name then some value else found param)) := by
  induction filled with
  | nil =>
    induction params with
    | nil => cases hmem
    | cons param params ih =>
      have hparam := List.nodup_cons.mp hnodup
      simp only [List.nil_append, List.map_cons, fillKeyword] at ih ⊢
      by_cases hname : param = name
      · subst hname
        have hsame : params.map (fun other => (other, found other)) =
            params.map fun other => (other, if other = param then some value else found other) := by
          refine List.map_congr_left fun other hother => ?_
          rw [if_neg]
          rintro rfl
          exact hparam.1 hother
        simp [hnone, hsame]
      · have hmem' : name ∈ params := by
          rcases List.mem_cons.mp hmem with heq | hmem'
          · exact absurd heq.symm hname
          · exact hmem'
        rw [if_neg hname, ih hparam.2 hmem', if_neg hname]
        rfl
  | cons slot filled ih =>
    obtain ⟨param, held⟩ := slot
    simp only [List.map_cons, List.mem_cons, not_or] at hfilled
    rw [List.cons_append, fillKeyword, if_neg (Ne.symm hfilled.1), ih hfilled.2]
    rfl

/-- A keyword that names no slot, or one that positional arguments have filled. -/
theorem fillKeyword_of_not_mem (hfull : ∀ slot ∈ filled, slot.2.isSome) {params : List String}
    (hmem : name ∉ params) (found : String → Option (Value A)) :
    fillKeyword (filled ++ params.map fun param => (param, found param)) (name, value) = none := by
  induction filled with
  | nil =>
    induction params with
    | nil => rfl
    | cons param params ih =>
      simp only [List.mem_cons, not_or] at hmem
      simp only [List.nil_append, List.map_cons, fillKeyword] at ih ⊢
      rw [if_neg (Ne.symm hmem.1), ih hmem.2]
      rfl
  | cons slot filled ih =>
    obtain ⟨param, held⟩ := slot
    have hheld : held.isSome := hfull (param, held) List.mem_cons_self
    rw [List.cons_append, fillKeyword,
      ih fun slot hslot => hfull slot (List.mem_cons_of_mem _ hslot)]
    by_cases hname : param = name
    · rw [if_pos hname, if_pos hheld]
    · rw [if_neg hname]
      rfl

/-- Keywords that all name open slots fill them. -/
theorem foldlM_fillKeyword {params : List String} (hnodup : params.Nodup)
    (hfilled : ∀ param ∈ params, param ∉ filled.map Prod.fst) {kwargs : List (String × Value A)}
    (hkwargs : (kwargs.map Prod.fst).Nodup) (hmem : ∀ pair ∈ kwargs, pair.1 ∈ params)
    (found : String → Option (Value A)) (hnone : ∀ pair ∈ kwargs, found pair.1 = none) :
    kwargs.foldlM fillKeyword (filled ++ params.map fun param => (param, found param)) =
      some (filled ++ params.map fun param => (param, (kwargs.lookup param).or (found param))) := by
  induction kwargs generalizing found with
  | nil => rfl
  | cons pair kwargs ih =>
    obtain ⟨name, value⟩ := pair
    have hname : name ∈ params := hmem _ List.mem_cons_self
    have hfresh := List.nodup_cons.mp hkwargs
    have hother : ∀ pair ∈ kwargs, pair.1 ≠ name := by
      rintro pair hpair rfl
      exact hfresh.1 (List.mem_map.mpr ⟨pair, hpair, rfl⟩)
    rw [List.foldlM_cons, fillKeyword_of_mem (hfilled name hname) hnodup hname
      (hnone _ List.mem_cons_self), Option.bind_eq_bind, Option.bind_some,
      ih hfresh.2 (fun pair hpair => hmem pair (List.mem_cons_of_mem _ hpair))]
    · congr 2
      refine List.map_congr_left fun param _ => ?_
      rw [List.lookup_cons]
      by_cases heq : param = name
      · subst heq
        have hlookup : kwargs.lookup param = none := by
          rw [List.lookup_eq_none_iff]
          exact fun pair hpair => bne_iff_ne.mpr (Ne.symm (hother pair hpair))
        simp [hlookup]
      · rw [if_neg heq, beq_false_of_ne heq]
    · intro pair hpair
      rw [if_neg (hother pair hpair)]
      exact hnone pair (List.mem_cons_of_mem _ hpair)

/-- One keyword that names no open slot is enough for a refusal. -/
theorem foldlM_fillKeyword_of_not_mem {params : List String} (hnodup : params.Nodup)
    (hfilled : ∀ param ∈ params, param ∉ filled.map Prod.fst)
    (hfull : ∀ slot ∈ filled, slot.2.isSome) {kwargs : List (String × Value A)}
    (hkwargs : (kwargs.map Prod.fst).Nodup) (hmem : ∃ pair ∈ kwargs, pair.1 ∉ params)
    (found : String → Option (Value A)) (hnone : ∀ pair ∈ kwargs, found pair.1 = none) :
    kwargs.foldlM fillKeyword (filled ++ params.map fun param => (param, found param)) = none := by
  induction kwargs generalizing found with
  | nil =>
    obtain ⟨pair, hpair, -⟩ := hmem
    cases hpair
  | cons pair kwargs ih =>
    obtain ⟨name, value⟩ := pair
    have hfresh := List.nodup_cons.mp hkwargs
    have hother : ∀ pair ∈ kwargs, pair.1 ≠ name := by
      rintro pair hpair rfl
      exact hfresh.1 (List.mem_map.mpr ⟨pair, hpair, rfl⟩)
    rw [List.foldlM_cons]
    by_cases hname : name ∈ params
    · have hmem' : ∃ pair ∈ kwargs, pair.1 ∉ params := by
        obtain ⟨other, hother, hnot⟩ := hmem
        rcases List.mem_cons.mp hother with rfl | hother
        · exact absurd hname hnot
        · exact ⟨other, hother, hnot⟩
      rw [fillKeyword_of_mem (hfilled name hname) hnodup hname (hnone _ List.mem_cons_self),
        Option.bind_eq_bind, Option.bind_some, ih hfresh.2 hmem']
      intro pair hpair
      rw [if_neg (hother pair hpair)]
      exact hnone pair (List.mem_cons_of_mem _ hpair)
    · rw [fillKeyword_of_not_mem hfull hname]
      rfl

end Keywords

theorem lookup_filter_ne (kwargs : List (String × Value A)) {param other : String}
    (hne : other ≠ param) : (kwargs.filter (·.1 ≠ param)).lookup other = kwargs.lookup other := by
  induction kwargs with
  | nil => rfl
  | cons pair kwargs ih =>
    obtain ⟨name, value⟩ := pair
    by_cases hname : name = param
    · rw [List.filter_cons_of_neg (by simpa using hname), ih, List.lookup_cons,
        beq_false_of_ne (hname ▸ hne)]
    · rw [List.filter_cons_of_pos (by simpa using hname), List.lookup_cons, List.lookup_cons, ih]

section Loop

variable (function : String) (required : Nat) (defaults : List (Value A))

/-- The loop takes positional arguments while there are some. -/
theorem bindParamsFrom_append {before : List String} (after : List String) {args : List (Value A)}
    (kwargs vars : List (String × Value A)) (i : Nat) (hlength : before.length = args.length) :
    bindParamsFrom function required defaults i (before ++ after) args kwargs vars =
      bindParamsFrom function required defaults (i + before.length) after [] kwargs
        ((before.zip args).reverse ++ vars) := by
  induction before generalizing args vars i with
  | nil =>
    cases args with
    | nil => rfl
    | cons arg args => cases hlength
  | cons param before ih =>
    cases args with
    | nil => cases hlength
    | cons arg args =>
      rw [List.cons_append, bindParamsFrom, ih _ _ (Nat.succ_inj.mp hlength)]
      simp [Nat.add_comm, Nat.add_left_comm]

/-- Without positional arguments each parameter takes its keyword or its default. -/
theorem bindParamsFrom_nil {params : List String} (hnodup : params.Nodup)
    (kwargs vars : List (String × Value A)) (i : Nat) (aligned : List (Option (Value A)))
    (haligned : ∀ j, j < params.length →
      aligned[j]? = some (if required ≤ i + j then defaults[i + j - required]? else none)) :
    (bindParamsFrom function required defaults i params [] kwargs vars).toOption =
      (fillDefaults (params.map fun param => (param, kwargs.lookup param)) aligned).map fun bound =>
        (bound.reverse ++ vars, kwargs.filter fun pair => pair.1 ∉ params) := by
  induction params generalizing kwargs vars i aligned with
  | nil =>
    rw [List.map_nil, fillDefaults_nil]
    simp [bindParamsFrom, Except.toOption]
  | cons param params ih =>
    obtain ⟨hparam, hparams⟩ := List.nodup_cons.mp hnodup
    cases aligned with
    | nil =>
      have hnone := haligned 0 (Nat.zero_lt_succ _)
      cases hnone
    | cons default aligned =>
      have hdefault : default = if required ≤ i then defaults[i - required]? else none := by
        have hzero := haligned 0 (Nat.zero_lt_succ _)
        simpa using hzero
      have htail : ∀ j, j < params.length → aligned[j]? =
          some (if required ≤ i + 1 + j then defaults[i + 1 + j - required]? else none) := by
        intro j hj
        have hsucc := haligned (j + 1) (Nat.succ_lt_succ hj)
        rw [List.getElem?_cons_succ, show i + (j + 1) = i + 1 + j by omega] at hsucc
        exact hsucc
      have hfound (value : Value A) (left : List (String × Value A))
          (hlookup : ∀ other ∈ params, left.lookup other = kwargs.lookup other)
          (hleft : left.filter (fun pair => pair.1 ∉ params) =
            kwargs.filter fun pair => pair.1 ∉ param :: params) :
          (bindParamsFrom function required defaults (i + 1) params [] left
            ((param, value) :: vars)).toOption =
          ((fillDefaults (params.map fun other => (other, kwargs.lookup other)) aligned).bind
            fun rest => some ((param, value) :: rest)).map fun bound =>
              (bound.reverse ++ vars, kwargs.filter fun pair => pair.1 ∉ param :: params) := by
        have hsame : (params.map fun other => (other, left.lookup other)) =
            params.map fun other => (other, kwargs.lookup other) :=
          List.map_congr_left fun other hother => by rw [hlookup other hother]
        rw [ih hparams left _ (i + 1) aligned htail, hsame, hleft]
        cases fillDefaults (params.map fun other => (other, kwargs.lookup other)) aligned with
        | none => rfl
        | some bound => simp
      rw [List.map_cons, fillDefaults, bindParamsFrom]
      cases hgiven : kwargs.lookup param with
      | some value =>
        have hkept : (kwargs.filter (·.1 ≠ param)).filter (fun pair => pair.1 ∉ params) =
            kwargs.filter fun pair => pair.1 ∉ param :: params := by
          rw [List.filter_filter]
          refine List.filter_congr fun pair _ => ?_
          by_cases hpair : pair.1 = param <;> simp [hpair]
        refine hfound value _ (fun other hother => ?_) hkept
        exact lookup_filter_ne kwargs (fun heq => hparam (heq ▸ hother))
      | none =>
        have hkept : kwargs.filter (fun pair => pair.1 ∉ params) =
            kwargs.filter fun pair => pair.1 ∉ param :: params := by
          refine List.filter_congr fun pair hpair => ?_
          have hne := bne_iff_ne.mp (List.lookup_eq_none_iff.mp hgiven pair hpair)
          simp [Ne.symm hne]
        rw [hdefault]
        cases if required ≤ i then defaults[i - required]? else none with
        | some value => exact hfound value kwargs (fun _ _ => rfl) hkept
        | none => rfl

end Loop

theorem length_alignedDefaults (call : Call A) :
    (alignedDefaults call.closure).length = call.closure.params.length := by
  have hle := call.defaults_le
  rw [alignedDefaults, List.length_append, List.length_replicate, List.length_map]
  omega

theorem getElem?_alignedDefaults (call : Call A) (i : Nat) (hi : i < call.closure.params.length) :
    (alignedDefaults call.closure)[i]? =
      some (if call.closure.params.length - call.closure.defaults.length ≤ i then
        call.closure.defaults[i - (call.closure.params.length - call.closure.defaults.length)]?
      else none) := by
  have hle := call.defaults_le
  rw [alignedDefaults, List.getElem?_append, List.length_replicate]
  by_cases hrequired : call.closure.params.length - call.closure.defaults.length ≤ i
  · rw [if_neg (by omega), if_pos hrequired, List.getElem?_map]
    rw [List.getElem?_eq_getElem (by omega)]
    rfl
  · rw [if_pos (by omega), if_neg hrequired, List.getElem?_replicate, if_pos (by omega)]

theorem toOption_bindParams (closure : Closure A) (args : List (Value A))
    (kwargs : List (String × Value A)) :
    (bindParams closure args kwargs).toOption =
      (bindParamsFrom closure.name (closure.params.length - closure.defaults.length)
        closure.defaults 0 closure.params args kwargs []).toOption.bind fun ended =>
          if closure.params.length < args.length then none
          else if ended.2 = [] then some { parent := some closure.scope, vars := ended.1 }
          else none := by
  unfold bindParams
  dsimp only
  cases bindParamsFrom closure.name (closure.params.length - closure.defaults.length)
    closure.defaults 0 closure.params args kwargs [] with
  | error refusal => rfl
  | ok ended =>
    obtain ⟨vars, left⟩ := ended
    change Except.toOption (if closure.params.length < args.length then _
      else if left ≠ [] then _ else _) = if closure.params.length < args.length then none
        else if left = [] then _ else none
    by_cases hlt : closure.params.length < args.length
    · rw [if_pos hlt, if_pos hlt]
      rfl
    · rw [if_neg hlt, if_neg hlt]
      by_cases hleft : left = []
      · rw [if_neg (not_not_intro hleft), if_pos hleft]
        rfl
      · rw [if_pos hleft, if_neg hleft]
        rfl

/-- **Parameters are bound as Python binds them.** -/
theorem bindParams_eq (call : Call A) :
    (bindParams call.closure call.args call.kwargs).toOption =
      call.bound.map fun vars =>
        ({ parent := some call.closure.scope, vars := vars.reverse } : Scope A) := by
  obtain ⟨closure, args, kwargs, hparams, hdefaults, hkwargs⟩ := call
  have hlength := length_alignedDefaults ⟨closure, args, kwargs, hparams, hdefaults, hkwargs⟩
  have haligned := getElem?_alignedDefaults ⟨closure, args, kwargs, hparams, hdefaults, hkwargs⟩
  simp only at hlength haligned ⊢
  rw [toOption_bindParams]
  unfold Call.bound
  by_cases hlt : closure.params.length < args.length
  · simp only [fillPositional_of_lt hlt, if_pos hlt]
    cases (bindParamsFrom closure.name (closure.params.length - closure.defaults.length)
      closure.defaults 0 closure.params args kwargs []).toOption <;> rfl
  · obtain ⟨before, after, hsplit, hbefore⟩ :
        ∃ before after, closure.params = before ++ after ∧ before.length = args.length :=
      ⟨_, _, (List.take_append_drop args.length closure.params).symm, by
        rw [List.length_take]
        omega⟩
    obtain ⟨unused, aligned, hdealt, hunused⟩ :
        ∃ unused aligned, alignedDefaults closure = unused ++ aligned ∧
          unused.length = before.length :=
      ⟨_, _, (List.take_append_drop args.length (alignedDefaults closure)).symm, by
        rw [List.length_take, hlength, hbefore]
        omega⟩
    rw [hsplit, List.nodup_append] at hparams
    obtain ⟨-, hafter, hdisjoint⟩ := hparams
    have hapart : ∀ param ∈ after,
        param ∉ ((before.zip args).map fun pair => (pair.1, some pair.2)).map Prod.fst := by
      intro param hparam hmem
      rw [List.map_map] at hmem
      obtain ⟨pair, hpair, rfl⟩ := List.mem_map.mp hmem
      exact hdisjoint _ (List.of_mem_zip hpair).1 _ hparam rfl
    have hfull : ∀ slot ∈ (before.zip args).map fun pair => (pair.1, some pair.2),
        slot.2.isSome := by
      intro slot hslot
      obtain ⟨pair, -, rfl⟩ := List.mem_map.mp hslot
      rfl
    have hloop := bindParamsFrom_nil closure.name
      (closure.params.length - closure.defaults.length) closure.defaults
      hafter kwargs ((before.zip args).reverse ++ []) (0 + before.length) aligned (by
        intro j hj
        have hplace := haligned (before.length + j) (by
          rw [hsplit, List.length_append]
          omega)
        rw [hdealt, List.getElem?_append_right (by omega), hunused,
          Nat.add_sub_cancel_left] at hplace
        rw [hplace, Nat.zero_add])
    have hpositional := fillPositional_append after hbefore
    have hfrom := bindParamsFrom_append closure.name
      (closure.params.length - closure.defaults.length) closure.defaults
      after kwargs [] 0 hbefore
    rw [← hsplit] at hpositional hfrom
    simp only [if_neg hlt]
    rw [hfrom, hloop, hpositional, hdealt]
    simp only [Option.bind_eq_bind, Option.bind_some]
    by_cases hnamed : ∀ pair ∈ kwargs, pair.1 ∈ after
    · rw [foldlM_fillKeyword hafter hapart hkwargs hnamed (fun _ => none) fun _ _ => rfl]
      have hnone : kwargs.filter (fun pair => pair.1 ∉ after) = [] := by
        rw [List.filter_eq_nil_iff]
        intro pair hpair
        simp [hnamed pair hpair]
      simp only [Option.bind_some, Option.or_none]
      rw [fillDefaults_append _ _ hbefore hunused]
      cases fillDefaults (after.map fun param => (param, kwargs.lookup param)) aligned with
      | none => rfl
      | some bound =>
        simp only [Option.map_some, Option.bind_some, if_pos hnone, List.append_nil,
          List.reverse_append]
    · have hsurplus : kwargs.filter (fun pair => pair.1 ∉ after) ≠ [] := by
        rw [Ne, List.filter_eq_nil_iff]
        intro hnone
        exact hnamed fun pair hpair => by simpa using hnone pair hpair
      push Not at hnamed
      rw [foldlM_fillKeyword_of_not_mem hafter hapart hfull hkwargs hnamed (fun _ => none)
        fun _ _ => rfl]
      cases fillDefaults (after.map fun param => (param, kwargs.lookup param)) aligned with
      | none => rfl
      | some bound =>
        simp only [Option.map_some, Option.bind_some, if_neg hsurplus]
        rfl

/-- **Binding is Python's.** A target is bound at every depth of nesting as Python binds it, over
the iterators the interpreter opens, and the parameters of a call as Python's rules for positional
arguments, keywords and defaults say; where these refuse, so does the interpreter, and only there. -/
theorem binding_as_python (runtime : Runtime A X H N) :
    (∀ (depth : Nat) (target : Target) (value : Value A) (scope : Nat),
      (evaluator runtime depth).bind target.expr value scope =
        target.assign runtime (iter runtime) depth value scope) ∧
    ∀ call : Call A, (bindParams call.closure call.args call.kwargs).toOption =
      call.bound.map fun vars =>
        ({ parent := some call.closure.scope, vars := vars.reverse } : Scope A) :=
  ⟨bind_expr runtime, bindParams_eq⟩

/-- `iter(value)`, which goes over a set in the order of its hashes. -/
def pythonIter (runtime : Runtime A X H N) (ev : Evaluator A X H N) (value : Value A) :
    Run A X H N (Value A) :=
  prim runtime ev .iter [value]

namespace Alike

inductive Native where
  | sorted
  | iter
  | next

/-- The object 0 is a set of two items that render alike, 3 an iterator over it. The heap counts the
items that were read. -/
def python : Runtime Nat Unit Nat Native where
  literal _ := .obj 9
  shape _ value := if value = .obj 0 then .seq .set [.obj 1, .obj 2] else .leaf .unsized
  callee _ _ := {}
  truth _ _ := .ok true
  item value := if value = .obj 9 then none else some value
  isNone _ := false
  attributeAllowed _ _ _ := false
  unreachable _ _ := false
  envSchema _ := false
  prim op _ := match op with
    | .sortedSet => .sorted
    | .iter => .iter
    | _ => .next
  exit _ _ := .next
  call _ _ _ := .next
  step native heap := match native with
    | .sorted => .done (.error (.native ())) heap
    | .iter => .done (.ok (.obj 3)) 0
    | .next => .done (.ok (.obj (if heap < 2 then heap + 1 else 9))) (heap + 1)
  importAllowed _ := false
  attributeRejected _ := false
  log2 _ := .one 52
  overflow := ()
  printfWidths _ _ := 0

def start : State Nat Unit Nat Native where
  heap := 0
  scopes := [{}]

/-- Python unpacks a set whose elements render alike, and the interpreter refuses it. -/
theorem alike_not_unpacked : ¬ ∀ (runtime : Runtime Nat Unit Nat Native) (depth : Nat)
    (target : Target) (value : Value Nat) (scope allowance : Nat)
    (state : State Nat Unit Nat Native),
    ((evaluator runtime depth).bind target.expr value scope allowance state).1 =
      (target.assign runtime (pythonIter runtime) depth value scope allowance state).1 := by
  intro hall
  have hsame := hall python 2 (.sequence false [.name "a", .name "b"]) (.obj 0) 0 100 start
  have hrefused : ((evaluator python 2).bind
      (Target.sequence false [.name "a", .name "b"]).expr (.obj 0) 0 100 start).1 =
      some (.error (.failure (.native ()))) := by rfl
  have hbound : ((Target.sequence false [.name "a", .name "b"]).assign python (pythonIter python) 2
      (.obj 0) 0 100 start).1 = some (.ok ()) := by rfl
  rw [hrefused, hbound] at hsame
  cases hsame

end Alike

end Atlantide.Lang
