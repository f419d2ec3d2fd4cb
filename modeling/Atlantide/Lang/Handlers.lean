import Atlantide.Lang.Interp

/-! # How handlers are put together

A handler charges, looks at the state, changes what the fuel has nothing to do with, runs natives
and works with the evaluator; the rest is one thing after the other. A property that these keep
holds of every handler, and so of the interpreter with any nesting left. The bodies of user
functions are statements and are left to each property. -/

namespace Atlantide.Lang

open Metered

variable {A X H N : Type} {α β γ δ ι : Type}

/-- A property of computations that is kept by what handlers are put together from. -/
structure Compositional (runtime : Runtime A X H N)
    (P : (α : Type) → Run A X H N α → Prop) : Prop where
  pure : ∀ {α : Type} (value : α), P α (Pure.pure value)
  bind : ∀ {α β : Type} {first : Run A X H N α} {next : α → Run A X H N β}, P α first →
    (∀ value, P β (next value)) → P β (first >>= next)
  unfinished : ∀ {α : Type}, P α unfinished
  failed : ∀ {α : Type} (failure : Failure X), P α (raise (.failure failure))
  inspect : ∀ {α : Type} (view : State A X H N → α), P α (inspect view)
  update : ∀ {change : State A X H N → State A X H N},
    (∀ state, (change state).spent = state.spent ∧ (change state).events = state.events) →
      P Unit (Metered.update change)
  note : ∀ event, P Unit (Metered.update (·.note event))
  charge : ∀ {price : (Value A → Shape A) → Nat → Except (Failure X) Nat},
    (∀ look, Clamped fun left => ((price look left).mapError .failure : Except (Raised A X) Nat)) →
      P Unit (tickOf runtime price)
  resume : ∀ {ev : Evaluator A X H N} {first : Run A X H N (Value A)}
    (resume : Except (Failure X) (Value A) → N), P (Value A) first →
      (∀ native, P (Value A) (runNative runtime ev native)) →
      P (Value A) (do
        let result ← outcome first
        resumeNative runtime ev resume result)

/-- The evaluator has the property wherever a handler uses it. -/
structure Evaluator.Keeps (P : (α : Type) → Run A X H N α → Prop)
    (ev : Evaluator A X H N) : Prop where
  eval : ∀ node scope, P _ (ev.eval node scope)
  bind : ∀ target value scope, P _ (ev.bind target value scope)
  invoke : ∀ index args kwargs, P _ (ev.invoke index args kwargs)
  callNative : ∀ func args kwargs, P _ (ev.callNative func args kwargs)
  drive : ∀ native, P _ (ev.drive native)
  setsAsLists : ∀ value, P _ (ev.setsAsLists value)

/-- What the handlers that read no syntax are put together from: they neither make functions nor say
what happened. -/
structure Composing (runtime : Runtime A X H N)
    (P : (α : Type) → Run A X H N α → Prop) : Prop where
  pure : ∀ {α : Type} (value : α), P α (Pure.pure value)
  bind : ∀ {α β : Type} {first : Run A X H N α} {next : α → Run A X H N β}, P α first →
    (∀ value, P β (next value)) → P β (first >>= next)
  unfinished : ∀ {α : Type}, P α unfinished
  failed : ∀ {α : Type} (failure : Failure X), P α (raise (.failure failure))
  inspect : ∀ {α : Type} (view : State A X H N → α), P α (inspect view)
  setHeap : ∀ heap, P Unit (Metered.update (·.setHeap heap))
  addScope : ∀ scope, P Unit (Metered.update (·.addScope scope))
  charge : ∀ {price : (Value A → Shape A) → Nat → Except (Failure X) Nat},
    (∀ look, Clamped fun left => ((price look left).mapError .failure : Except (Raised A X) Nat)) →
      P Unit (tickOf runtime price)
  resume : ∀ {ev : Evaluator A X H N} {first : Run A X H N (Value A)}
    (resume : Except (Failure X) (Value A) → N), P (Value A) first →
      (∀ native, P (Value A) (runNative runtime ev native)) →
      P (Value A) (do
        let result ← outcome first
        resumeNative runtime ev resume result)

/-- The evaluator has the property wherever no syntax is read. -/
structure Evaluator.Serves (P : (α : Type) → Run A X H N α → Prop)
    (ev : Evaluator A X H N) : Prop where
  invoke : ∀ index args kwargs, P _ (ev.invoke index args kwargs)
  callNative : ∀ func args kwargs, P _ (ev.callNative func args kwargs)
  drive : ∀ native, P _ (ev.drive native)
  setsAsLists : ∀ value, P _ (ev.setsAsLists value)

theorem Compositional.composing {runtime : Runtime A X H N}
    {P : (α : Type) → Run A X H N α → Prop} (hP : Compositional runtime P) :
    Composing runtime P where
  pure := hP.pure
  bind := hP.bind
  unfinished := hP.unfinished
  failed := hP.failed
  inspect := hP.inspect
  setHeap _ := hP.update fun _ => ⟨rfl, rfl⟩
  addScope _ := hP.update fun _ => ⟨rfl, rfl⟩
  charge := hP.charge
  resume := hP.resume

theorem Evaluator.Keeps.serves {P : (α : Type) → Run A X H N α → Prop} {ev : Evaluator A X H N}
    (hev : ev.Keeps P) : ev.Serves P :=
  ⟨hev.invoke, hev.callNative, hev.drive, hev.setsAsLists⟩

/-! ## Prices -/

/-- A price that does not look at what is left. -/
theorem clamped_const {E : Type} (price : Except E Nat) : Clamped (fun _ : Nat => price) := by
  intro less more _
  cases price with
  | error failure => rfl
  | ok cost => exact fun _ => rfl

theorem clamped_of_le {price : Nat → Nat}
    (hprice : ∀ {less more}, less ≤ more → price less ≤ less → price more = price less) :
    Clamped fun left => ((Except.ok (price left) : Except (Failure X) Nat).mapError .failure :
      Except (Raised A X) Nat) := by
  intro less more hle hwithin
  exact congrArg Except.ok (hprice hle hwithin)

/-- An argument whose length cannot be counted costs more than is left. -/
theorem clamped_length (len : Length) :
    Clamped fun left => ((Except.ok (match len with
      | .counted count => count
      | _ => left + 1) : Except (Failure X) Nat).mapError .failure : Except (Raised A X) Nat) := by
  refine clamped_of_le fun {less more} _ hwithin => ?_
  cases len with
  | counted count => rfl
  | unsized => exact absurd hwithin (Nat.not_succ_le_self less)
  | uncountable => exact absurd hwithin (Nat.not_succ_le_self less)

theorem clamped_nativeCallCost (look : Value A → Shape A) (callee : Callee A)
    (args : List (Value A)) (kwargs : List (String × Value A)) :
    Clamped fun left => ((nativeCallCost look callee args kwargs left).mapError .failure :
      Except (Raised A X) Nat) := by
  intro less more hle
  unfold nativeCallCost
  by_cases hconstant : isConstantTime look callee
  · simp only [if_pos hconstant, Except.mapError]
    intro hwithin
    rw [keyCost_eq look callee args hle (by omega)]
  · simp only [if_neg hconstant]
    have htotal := argsCost_eq look hle (args ++ kwargs.map (·.2)) 0
    by_cases hover : less < argsCost look less (args ++ kwargs.map (·.2)) 0
    · simp only [if_pos hover, Except.mapError]
      intro hwithin
      omega
    · have hsame := htotal (by omega)
      rw [if_neg hover, hsame, if_neg (by omega)]
      cases outputCost look callee args kwargs with
      | error failure => rfl
      | ok cost => exact fun _ => rfl

variable {runtime : Runtime A X H N} {ev : Evaluator A X H N}
  {P : (α : Type) → Run A X H N α → Prop}

/-! ## Handlers that read no syntax -/

section Plain

variable (hP : Composing runtime P)

include hP

theorem kept_each {act : ι → Run A X H N α} (hact : ∀ element, P _ (act element))
    (elements : List ι) : P _ (each act elements) := by
  induction elements with
  | nil => exact hP.pure []
  | cons element rest ih => exact hP.bind (hact element) fun _ => hP.bind ih fun _ => hP.pure _

theorem kept_iterate {body : β → Run A X H N (β ⊕ α)} (hbody : ∀ point, P _ (body point))
    (steps : Nat) (point : β) : P _ (iterate steps body point) := by
  induction steps generalizing point with
  | zero => exact hP.unfinished
  | succ steps ih =>
    refine hP.bind (hbody point) fun reached => ?_
    cases reached with
    | inl next => exact ih next
    | inr value => exact hP.pure value

theorem kept_refuse (refusal : Refusal) : P α (refuse refusal) := hP.failed _

theorem kept_ofExcept (result : Except (Failure X) α) :
    P α (ofExcept (result.mapError .failure)) := by
  cases result with
  | ok value => exact hP.pure value
  | error failure => exact hP.failed failure

theorem kept_ofRefusal (result : Except Refusal α) : P α (ofRefusal result) := by
  cases result with
  | ok value => exact hP.pure value
  | error refusal => exact hP.failed _

/-! ### Fuel and state -/

theorem kept_tick (cost : Nat) : P _ (tick runtime cost) :=
  hP.charge fun _ => clamped_const _

theorem kept_deepCost (value : Value A) :
    P _ (tickOf runtime fun look left => .ok (deepCost look value left)) :=
  hP.charge fun look => clamped_of_le (deepCost_eq look value)

theorem kept_shapeOf (value : Value A) : P _ (shapeOf runtime value) := hP.inspect _

theorem kept_chargeDeep (value : Value A) : P _ (chargeDeep runtime value) := by
  refine hP.bind (kept_shapeOf hP value) fun shape => ?_
  split
  · exact kept_deepCost hP value
  · exact hP.pure ()

theorem kept_chargeKey (key : Value A) : P _ (chargeKey runtime key) := by
  refine hP.bind (hP.inspect _) fun hashed => ?_
  split
  · exact kept_chargeDeep hP key
  · exact hP.pure ()

theorem kept_settle (result : Except (Failure X) (Value A)) (heap : H) :
    P _ (settle result heap : Run A X H N (Value A)) :=
  hP.bind (hP.setHeap _) fun _ => kept_ofExcept hP result

theorem kept_truth (value : Value A) : P _ (truth runtime value) :=
  hP.bind (hP.inspect _) fun answer => kept_ofExcept hP answer

theorem kept_loadTarget (target : Expr) (scope : Nat) :
    P _ (loadTarget target scope : Run A X H N (Value A)) := by
  unfold loadTarget
  split
  · refine hP.bind (hP.inspect _) fun found => ?_
    split
    · exact hP.pure _
    · exact kept_refuse hP _
  · exact kept_refuse hP _

theorem kept_openScope (scope : Scope A) : P _ (openScope scope : Run A X H N Nat) :=
  hP.bind (hP.inspect _) fun _ => hP.bind (hP.addScope _) fun _ => hP.pure _

theorem kept_convertArgs {convert : Value A → Run A X H N (Value A)}
    (hconvert : ∀ value, P _ (convert value)) (args : List (Value A))
    (kwargs : List (String × Value A)) : P _ (convertArgs convert args kwargs) :=
  hP.bind (kept_each hP hconvert _) fun _ => hP.bind (kept_each hP hconvert _) fun _ => hP.pure _

theorem kept_chargeReceiver (callee : Callee A) : P _ (chargeReceiver runtime callee) := by
  refine hP.bind (hP.inspect _) fun walks => ?_
  split
  · exact kept_deepCost hP _
  · exact hP.pure ()

variable (hev : ev.Serves P)

include hev

/-! ### Natives and iteration -/

theorem kept_runNative (native : N) : P _ (runNative runtime ev native) := by
  refine hP.bind (hP.inspect _) fun step => ?_
  split
  · exact kept_settle hP _ _
  · exact hev.drive native

theorem kept_callValue (func : Value A) (args : List (Value A))
    (kwargs : List (String × Value A)) : P _ (callValue runtime ev func args kwargs) := by
  unfold callValue
  split
  · exact hev.invoke _ args kwargs
  · exact hev.callNative _ args kwargs
  · exact kept_runNative hP hev _

theorem kept_driveNative (native : N) : P _ (driveNative runtime ev native) := by
  refine hP.bind (hP.inspect _) fun step => ?_
  split
  · exact kept_settle hP _ _
  · exact hP.bind (hP.setHeap _) fun _ => hev.drive _
  · exact hP.bind (hP.setHeap _) fun _ =>
      hP.resume _ (kept_callValue hP hev _ _ _) (kept_runNative hP hev)

theorem kept_prim (op : Prim) (args : List (Value A)) : P _ (prim runtime ev op args) :=
  kept_runNative hP hev _

theorem kept_sortedSet (value : Value A) : P _ (sortedSet runtime ev value) :=
  hP.bind (kept_chargeDeep hP value) fun _ => kept_prim hP hev _ _

theorem kept_iter (value : Value A) : P _ (iter runtime ev value) := by
  refine hP.bind (kept_shapeOf hP value) fun shape => ?_
  split
  · exact hP.bind (kept_sortedSet hP hev value) fun _ => kept_prim hP hev _ _
  · exact kept_prim hP hev _ _

theorem kept_nextItem (iterator : Value A) : P _ (nextItem runtime ev iterator) :=
  hP.bind (kept_prim hP hev _ _) fun _ => hP.pure _

theorem kept_loopItems {body : Value A → γ → Run A X H N (γ ⊕ δ)}
    (hbody : ∀ item reached, P _ (body item reached)) (iterator : Value A) (start : γ) :
    P _ (loopItems runtime ev iterator body start) := by
  refine kept_iterate hP (fun reached => hP.bind (kept_nextItem hP hev iterator) fun next => ?_) _
    start
  split
  · exact hP.pure _
  · refine hP.bind (hbody _ _) fun went => ?_
    split
    · exact hP.pure _
    · exact hP.pure _

theorem kept_foldItems {body : Value A → γ → Run A X H N γ}
    (hbody : ∀ item reached, P _ (body item reached)) (iterator : Value A) (start : γ) :
    P _ (foldItems runtime ev iterator body start) := by
  refine hP.bind (kept_loopItems hP hev (fun item reached => hP.bind (hbody item reached) fun _ =>
    hP.pure _) iterator start) fun ended => ?_
  split
  exact hP.pure _

theorem kept_takeItems (iterator : Value A) (count : Nat) :
    P _ (takeItems runtime ev iterator count) := by
  induction count with
  | zero => exact hP.pure _
  | succ count ih =>
    refine hP.bind (kept_nextItem hP hev iterator) fun next => ?_
    split
    · exact hP.pure _
    · exact hP.bind ih fun _ => hP.pure _

theorem kept_unpack (elts : List Expr) (value : Value A) :
    P _ (unpack runtime ev elts value) := by
  refine hP.bind (kept_iter hP hev value) fun iterator => ?_
  split
  · refine hP.bind (kept_takeItems hP hev iterator _) fun items => ?_
    split
    · exact kept_refuse hP _
    · split
      · exact kept_refuse hP _
      · exact hP.pure _
  · split
    · exact kept_refuse hP _
    · refine hP.bind (kept_foldItems hP hev (fun _ _ => hP.bind (kept_tick hP 1) fun _ =>
        hP.pure _) iterator _) fun items => ?_
      split
      · exact kept_refuse hP _
      · exact hP.bind (kept_prim hP hev _ _) fun _ => hP.pure _

/-! ### Calls of natives -/

theorem kept_normalizeArg (value : Value A) : P _ (normalizeArg runtime ev value) := by
  refine hP.bind (kept_shapeOf hP value) fun shape => ?_
  split
  · exact kept_sortedSet hP hev value
  · exact hP.pure _

theorem kept_setsAsLists (value : Value A) : P _ (setsAsLists runtime ev value) := by
  refine hP.bind (kept_shapeOf hP value) fun shape => ?_
  have hset : P _ (do
      let sorted ← sortedSet runtime ev value
      let iterator ← prim runtime ev .iter [sorted]
      let items ← foldItems runtime ev iterator
        (fun item items => do
          let item ← ev.setsAsLists item
          pure (items ++ [item])) []
      prim runtime ev .list items) :=
    hP.bind (kept_sortedSet hP hev value) fun _ => hP.bind (kept_prim hP hev _ _) fun _ =>
      hP.bind (kept_foldItems hP hev (fun item _ => hP.bind (hev.setsAsLists item) fun _ =>
        hP.pure _) _ _) fun _ => kept_prim hP hev _ _
  split
  · exact hset
  · exact hset
  · exact hP.bind (kept_each hP hev.setsAsLists _) fun _ => hP.bind (kept_prim hP hev _ _) fun _ =>
      hP.bind (kept_each hP (fun _ => kept_prim hP hev _ _) _) fun _ => hP.pure _
  · exact hP.bind (kept_each hP hev.setsAsLists _) fun _ => kept_prim hP hev _ _
  · exact hP.bind (kept_each hP hev.setsAsLists _) fun _ => kept_prim hP hev _ _
  · exact hP.pure _

theorem kept_modelArg (value : Value A) : P _ (modelArg runtime ev value) := by
  refine hP.bind (hP.inspect _) fun holds => ?_
  split
  · exact hP.unfinished
  · exact hev.setsAsLists value
  · exact hP.pure _

theorem kept_nativePrepared (func : Value A) (args : List (Value A))
    (kwargs : List (String × Value A)) : P _ (nativePrepared runtime ev func args kwargs) := by
  refine hP.bind (hP.inspect _) fun callee => hP.bind (hP.charge fun look =>
    clamped_nativeCallCost look callee args kwargs) fun _ =>
    hP.bind (kept_chargeReceiver hP callee) fun _ => ?_
  split
  · exact hP.pure _
  · split
    · exact hP.bind (kept_convertArgs hP (kept_modelArg hP hev) args kwargs) fun _ => hP.pure _
    · split
      · exact hP.pure _
      · refine hP.bind (hP.inspect _) fun owner => ?_
        split
        · exact hP.pure _
        · exact hP.bind (kept_convertArgs hP (kept_normalizeArg hP hev) args kwargs) fun _ =>
            hP.bind (hP.inspect _) fun _ => hP.pure _

theorem kept_render (value : Value A) (conversion : Conversion) :
    P _ (render runtime ev value conversion) :=
  hP.bind (kept_chargeDeep hP value) fun _ => kept_prim hP hev _ _

theorem kept_setPop (args : List (Value A)) (kwargs : List (String × Value A)) :
    P _ (setPop runtime ev args kwargs) := by
  unfold setPop
  split
  · refine hP.bind (kept_shapeOf hP _) fun shape => ?_
    split
    · split
      · exact kept_refuse hP _
      · exact hP.bind (kept_sortedSet hP hev _) fun _ => hP.bind (kept_prim hP hev _ _) fun _ =>
          hP.bind (kept_prim hP hev _ _) fun _ => hP.pure _
    · exact kept_refuse hP _
  · exact kept_refuse hP _

theorem kept_callPrepared (prepared : Prepared A) : P _ (callPrepared runtime ev prepared) := by
  unfold callPrepared
  split
  · exact kept_callValue hP hev _ _ _
  · exact kept_render hP hev _ _
  · exact kept_callValue hP hev _ _ _
  · exact kept_setPop hP hev _ _

theorem kept_callNative (func : Value A) (args : List (Value A))
    (kwargs : List (String × Value A)) : P _ (callNative runtime ev func args kwargs) :=
  hP.bind (kept_nativePrepared hP hev func args kwargs) fun prepared =>
    kept_callPrepared hP hev prepared

/-- An unpacked argument without a length is paid for chunk by chunk. -/
theorem kept_unsized (value : Value A) : P _ (do
    let iterator ← iter runtime ev value
    let (items, pending) ← foldItems runtime ev iterator
      (fun item reached => do
        let items := reached.1 ++ [item]
        if reached.2 + 1 = starChunk then
          tick runtime starChunk
          pure (items, 0)
        else pure (items, reached.2 + 1)) (([], 0) : List (Value A) × Nat)
    tick runtime pending
    pure items) := by
  refine hP.bind (kept_iter hP hev value) fun _ =>
    hP.bind (kept_foldItems hP hev (fun _ _ => ?_) _ _) fun _ => hP.bind (kept_tick hP _) fun _ =>
      hP.pure _
  dsimp only
  split
  · exact hP.bind (kept_tick hP _) fun _ => hP.pure _
  · exact hP.pure _

theorem kept_expandStar (value : Value A) : P _ (expandStar runtime ev value) := by
  refine hP.bind (kept_shapeOf hP value) fun shape => ?_
  have hsized (price : (Value A → Shape A) → Nat → Except (Failure X) Nat)
      (hprice : ∀ look, Clamped fun left =>
        ((price look left).mapError .failure : Except (Raised A X) Nat)) : P _ (do
      tickOf runtime price
      let iterator ← iter runtime ev value
      foldItems runtime ev iterator (fun item items => pure (items ++ [item])) []) :=
    hP.bind (hP.charge hprice) fun _ => hP.bind (kept_iter hP hev value) fun _ =>
      kept_foldItems hP hev (fun _ _ => hP.pure _) _ _
  dsimp only
  split
  · exact hsized _ fun _ => clamped_length _
  · exact kept_unsized hP hev value

theorem kept_applyBinop (op : Operator) (left right : Value A) :
    P _ (applyBinop runtime ev op left right) := by
  refine hP.bind (hP.charge fun _ => clamped_const _) fun _ => hP.bind (hP.inspect _) fun text => ?_
  split
  · exact hP.bind (kept_chargeDeep hP right) fun _ => kept_prim hP hev _ _
  · exact kept_prim hP hev _ _

theorem kept_addToSet (target item : Value A) : P _ (addToSet runtime ev target item) :=
  hP.bind (kept_chargeKey hP item) fun _ => hP.bind (kept_prim hP hev _ _) fun _ => hP.pure ()

end Plain

/-! ## Handlers that read syntax -/

section Syntax

variable (hP : Compositional runtime P)

include hP

theorem kept_unhandled (kind : NodeKind) (refusal : Refusal) :
    P _ (unhandled kind refusal : Run A X H N α) :=
  hP.bind (hP.note _) fun _ => kept_refuse hP.composing refusal

variable (hev : ev.Keeps P)

include hev

/-! ### Binding -/

theorem kept_part (part : Option Expr) (scope : Nat) : P _ (match part with
    | some part => ev.eval part scope
    | none => pure (runtime.literal .none) : Run A X H N (Value A)) := by
  split
  · exact hev.eval _ scope
  · exact hP.pure _

theorem kept_evalSlice (node : Expr) (scope : Nat) : P _ (evalSlice runtime ev node scope) := by
  unfold evalSlice
  split
  · exact hP.bind (kept_part hP hev _ scope) fun _ => hP.bind (kept_part hP hev _ scope) fun _ =>
      hP.bind (kept_part hP hev _ scope) fun _ => kept_prim hP.composing hev.serves _ _
  · exact hev.eval _ scope

theorem kept_subscript (value slice : Expr) (scope : Nat) :
    P _ (subscript runtime ev value slice scope) :=
  hP.bind (hev.eval value scope) fun _ => hP.bind (kept_evalSlice hP hev slice scope) fun _ =>
    hP.bind (kept_chargeKey hP.composing _) fun _ => hP.bind (hP.charge fun _ =>
      clamped_const _) fun _ =>
      hP.pure _

theorem kept_bindTarget (target : Expr) (value : Value A) (scope : Nat) :
    P _ (bindTarget runtime ev target value scope) := by
  unfold bindTarget
  split
  · exact hP.update fun _ => ⟨rfl, rfl⟩
  · exact hP.bind (kept_unpack hP.composing hev.serves _ value) fun _ =>
      hP.bind (kept_each hP.composing (fun _ => hev.bind _ _ scope) _) fun _ => hP.pure ()
  · exact hP.bind (kept_unpack hP.composing hev.serves _ value) fun _ =>
      hP.bind (kept_each hP.composing (fun _ => hev.bind _ _ scope) _) fun _ => hP.pure ()
  · exact hev.bind _ value scope
  · exact hP.bind (kept_subscript hP hev _ _ scope) fun _ =>
      hP.bind (kept_prim hP.composing hev.serves _ _) fun _ =>
      hP.pure ()
  · exact kept_refuse hP.composing _

/-! ### Functions and calls -/

theorem kept_makeClosure (params : Params) (defaults : List Expr) (body : List Stmt ⊕ Expr)
    (scope : Nat) (name : String) : P _ (makeClosure ev params defaults body scope name) := by
  unfold makeClosure
  split
  · exact kept_refuse hP.composing _
  · exact hP.bind (kept_each hP.composing (hev.eval · scope) defaults) fun _ =>
      hP.bind (hP.inspect _) fun _ =>
      hP.bind (hP.update fun _ => ⟨rfl, rfl⟩) fun _ => hP.pure _

theorem kept_callArgs (args : List Expr) (keywords : List (Option String)) (values : List Expr)
    (scope : Nat) : P _ (callArgs runtime ev args keywords values scope) := by
  refine hP.bind (kept_each hP.composing (fun arg => ?_) args) fun _ => ?_
  · split
    · exact hP.bind (hev.eval _ scope) fun _ => kept_expandStar hP.composing hev.serves _
    · exact hP.bind (hev.eval _ scope) fun _ => hP.pure _
  · split
    · exact kept_refuse hP.composing _
    · exact hP.bind (kept_each hP.composing (hev.eval · scope) values) fun _ => hP.pure _

theorem kept_evalCall (func : Expr) (args : List Expr) (keywords : List (Option String))
    (values : List Expr) (scope : Nat) :
    P _ (evalCall runtime ev func args keywords values scope) := by
  refine hP.bind (hev.eval func scope) fun func =>
    hP.bind (kept_callArgs hP hev args keywords values scope) fun called => ?_
  cases func with
  | closure index => exact hev.invoke index called.1 called.2
  | obj object => exact kept_callNative hP.composing hev.serves _ called.1 called.2
  | callback func => exact kept_callNative hP.composing hev.serves _ called.1 called.2

/-! ### Expressions -/

theorem kept_formatted (value : Value A) (formatSpec : Option Expr) (scope : Nat) :
    P _ (match formatSpec with
      | some spec => do
        let spec ← ev.eval spec scope
        tickOf runtime fun look _ => .ok (match look spec with
          | .str content => formatCost content
          | _ => 0)
        let shape ← shapeOf runtime value
        match shape with
        | .str _ => prim runtime ev .format [value, spec]
        | _ =>
          chargeDeep runtime value
          prim runtime ev .format [value, spec]
      | none => render runtime ev value .str) := by
  split
  · refine hP.bind (hev.eval _ scope) fun _ => hP.bind (hP.charge fun _ => clamped_const _) fun _ =>
      hP.bind (kept_shapeOf hP.composing _) fun shape => ?_
    split
    · exact kept_prim hP.composing hev.serves _ _
    · exact hP.bind (kept_chargeDeep hP.composing value) fun _ =>
        kept_prim hP.composing hev.serves _ _
  · exact kept_render hP.composing hev.serves _ _

theorem kept_evalFormattedValue (value : Expr) (conversion : Option Conversion)
    (formatSpec : Option Expr) (scope : Nat) :
    P _ (evalFormattedValue runtime ev value conversion formatSpec scope) := by
  refine hP.bind (hev.eval value scope) fun value => ?_
  cases conversion with
  | none => exact kept_formatted hP hev value formatSpec scope
  | some conversion =>
    exact hP.bind (kept_render hP.composing hev.serves value conversion) fun text =>
      kept_formatted hP hev text formatSpec scope

theorem kept_evalBoolOp (op : BoolOperator) (scope : Nat) (values : List Expr) (result : Value A) :
    P _ (evalBoolOp runtime ev op scope values result) := by
  induction values generalizing result with
  | nil => exact hP.pure _
  | cons value rest ih =>
    refine hP.bind (hev.eval value scope) fun result => hP.bind (kept_truth hP.composing result)
      fun holds => ?_
    split
    · exact hP.pure _
    · exact ih result

theorem kept_evalCompare (scope : Nat) (comparisons : List (CmpOperator × Expr)) (left : Value A) :
    P _ (evalCompare runtime ev scope comparisons left) := by
  induction comparisons generalizing left with
  | nil => exact hP.pure _
  | cons comparison rest ih =>
    refine hP.bind (hev.eval _ scope) fun right => hP.bind (hP.charge fun look =>
      clamped_of_le (compareCost_eq look comparison.1 left right)) fun _ =>
      hP.bind (kept_prim hP.composing hev.serves _ _) fun answer =>
        hP.bind (kept_truth hP.composing answer) fun holds => ?_
    split
    · exact ih right
    · exact hP.pure _

theorem kept_evalAttribute (value : Expr) (attr : String) (scope : Nat) :
    P _ (evalAttribute runtime ev value attr scope) := by
  refine hP.bind (hev.eval value scope) fun object => hP.bind (hP.inspect _) fun allowed => ?_
  split
  · exact kept_refuse hP.composing _
  · refine hP.bind (kept_prim hP.composing hev.serves _ _) fun value =>
      hP.bind (hP.inspect _) fun unreachable => ?_
    split
    · exact kept_refuse hP.composing _
    · exact hP.pure _

theorem kept_evalSet (elts : List Expr) (scope : Nat) : P _ (evalSet runtime ev elts scope) :=
  hP.bind (kept_prim hP.composing hev.serves _ _) fun result =>
    hP.bind (kept_each hP.composing (fun elt => hP.bind (hev.eval elt scope) fun item =>
      kept_addToSet hP.composing hev.serves result item) elts) fun _ => hP.pure _

theorem kept_evalDict (keys : List (Option Expr)) (values : List Expr) (scope : Nat) :
    P _ (evalDict runtime ev keys values scope) := by
  refine hP.bind (kept_prim hP.composing hev.serves _ _) fun result =>
    hP.bind (kept_each hP.composing (fun pair => ?_) _)
    fun _ => hP.pure _
  split
  · exact kept_refuse hP.composing _
  · exact hP.bind (hev.eval _ scope) fun _ => hP.bind (kept_chargeKey hP.composing _) fun _ =>
      hP.bind (hev.eval _ scope) fun _ => hP.bind (kept_prim hP.composing hev.serves _ _) fun _ =>
        hP.pure ()

theorem kept_allHold (scope : Nat) (conds : List Expr) :
    P _ (allHold runtime ev scope conds) := by
  induction conds with
  | nil => exact hP.pure _
  | cons cond rest ih =>
    refine hP.bind (hev.eval cond scope) fun value =>
      hP.bind (kept_truth hP.composing value) fun holds => ?_
    split
    · exact ih
    · exact hP.pure _

theorem kept_runComp {emit : Nat → γ → Run A X H N γ}
    (hemit : ∀ scope reached, P _ (emit scope reached)) (generators : List Generator) (scope : Nat)
    (reached : γ) : P _ (runComp runtime ev emit generators scope reached) := by
  induction generators generalizing scope reached with
  | nil => exact hemit scope reached
  | cons generator rest ih =>
    obtain ⟨target, source, ifs⟩ := generator
    refine hP.bind (hev.eval source scope) fun _ =>
      hP.bind (kept_iter hP.composing hev.serves _) fun _ =>
      kept_foldItems hP.composing hev.serves (fun item reached => ?_) _ _
    refine hP.bind (kept_tick hP.composing 1) fun _ =>
      hP.bind (kept_openScope hP.composing _) fun inner =>
      hP.bind (hev.bind target item inner) fun _ => hP.bind (kept_allHold hP hev inner ifs)
        fun holds => ?_
    split
    · exact ih inner reached
    · exact hP.pure _

theorem kept_compElements (elt : Expr) (generators : List Generator) (scope : Nat) :
    P _ (compElements runtime ev elt generators scope) :=
  kept_runComp hP hev (fun inner _ => hP.bind (hev.eval elt inner) fun _ => hP.pure _) generators
    scope []

theorem kept_evalDictComp (key value : Expr) (generators : List Generator) (scope : Nat) :
    P _ (evalDictComp runtime ev key value generators scope) := by
  refine hP.bind (kept_prim hP.composing hev.serves _ _) fun result =>
    hP.bind (kept_runComp hP hev (fun inner _ => ?_) generators scope ()) fun _ => hP.pure _
  exact hP.bind (hev.eval key inner) fun _ => hP.bind (kept_chargeKey hP.composing _) fun _ =>
    hP.bind (hev.eval value inner) fun _ =>
      hP.bind (kept_prim hP.composing hev.serves _ _) fun _ => hP.pure ()

theorem kept_evalExpr (node : Expr) (scope : Nat) : P _ (evalExpr runtime ev node scope) := by
  refine hP.bind (kept_tick hP.composing 1) fun _ => ?_
  cases node with
  | constant value => exact hP.pure _
  | name ident => exact kept_loadTarget hP.composing _ scope
  | joinedStr values =>
    exact hP.bind (kept_each hP.composing (hev.eval · scope) values) fun _ =>
      kept_prim hP.composing hev.serves _ _
  | formattedValue value conversion spec =>
    exact kept_evalFormattedValue hP hev value conversion spec scope
  | binOp left op right =>
    exact hP.bind (hev.eval left scope) fun _ => hP.bind (hev.eval right scope) fun _ =>
      kept_applyBinop hP.composing hev.serves op _ _
  | unaryOp op operand =>
    exact hP.bind (hev.eval operand scope) fun _ =>
      kept_prim hP.composing hev.serves _ _
  | boolOp op values => exact kept_evalBoolOp hP hev op scope values _
  | compare left ops comparators =>
    exact hP.bind (hev.eval left scope) fun _ => kept_evalCompare hP hev scope _ _
  | ifExp test body orelse =>
    exact hP.bind (hev.eval test scope) fun _ => hP.bind (kept_truth hP.composing _) fun _ =>
      hev.eval _ scope
  | call func args keywords values => exact kept_evalCall hP hev func args keywords values scope
  | «attribute» value attr => exact kept_evalAttribute hP hev value attr scope
  | subscript value slice =>
    exact hP.bind (kept_subscript hP hev value slice scope) fun _ =>
      kept_prim hP.composing hev.serves _ _
  | list elts =>
    exact hP.bind (kept_each hP.composing (hev.eval · scope) elts) fun _ =>
      kept_prim hP.composing hev.serves _ _
  | tuple elts =>
    exact hP.bind (kept_each hP.composing (hev.eval · scope) elts) fun _ =>
      kept_prim hP.composing hev.serves _ _
  | set elts => exact kept_evalSet hP hev elts scope
  | dict keys values => exact kept_evalDict hP hev keys values scope
  | lambda params defaults body => exact kept_makeClosure hP hev params defaults _ scope _
  | listComp elt generators =>
    exact hP.bind (kept_compElements hP hev elt generators scope) fun _ =>
      kept_prim hP.composing hev.serves _ _
  | generatorExp elt generators =>
    exact hP.bind (kept_compElements hP hev elt generators scope) fun _ =>
      kept_prim hP.composing hev.serves _ _
  | setComp elt generators =>
    exact hP.bind (kept_compElements hP hev elt generators scope) fun _ =>
      hP.bind (kept_prim hP.composing hev.serves _ _) fun result =>
        hP.bind (kept_each hP.composing (kept_addToSet hP.composing hev.serves result) _) fun _ =>
          hP.pure _
  | dictComp key value generators => exact kept_evalDictComp hP hev key value generators scope
  | slice lower upper step => exact kept_unhandled hP _ _
  | starred value => exact kept_unhandled hP _ _
  | other kind => exact kept_unhandled hP _ _

/-! ### Statements without statements inside -/

theorem kept_execAugAssign (target : Expr) (op : Operator) (value : Expr) (scope : Nat) :
    P _ (execAugAssign runtime ev target op value scope) := by
  have hC := hP.composing
  unfold execAugAssign
  split
  · exact hP.bind (kept_subscript hP hev _ _ scope) fun _ =>
      hP.bind (kept_prim hC hev.serves _ _) fun _ => hP.bind (hev.eval value scope) fun _ =>
        hP.bind (kept_applyBinop hC hev.serves op _ _) fun _ =>
          hP.bind (kept_prim hC hev.serves _ _) fun _ => hP.pure ()
  · exact hP.bind (kept_loadTarget hC _ scope) fun _ => hP.bind (hev.eval value scope) fun _ =>
      hP.bind (kept_applyBinop hC hev.serves op _ _) fun _ => hev.bind _ _ scope

theorem kept_schemaField (owner : String) (scope : Nat) (stmt : Stmt) :
    P _ (schemaField runtime ev owner scope stmt) := by
  have hC := hP.composing
  unfold schemaField
  split
  · refine hP.bind (kept_tick hC 1) fun _ => hP.bind (kept_ofRefusal hC _) fun text => ?_
    split
    · exact hP.pure _
    · exact hP.bind (hev.eval _ scope) fun _ =>
        hP.bind (kept_prim hC hev.serves _ _) fun _ => hP.pure _
  · exact kept_refuse hC _
  · exact hP.pure _

theorem kept_execClassDef (name : String) (bases : List Expr) (body : List Stmt) (scope : Nat) :
    P _ (execClassDef runtime ev name bases body scope) := by
  have hC := hP.composing
  cases bases with
  | nil => exact kept_refuse hC _
  | cons base rest =>
    refine hP.bind (hev.eval base scope) fun base => ?_
    split
    · exact kept_refuse hC _
    · exact hP.bind (kept_each hC (kept_schemaField hP hev name scope) body) fun _ =>
        hP.bind (kept_prim hC hev.serves _ _) fun _ => hP.update fun _ => ⟨rfl, rfl⟩

theorem kept_bindImport (module : String) (scope : Nat) (name : String × Option String) :
    P _ (bindImport runtime ev module scope name) := by
  unfold bindImport
  split
  · exact kept_refuse hP.composing _
  · exact hP.bind (kept_prim hP.composing hev.serves _ _) fun _ => hP.update fun _ => ⟨rfl, rfl⟩

theorem kept_execImportFrom (module : Option String) (names : List (String × Option String))
    (scope : Nat) : P _ (execImportFrom runtime ev module names scope) := by
  have hC := hP.composing
  cases module with
  | none => exact kept_refuse hC _
  | some path =>
    unfold execImportFrom
    dsimp only
    split
    · exact kept_refuse hC _
    · exact hP.bind (kept_prim hC hev.serves _ _) fun _ =>
        hP.bind (kept_each hC (kept_bindImport hP hev path scope) names) fun _ => hP.pure ()

theorem kept_enterManager (context : Expr) (scope : Nat) :
    P _ (enterManager runtime ev context scope) :=
  hP.bind (hev.eval context scope) fun _ => hP.bind (hP.note _) fun _ =>
    hP.bind (kept_prim hP.composing hev.serves _ _) fun _ => hP.pure _

omit hev in
/-- **What handlers keep, the interpreter has**, with any nesting left, when the bodies of user
functions have it. -/
theorem kept_evaluator (hinvoke : ∀ {ev : Evaluator A X H N}, ev.Keeps P →
    ∀ index args kwargs, P _ (invoke runtime ev index args kwargs)) (depth : Nat) :
    (evaluator runtime depth).Keeps P := by
  induction depth with
  | zero =>
    exact ⟨fun _ _ => hP.unfinished, fun _ _ _ => hP.unfinished, fun _ _ _ => hP.unfinished,
      fun _ _ _ => hP.unfinished, fun _ => hP.unfinished, fun _ => hP.unfinished⟩
  | succ depth ih =>
    exact ⟨kept_evalExpr hP ih, kept_bindTarget hP ih, hinvoke ih,
      kept_callNative hP.composing ih.serves,
      kept_driveNative hP.composing ih.serves, kept_setsAsLists hP.composing ih.serves⟩

end Syntax

end Atlantide.Lang
