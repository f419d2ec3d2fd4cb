import Atlantide.Lang.Fuel
import Atlantide.Lang.Handled
import Atlantide.Lang.Quiet

/-! # Accepted programs

What a program does that the validating pass accepts, in every run: control flow ends in the loop or
the function it belongs to, and no node without a handler is met but those that were let through on
purpose. Functions outlive the statement that makes them, so the invariant of a run is about the
functions made so far and what has happened; handlers keep it as long as they are given syntax they
can run. -/

namespace Atlantide.Lang

open Metered

variable {A X H N : Type} {α β γ δ ι : Type} {tame : NodeKind → Prop} {runtime : Runtime A X H N}
  {ev : Evaluator A X H N}

/-- A function whose body can be run. -/
def Closure.Runnable (tame : NodeKind → Prop) (closure : Closure A) : Prop :=
  match closure.body with
  | .inl body => ∀ stmt ∈ body, Lang.Runnable tame true false stmt
  | .inr body => Evaluable tame body

/-- Nothing that must not happen: no signal strays, and every node without a handler is tame. -/
def Event.Tame (tame : NodeKind → Prop) : Event A X N → Prop
  | .unhandled kind => tame kind
  | .strayed _ => False
  | _ => True

/-- The invariant of a run. -/
structure State.Sane (tame : NodeKind → Prop) (state : State A X H N) : Prop where
  closures : ∀ closure ∈ state.closures, closure.Runnable tame
  events : ∀ event ∈ state.events, event.Tame tame

/-- The computation keeps the invariant. -/
def Sound (tame : NodeKind → Prop) (first : Run A X H N α) : Prop :=
  ∀ allowance state, state.Sane tame → (first allowance state).2.Sane tame

namespace Sound

theorem still {first : Run A X H N α}
    (hstate : ∀ allowance state, (first allowance state).2 = state) : Sound tame first := by
  intro allowance state hsane
  rwa [hstate]

theorem pure (value : α) : Sound tame (Pure.pure value : Run A X H N α) := still fun _ _ => rfl

theorem raise (raised : Raised A X) : Sound tame (raise raised : Run A X H N α) :=
  still fun _ _ => rfl

theorem unfinished : Sound tame (unfinished : Run A X H N α) := still fun _ _ => rfl

theorem inspect (view : State A X H N → α) : Sound tame (inspect view) := still fun _ _ => rfl

/-- A change that makes no function and says nothing. -/
theorem update {change : State A X H N → State A X H N}
    (hclosures : ∀ state, (change state).closures = state.closures)
    (hevents : ∀ state, (change state).events = state.events) :
    Sound tame (update change) := by
  intro allowance state hsane
  exact ⟨fun closure hmem => hsane.closures closure (hclosures state ▸ hmem),
    fun event hmem => hsane.events event (hevents state ▸ hmem)⟩

theorem addClosure {closure : Closure A} (hclosure : closure.Runnable tame) :
    Sound tame (Metered.update (·.addClosure closure) : Run A X H N Unit) := by
  intro allowance state hsane
  refine ⟨fun found hmem => ?_, hsane.events⟩
  rcases List.mem_append.mp hmem with hmem | hmem
  · exact hsane.closures found hmem
  · rwa [List.mem_singleton.mp hmem]

theorem note {event : Event A X N} (hevent : event.Tame tame) :
    Sound tame (Metered.update (·.note event) : Run A X H N Unit) := by
  intro allowance state hsane
  refine ⟨hsane.closures, fun found hmem => ?_⟩
  rcases List.mem_cons.mp hmem with hsame | hmem
  · rwa [hsame]
  · exact hsane.events found hmem

theorem bind {first : Run A X H N α} {next : α → Run A X H N β} (hfirst : Sound tame first)
    (hnext : ∀ value, Sound tame (next value)) : Sound tame (first >>= next) := by
  intro allowance state hsane
  have hafter := hfirst allowance state hsane
  rw [bind_eq]
  unfold Metered.bind
  rcases hreached : first allowance state with ⟨_ | (raised | value), after⟩ <;>
    simp only [hreached] at hafter ⊢
  · exact hafter
  · exact hafter
  · exact hnext value allowance after hafter

/-- What follows a look at the state only has to be judged for what a run's states can show. -/
theorem inspect_bind {view : State A X H N → α} {next : α → Run A X H N β}
    (hnext : ∀ state : State A X H N, state.Sane tame → Sound tame (next (view state))) :
    Sound tame (Metered.inspect view >>= next) :=
  fun allowance state hsane => hnext state hsane allowance state hsane

/-- What follows an end only has to be judged for the ends there can be. -/
theorem outcome_bind {bad : Raised A X → Prop} {first : Run A X H N α}
    {next : Except (Raised A X) α → Run A X H N β} (hfirst : Sound tame first)
    (havoids : Avoids bad first) (hnext : ∀ result, (∀ error, result = .error error → ¬ bad error) →
      Sound tame (next result)) : Sound tame (outcome first >>= next) := by
  intro allowance state hsane
  have hafter := hfirst allowance state hsane
  rw [bind_eq]
  unfold Metered.bind outcome
  rcases hreached : first allowance state with ⟨_ | result, after⟩ <;>
    simp only [hreached] at hafter ⊢
  · exact hafter
  · refine hnext result ?_ allowance after hafter
    rintro error rfl
    exact havoids allowance state error (by rw [hreached])

/-- Whatever can follow an end keeps the invariant. -/
theorem outcome_bind_any {first : Run A X H N α} {next : Except (Raised A X) α → Run A X H N β}
    (hfirst : Sound tame first) (hnext : ∀ result, Sound tame (next result)) :
    Sound tame (outcome first >>= next) :=
  have hnever : Avoids (fun _ => False) first := fun _ _ _ _ => not_false
  .outcome_bind hfirst hnever fun result _ => hnext result

end Sound

/-- Handlers that read no syntax keep the invariant. -/
theorem sound_composing (runtime : Runtime A X H N) (tame : NodeKind → Prop) :
    Composing runtime fun _ first => Sound tame first where
  pure := .pure
  bind := .bind
  unfinished := .unfinished
  failed _ := .raise _
  inspect := .inspect
  setHeap _ := .update (fun _ => rfl) fun _ => rfl
  addScope _ := .update (fun _ => rfl) fun _ => rfl
  charge _ := by
    intro allowance state hsane
    unfold tickOf charge
    split
    · exact hsane
    · split
      · exact ⟨hsane.closures, hsane.events⟩
      · exact ⟨hsane.closures, hsane.events⟩
  resume resume hfirst hrun := by
    refine .outcome_bind_any hfirst fun result => ?_
    rcases result with (failure | signal) | value
    · exact .bind (.note trivial) fun _ => hrun _
    · exact .raise _
    · exact hrun _

/-- The evaluator keeps the invariant when it is given syntax it can run. -/
structure Evaluator.Sound (tame : NodeKind → Prop) (ev : Evaluator A X H N) : Prop where
  eval : ∀ {node}, Evaluable tame node → ∀ scope, Lang.Sound tame (ev.eval node scope)
  bind : ∀ {target}, Bindable tame target → ∀ value scope,
    Lang.Sound tame (ev.bind target value scope)
  serves : ev.Serves fun _ first => Lang.Sound tame first

/-- A loop over nodes that can all be run. -/
theorem sound_each {act : ι → Run A X H N α} {elements : List ι}
    (hact : ∀ element ∈ elements, Sound tame (act element)) : Sound tame (each act elements) := by
  induction elements with
  | nil => exact .pure []
  | cons element rest ih =>
    rw [List.forall_mem_cons] at hact
    exact .bind hact.1 fun _ => .bind (ih hact.2) fun _ => .pure _

section Handlers

variable (hev : ev.Sound tame)

include hev

theorem sound_prim (op : Prim) (args : List (Value A)) : Sound tame (prim runtime ev op args) :=
  kept_prim (sound_composing runtime tame) hev.serves op args

theorem sound_nodes {nodes : List Expr} (hnodes : ∀ node ∈ nodes, Evaluable tame node)
    (scope : Nat) : Sound tame (each (ev.eval · scope) nodes) :=
  sound_each fun node hmem => hev.eval (hnodes node hmem) scope

/-! ## Binding -/

theorem sound_part (part : Option Expr) (scope : Nat) :
    (∀ node ∈ part, Evaluable tame node) → Sound tame (match part with
      | some part => ev.eval part scope
      | none => pure (runtime.literal .none) : Run A X H N (Value A)) := by
  intro hpart
  cases part with
  | none => exact .pure _
  | some part => exact hev.eval (hpart part rfl) scope

theorem sound_evalSlice {node : Expr} (hnode : ∀ part ∈ node.sliceParts, Evaluable tame part)
    (scope : Nat) : Sound tame (evalSlice runtime ev node scope) := by
  unfold evalSlice
  split
  next lower upper step =>
    have hpart (part : Option Expr)
        (hmem : part ∈ [lower, upper, step]) (found : Expr) (hfound : found ∈ part) :
        Evaluable tame found := by
      refine hnode found ?_
      simp only [Expr.sliceParts, List.mem_append, Option.mem_toList]
      simp only [List.mem_cons, List.not_mem_nil, or_false] at hmem
      rcases hmem with rfl | rfl | rfl
      · exact .inl (.inl hfound)
      · exact .inl (.inr hfound)
      · exact .inr hfound
    exact .bind (sound_part hev lower scope (hpart lower (by simp))) fun _ =>
      .bind (sound_part hev upper scope (hpart upper (by simp))) fun _ =>
        .bind (sound_part hev step scope (hpart step (by simp))) fun _ => sound_prim hev _ _
  next hother =>
    refine hev.eval (hnode _ ?_) scope
    unfold Expr.sliceParts
    split
    next lower upper step => exact absurd rfl (hother lower upper step)
    next => exact List.mem_singleton_self _

theorem sound_subscript {value slice : Expr} (hvalue : Evaluable tame value)
    (hslice : ∀ part ∈ slice.sliceParts, Evaluable tame part) (scope : Nat) :
    Sound tame (subscript runtime ev value slice scope) := by
  have hC := sound_composing runtime tame
  exact .bind (hev.eval hvalue scope) fun _ => .bind (sound_evalSlice hev hslice scope) fun _ =>
    .bind (kept_chargeKey hC _) fun _ => .bind (hC.charge fun _ => clamped_const _) fun _ => .pure _

theorem sound_bindTarget {target : Expr} (htarget : Bindable tame target) (value : Value A)
    (scope : Nat) : Sound tame (bindTarget runtime ev target value scope) := by
  have hC := sound_composing runtime tame
  have hunpacked {elts : List Expr} (helts : ∀ elt ∈ elts, Bindable tame elt) :
      Sound tame (do
        let items ← unpack runtime ev elts value
        let _ ← each (fun pair : Expr × Value A => ev.bind pair.1 pair.2 scope) (elts.zip items)
        pure ()) :=
    .bind (kept_unpack hC hev.serves _ value) fun items =>
      .bind (sound_each fun pair hmem => hev.bind (helts _ (List.of_mem_zip hmem).1) _ scope)
        fun _ => .pure ()
  cases htarget with
  | name ident => exact .update (fun _ => rfl) fun _ => rfl
  | tuple helts => exact hunpacked helts
  | list helts => exact hunpacked helts
  | starred hvalue => exact hev.bind hvalue value scope
  | subscript hvalue hslice =>
    exact .bind (sound_subscript hev hvalue hslice scope) fun _ => .bind (sound_prim hev _ _)
      fun _ => .pure ()
  | refused hother =>
    unfold bindTarget
    split
    · cases hother
    · cases hother
    · cases hother
    · cases hother
    · cases hother
    · exact kept_refuse hC _

/-! ## Functions and calls -/

theorem sound_makeClosure {params : Params} {defaults : List Expr} {body : List Stmt ⊕ Expr}
    {scope : Nat} {name : String} (hdefaults : ∀ default ∈ defaults, Evaluable tame default)
    (hbody : ∀ closure : Closure A, closure.body = body → closure.Runnable tame) :
    Sound tame (makeClosure ev params defaults body scope name) := by
  unfold makeClosure
  split
  · exact .raise _
  · exact .bind (sound_nodes hev hdefaults scope) fun _ => .bind (.inspect _) fun _ =>
      .bind (.addClosure (hbody _ rfl)) fun _ => .pure _

theorem sound_callArgs {args : List Expr} {keywords : List (Option String)} {values : List Expr}
    (hargs : ∀ arg ∈ args, Evaluable tame arg.unstarred)
    (hvalues : ∀ value ∈ values, Evaluable tame value) (scope : Nat) :
    Sound tame (callArgs runtime ev args keywords values scope) := by
  have hC := sound_composing runtime tame
  refine .bind (sound_each fun arg hmem => ?_) fun _ => ?_
  · have harg := hargs arg hmem
    split
    · exact .bind (hev.eval harg scope) fun _ => kept_expandStar hC hev.serves _
    next hother =>
      refine .bind (hev.eval ?_ scope) fun _ => .pure _
      unfold Expr.unstarred at harg
      split at harg
      next value => exact absurd rfl (hother value)
      next => exact harg
  · split
    · exact kept_refuse hC _
    · exact .bind (sound_nodes hev hvalues scope) fun _ => .pure _

theorem sound_evalCall {func : Expr} {args : List Expr} {keywords : List (Option String)}
    {values : List Expr} (hfunc : Evaluable tame func)
    (hargs : ∀ arg ∈ args, Evaluable tame arg.unstarred)
    (hvalues : ∀ value ∈ values, Evaluable tame value) (scope : Nat) :
    Sound tame (evalCall runtime ev func args keywords values scope) := by
  have hC := sound_composing runtime tame
  refine .bind (hev.eval hfunc scope) fun func =>
    .bind (sound_callArgs hev hargs hvalues scope) fun called => ?_
  cases func with
  | closure index => exact hev.serves.invoke index called.1 called.2
  | obj object => exact kept_callNative hC hev.serves _ called.1 called.2
  | callback func => exact kept_callNative hC hev.serves _ called.1 called.2

/-! ## Expressions -/

theorem sound_formatted (value : Value A) (formatSpec : Option Expr) (scope : Nat) :
    (∀ spec ∈ formatSpec, Evaluable tame spec) → Sound tame (match formatSpec with
      | some spec => do
        let spec ← ev.eval spec scope
        tickOf runtime fun look _ => .ok (match look spec with
          | .str content => formatCost content
          | _ => 0)
        let shape ← shapeOf runtime value
        match shape with
        | .str _ => prim runtime ev .format [value, spec]
        | _ =>
          chargeDeep runtime value
          prim runtime ev .format [value, spec]
      | none => render runtime ev value .str) := by
  intro hspec
  have hC := sound_composing runtime tame
  cases formatSpec with
  | none => exact kept_render hC hev.serves _ _
  | some spec =>
    refine .bind (hev.eval (hspec spec rfl) scope) fun _ =>
      .bind (hC.charge fun _ => clamped_const _) fun _ => .bind (kept_shapeOf hC _) fun shape => ?_
    split
    · exact sound_prim hev _ _
    · exact .bind (kept_chargeDeep hC value) fun _ => sound_prim hev _ _

theorem sound_evalFormattedValue {value : Expr} (conversion : Option Conversion)
    {formatSpec : Option Expr} (hvalue : Evaluable tame value)
    (hspec : ∀ spec ∈ formatSpec, Evaluable tame spec) (scope : Nat) :
    Sound tame (evalFormattedValue runtime ev value conversion formatSpec scope) := by
  have hC := sound_composing runtime tame
  refine .bind (hev.eval hvalue scope) fun value => ?_
  cases conversion with
  | none => exact sound_formatted hev value _ scope hspec
  | some conversion =>
    exact .bind (kept_render hC hev.serves value conversion) fun text =>
      sound_formatted hev text _ scope hspec

theorem sound_evalBoolOp (op : BoolOperator) {values : List Expr}
    (hvalues : ∀ value ∈ values, Evaluable tame value) (scope : Nat) (result : Value A) :
    Sound tame (evalBoolOp runtime ev op scope values result) := by
  induction values generalizing result with
  | nil => exact .pure _
  | cons value rest ih =>
    rw [List.forall_mem_cons] at hvalues
    refine .bind (hev.eval hvalues.1 scope) fun result =>
      .bind (kept_truth (sound_composing runtime tame) result) fun holds => ?_
    split
    · exact .pure _
    · exact ih hvalues.2 result

theorem sound_evalCompare {comparisons : List (CmpOperator × Expr)}
    (hothers : ∀ comparison ∈ comparisons, Evaluable tame comparison.2) (scope : Nat)
    (left : Value A) : Sound tame (evalCompare runtime ev scope comparisons left) := by
  have hC := sound_composing runtime tame
  induction comparisons generalizing left with
  | nil => exact .pure _
  | cons comparison rest ih =>
    rw [List.forall_mem_cons] at hothers
    refine .bind (hev.eval hothers.1 scope) fun right => .bind (hC.charge fun look =>
      clamped_of_le (compareCost_eq look comparison.1 left right)) fun _ =>
      .bind (sound_prim hev _ _) fun answer => .bind (kept_truth hC answer) fun holds => ?_
    split
    · exact ih hothers.2 right
    · exact .pure _

theorem sound_evalAttribute {value : Expr} (hvalue : Evaluable tame value) (attr : String)
    (scope : Nat) : Sound tame (evalAttribute runtime ev value attr scope) := by
  have hC := sound_composing runtime tame
  refine .bind (hev.eval hvalue scope) fun object => .bind (.inspect _) fun allowed => ?_
  split
  · exact kept_refuse hC _
  · refine .bind (sound_prim hev _ _) fun value => .bind (.inspect _) fun unreachable => ?_
    split
    · exact kept_refuse hC _
    · exact .pure _

theorem sound_evalSet {elts : List Expr} (helts : ∀ elt ∈ elts, Evaluable tame elt) (scope : Nat) :
    Sound tame (evalSet runtime ev elts scope) :=
  .bind (sound_prim hev _ _) fun result =>
    .bind (sound_each fun elt hmem => .bind (hev.eval (helts elt hmem) scope) fun item =>
      kept_addToSet (sound_composing runtime tame) hev.serves result item) fun _ => .pure _

theorem sound_evalDict {keys : List (Option Expr)} {values : List Expr}
    (hkeys : ∀ key, some key ∈ keys → Evaluable tame key)
    (hvalues : ∀ value ∈ values, Evaluable tame value) (scope : Nat) :
    Sound tame (evalDict runtime ev keys values scope) := by
  have hC := sound_composing runtime tame
  refine .bind (sound_prim hev _ _) fun result => .bind (sound_each fun pair hmem => ?_)
    fun _ => .pure _
  obtain ⟨hkey, hvalue⟩ := List.of_mem_zip hmem
  split
  · exact kept_refuse hC _
  next key hsome =>
    exact .bind (hev.eval (hkeys key (hsome ▸ hkey)) scope) fun _ => .bind (kept_chargeKey hC _)
      fun _ => .bind (hev.eval (hvalues _ hvalue) scope) fun _ => .bind (sound_prim hev _ _)
        fun _ => .pure ()

theorem sound_allHold {conds : List Expr} (hconds : ∀ cond ∈ conds, Evaluable tame cond)
    (scope : Nat) : Sound tame (allHold runtime ev scope conds) := by
  induction conds with
  | nil => exact .pure _
  | cons cond rest ih =>
    rw [List.forall_mem_cons] at hconds
    refine .bind (hev.eval hconds.1 scope) fun value =>
      .bind (kept_truth (sound_composing runtime tame) value) fun holds => ?_
    split
    · exact ih hconds.2
    · exact .pure _

section Comprehensions

variable {generators : List Generator}
  (htargets : ∀ generator ∈ generators, Bindable tame generator.target)
  (hiters : ∀ generator ∈ generators, Evaluable tame generator.iter)
  (hifs : ∀ generator ∈ generators, ∀ cond ∈ generator.ifs, Evaluable tame cond)

include htargets hiters hifs

theorem sound_runComp {emit : Nat → γ → Run A X H N γ}
    (hemit : ∀ scope reached, Sound tame (emit scope reached)) (scope : Nat) (reached : γ) :
    Sound tame (runComp runtime ev emit generators scope reached) := by
  have hC := sound_composing runtime tame
  induction generators generalizing scope reached with
  | nil => exact hemit scope reached
  | cons generator rest ih =>
    obtain ⟨target, source, ifs⟩ := generator
    rw [List.forall_mem_cons] at htargets hiters hifs
    refine .bind (hev.eval hiters.1 scope) fun _ => .bind (kept_iter hC hev.serves _) fun _ =>
      kept_foldItems hC hev.serves (fun item reached => ?_) _ _
    refine .bind (kept_tick hC 1) fun _ => .bind (kept_openScope hC _) fun inner =>
      .bind (hev.bind htargets.1 item inner) fun _ => .bind (sound_allHold hev hifs.1 inner)
        fun holds => ?_
    split
    · exact ih htargets.2 hiters.2 hifs.2 inner reached
    · exact .pure _

theorem sound_compElements {elt : Expr} (helt : Evaluable tame elt) (scope : Nat) :
    Sound tame (compElements runtime ev elt generators scope) :=
  sound_runComp hev htargets hiters hifs (fun inner _ => .bind (hev.eval helt inner) fun _ =>
    .pure _) scope []

theorem sound_evalDictComp {key value : Expr} (hkey : Evaluable tame key)
    (hvalue : Evaluable tame value) (scope : Nat) :
    Sound tame (evalDictComp runtime ev key value generators scope) := by
  refine .bind (sound_prim hev _ _) fun result =>
    .bind (sound_runComp hev htargets hiters hifs (fun inner _ => ?_) scope ()) fun _ => .pure _
  exact .bind (hev.eval hkey inner) fun _ =>
    .bind (kept_chargeKey (sound_composing runtime tame) _) fun _ =>
      .bind (hev.eval hvalue inner) fun _ => .bind (sound_prim hev _ _) fun _ => .pure ()

end Comprehensions

omit hev in
theorem sound_unhandled {kind : NodeKind} (htame : tame kind) (refusal : Refusal) :
    Sound tame (unhandled kind refusal : Run A X H N α) :=
  .bind (.note htame) fun _ => .raise _

theorem sound_evalExpr {node : Expr} (hnode : Evaluable tame node) (scope : Nat) :
    Sound tame (evalExpr runtime ev node scope) := by
  have hC := sound_composing runtime tame
  refine .bind (kept_tick hC 1) fun _ => ?_
  cases hnode with
  | constant value => exact .pure _
  | name ident => exact kept_loadTarget hC _ scope
  | joinedStr hvalues => exact .bind (sound_nodes hev hvalues scope) fun _ => sound_prim hev _ _
  | formattedValue hvalue hspec => exact sound_evalFormattedValue hev _ hvalue hspec scope
  | binOp hleft hright =>
    exact .bind (hev.eval hleft scope) fun _ => .bind (hev.eval hright scope) fun _ =>
      kept_applyBinop hC hev.serves _ _ _
  | unaryOp hoperand => exact .bind (hev.eval hoperand scope) fun _ => sound_prim hev _ _
  | boolOp hvalues => exact sound_evalBoolOp hev _ hvalues scope _
  | compare hleft hothers =>
    exact .bind (hev.eval hleft scope) fun _ => sound_evalCompare hev
      (fun comparison hmem => hothers _ (List.of_mem_zip hmem).2) scope _
  | ifExp htest hbody horelse =>
    refine .bind (hev.eval htest scope) fun _ => .bind (kept_truth hC _) fun holds => ?_
    split
    · exact hev.eval hbody scope
    · exact hev.eval horelse scope
  | call hfunc hargs hvalues => exact sound_evalCall hev hfunc hargs hvalues scope
  | «attribute» hvalue => exact sound_evalAttribute hev hvalue _ scope
  | subscript hvalue hslice =>
    exact .bind (sound_subscript hev hvalue hslice scope) fun _ => sound_prim hev _ _
  | list helts => exact .bind (sound_nodes hev helts scope) fun _ => sound_prim hev _ _
  | tuple helts => exact .bind (sound_nodes hev helts scope) fun _ => sound_prim hev _ _
  | set helts => exact sound_evalSet hev helts scope
  | dict hkeys hvalues => exact sound_evalDict hev hkeys hvalues scope
  | lambda hdefaults hbody =>
    refine sound_makeClosure hev hdefaults fun closure hsame => ?_
    unfold Closure.Runnable
    rw [hsame]
    exact hbody
  | listComp helt htargets hiters hifs =>
    exact .bind (sound_compElements hev htargets hiters hifs helt scope) fun _ =>
      sound_prim hev _ _
  | generatorExp helt htargets hiters hifs =>
    exact .bind (sound_compElements hev htargets hiters hifs helt scope) fun _ =>
      sound_prim hev _ _
  | setComp helt htargets hiters hifs =>
    exact .bind (sound_compElements hev htargets hiters hifs helt scope) fun _ =>
      .bind (sound_prim hev _ _) fun result =>
        .bind (kept_each hC (kept_addToSet hC hev.serves result) _) fun _ => .pure _
  | dictComp hkey hvalue htargets hiters hifs =>
    exact sound_evalDictComp hev htargets hiters hifs hkey hvalue scope
  | slice htame _ => exact sound_unhandled htame _
  | starred htame _ => exact sound_unhandled htame _
  | other htame => exact sound_unhandled htame _

/-! ## Statements -/

theorem sound_execAugAssign {target : Expr} (htarget : Bindable tame target) (op : Operator)
    {value : Expr} (hvalue : Evaluable tame value) (scope : Nat) :
    Sound tame (execAugAssign runtime ev target op value scope) := by
  have hC := sound_composing runtime tame
  have hbind := fun made => hev.bind htarget made scope
  unfold execAugAssign
  split
  next container key =>
    cases htarget with
    | subscript hcontainer hkey =>
      exact .bind (sound_subscript hev hcontainer hkey scope) fun _ =>
        .bind (sound_prim hev _ _) fun _ => .bind (hev.eval hvalue scope) fun _ =>
          .bind (kept_applyBinop hC hev.serves op _ _) fun _ => .bind (sound_prim hev _ _)
            fun _ => .pure ()
    | refused hother => cases hother
  next =>
    exact .bind (kept_loadTarget hC _ scope) fun _ => .bind (hev.eval hvalue scope) fun _ =>
      .bind (kept_applyBinop hC hev.serves op _ _) fun _ => hbind _

theorem sound_schemaField (owner : String) (scope : Nat) {stmt : Stmt}
    (hfield : ∀ (target annotation value : Expr) (simple : Bool),
      stmt = .annAssign target annotation (some value) simple → Evaluable tame value) :
    Sound tame (schemaField runtime ev owner scope stmt) := by
  have hC := sound_composing runtime tame
  unfold schemaField
  split
  next field annotation value simple =>
    refine .bind (kept_tick hC 1) fun _ => .bind (kept_ofRefusal hC _) fun text => ?_
    cases value with
    | none => exact .pure _
    | some value =>
      exact .bind (hev.eval (hfield _ _ value _ rfl) scope) fun _ => .bind (sound_prim hev _ _)
        fun _ => .pure _
  next => exact kept_refuse hC _
  next => exact .pure _

theorem sound_execClassDef (name : String) {bases : List Expr} {body : List Stmt} (scope : Nat)
    (hbases : ∀ base ∈ bases, Evaluable tame base)
    (hfields : ∀ (target annotation value : Expr) (simple : Bool),
      .annAssign target annotation (some value) simple ∈ body → Evaluable tame value) :
    Sound tame (execClassDef runtime ev name bases body scope) := by
  have hC := sound_composing runtime tame
  cases bases with
  | nil => exact kept_refuse hC _
  | cons base rest =>
    refine .bind (hev.eval (hbases base List.mem_cons_self) scope) fun base => ?_
    split
    · exact kept_refuse hC _
    · refine .bind (sound_each fun stmt hmem => sound_schemaField hev name scope ?_) fun _ =>
        .bind (sound_prim hev _ _) fun _ => .update (fun _ => rfl) fun _ => rfl
      rintro target annotation value simple rfl
      exact hfields target annotation value simple hmem

theorem sound_bindImport (module : String) (scope : Nat) (name : String × Option String) :
    Sound tame (bindImport runtime ev module scope name) := by
  unfold bindImport
  split
  · exact .raise _
  · exact .bind (sound_prim hev _ _) fun _ => .update (fun _ => rfl) fun _ => rfl

theorem sound_execImportFrom (module : Option String) (names : List (String × Option String))
    (scope : Nat) : Sound tame (execImportFrom runtime ev module names scope) := by
  cases module with
  | none => exact .raise _
  | some path =>
    unfold execImportFrom
    dsimp only
    split
    · exact .raise _
    · exact .bind (sound_prim hev _ _) fun _ =>
        .bind (sound_each fun name _ => sound_bindImport hev path scope name) fun _ => .pure ()

/-- Managers are left soundly, whatever happens after them. -/
theorem sound_leave (unwinding : Bool) {after : Run A X H N Unit} (hafter : Sound tame after)
    (managers : List (Value A)) (pending : Option (Failure X)) :
    Sound tame (leave runtime ev unwinding after managers pending) := by
  have hC := sound_composing runtime tame
  induction managers generalizing pending with
  | nil =>
    cases pending with
    | none => exact hafter
    | some failure => exact .raise _
  | cons manager rest ih =>
    cases pending with
    | none =>
      refine .outcome_bind_any (kept_runNative hC hev.serves _) fun left => ?_
      rcases left with (failure | signal) | value
      · exact ih _
      · exact .raise _
      · exact ih none
    | some failure =>
      refine .bind (.note trivial) fun _ => .outcome_bind_any
        (.bind (kept_runNative hC hev.serves _) fun _ => kept_truth hC _) fun left => ?_
      rcases left with (failure | signal) | (_ | _)
      · exact ih _
      · exact .raise _
      · exact ih _
      · refine .bind ?_ fun _ => ih none
        unfold noteSuppressed
        split
        · exact .note trivial
        · exact .pure ()

theorem sound_unwind (managers : List (Value A)) (ended : Except (Raised A X) Unit) :
    Sound tame (unwind runtime ev managers ended) := by
  rcases ended with (failure | signal) | value
  · exact sound_leave hev false (.pure ()) managers _
  · exact sound_leave hev true (.raise _) managers none
  · exact sound_leave hev false (.pure ()) managers none

theorem sound_execWith {body : Run A X H N Unit} (hbody : Sound tame body) (scope : Nat)
    {items : List (Expr × Option Expr)} (hcontexts : ∀ item ∈ items, Evaluable tame item.1)
    (htargets : ∀ item ∈ items, ∀ target ∈ item.2, Bindable tame target)
    (managers : List (Value A)) :
    Sound tame (execWith runtime ev body scope items managers) := by
  induction items generalizing managers with
  | nil => exact .outcome_bind_any hbody fun ended => sound_unwind hev managers ended
  | cons item rest ih =>
    obtain ⟨context, target⟩ := item
    rw [List.forall_mem_cons] at hcontexts htargets
    refine .outcome_bind_any (.bind (hev.eval hcontexts.1 scope) fun _ => .bind (.note trivial)
      fun _ => .bind (sound_prim hev _ _) fun _ => .pure _) fun entered => ?_
    cases entered with
    | error raised => exact sound_unwind hev managers _
    | ok entered =>
      obtain ⟨manager, entered⟩ := entered
      refine .outcome_bind_any ?_ fun bound => ?_
      · cases target with
        | none => exact .pure ()
        | some target => exact hev.bind (htargets.1 target rfl) entered scope
      · cases bound with
        | error raised => exact sound_unwind hev (manager :: managers) _
        | ok value => exact ih hcontexts.2 htargets.2 (manager :: managers)

theorem sound_execFor {target source : Expr} {body orelse : Run A X H N Unit}
    (htarget : Bindable tame target) (hsource : Evaluable tame source) (hbody : Sound tame body)
    (horelse : Sound tame orelse) (scope : Nat) :
    Sound tame (execFor runtime ev target source body orelse scope) := by
  have hC := sound_composing runtime tame
  refine .bind (hev.eval hsource scope) fun source => .bind (kept_iter hC hev.serves source)
    fun iterator => .bind (kept_loopItems hC hev.serves (fun item _ => ?_) iterator ())
      fun ended => ?_
  · refine .bind (kept_tick hC 1) fun _ => .bind (hev.bind htarget item scope) fun _ =>
      .outcome_bind_any hbody fun ended => ?_
    split
    · exact .pure _
    · exact .pure _
    · exact .pure _
    · exact .raise _
  · split
    · exact horelse
    · exact .pure ()

end Handlers

mutual

theorem sound_exec (hev : ev.Sound tame) {inFunction inLoop : Bool} (stmt : Stmt) (scope : Nat)
    (hstmt : Runnable tame inFunction inLoop stmt) :
    Sound tame (exec runtime ev stmt scope) := by
  have hC := sound_composing runtime tame
  unfold exec
  refine .bind (kept_tick hC 1) fun _ => .bind (.update (fun _ => rfl) fun _ => rfl) fun _ => ?_
  cases stmt with
  | passStmt => exact .pure ()
  | exprStmt value =>
    cases hstmt with
    | exprStmt hvalue => exact .bind (hev.eval hvalue scope) fun _ => .pure ()
  | assign targets value =>
    cases hstmt with
    | assign htargets hvalue =>
      exact .bind (hev.eval hvalue scope) fun _ => .bind (sound_each fun target hmem =>
        hev.bind (htargets target hmem) _ scope) fun _ => .pure ()
  | annAssign target annotation value simple =>
    cases hstmt with
    | annAssign htarget hvalue =>
      cases value with
      | none => exact .pure ()
      | some value =>
        exact .bind (hev.eval (hvalue value rfl) scope) fun _ => hev.bind htarget _ scope
  | augAssign target op value =>
    cases hstmt with
    | augAssign htarget hvalue => exact sound_execAugAssign hev htarget op hvalue scope
  | ifStmt test body orelse =>
    cases hstmt with
    | ifStmt htest hbody horelse =>
      refine .bind (hev.eval htest scope) fun _ => .bind (kept_truth hC _) fun holds => ?_
      split
      · exact sound_execAll hev body scope hbody
      · exact sound_execAll hev orelse scope horelse
  | forStmt target source body orelse =>
    cases hstmt with
    | forStmt htarget hsource hbody horelse =>
      exact sound_execFor hev htarget hsource (sound_execAll hev body scope hbody)
        (sound_execAll hev orelse scope horelse) scope
  | withStmt items body =>
    cases hstmt with
    | withStmt hcontexts htargets hbody =>
      exact sound_execWith hev (sound_execAll hev body scope hbody) scope hcontexts htargets []
  | breakStmt => exact .raise _
  | continueStmt => exact .raise _
  | returnStmt value =>
    cases value with
    | none => exact .raise _
    | some value =>
      cases hstmt with
      | returnStmt hvalue => exact .bind (hev.eval (hvalue value rfl) scope) fun _ => .raise _
  | functionDef name params annotations defaults body decorators typeParams =>
    cases hstmt with
    | functionDef hdefaults hbody =>
      refine .bind (sound_makeClosure hev hdefaults fun closure hsame => ?_) fun _ =>
        .update (fun _ => rfl) fun _ => rfl
      unfold Closure.Runnable
      rw [hsame]
      exact hbody
  | classDef name bases keywords decorated typeParams body =>
    cases hstmt with
    | classDef hbases hfields => exact sound_execClassDef hev name scope hbases hfields
  | importStmt names => exact .raise _
  | importFrom module names level => exact sound_execImportFrom hev module names scope
  | other kind =>
    cases hstmt with
    | other htame => exact sound_unhandled htame _

theorem sound_execAll (hev : ev.Sound tame) {inFunction inLoop : Bool} (stmts : List Stmt)
    (scope : Nat) (hstmts : ∀ stmt ∈ stmts, Runnable tame inFunction inLoop stmt) :
    Sound tame (execAll runtime ev stmts scope) := by
  unfold execAll
  cases stmts with
  | nil => exact .pure ()
  | cons stmt rest =>
    rw [List.forall_mem_cons] at hstmts
    exact .bind (sound_exec hev stmt scope hstmts.1) fun _ =>
      sound_execAll hev rest scope hstmts.2

end

/-! ## Where control flow ends -/

/-- Where the signal may come out: a `return` of a function's body, the others of a loop's. -/
def Signal.Within (inFunction inLoop : Bool) : Signal A → Prop
  | .ret _ => inFunction = true
  | .brk => inLoop = true
  | .cont => inLoop = true

/-- Control flow that must not come out there. -/
def Raised.Escapes (inFunction inLoop : Bool) (raised : Raised A X) : Prop :=
  ∃ signal, raised.control = some signal ∧ ¬ signal.Within inFunction inLoop

/-- Only the control flow comes out that may. -/
abbrev Contained (inFunction inLoop : Bool) (first : Run A X H N α) : Prop :=
  Avoids (Raised.Escapes inFunction inLoop) first

theorem failure_not_escapes {inFunction inLoop : Bool} (failure : Failure X) :
    ¬ (Raised.failure failure : Raised A X).Escapes inFunction inLoop := by
  rintro ⟨signal, hsignal, -⟩
  cases hsignal

theorem not_escapes {inFunction inLoop : Bool} {signal : Signal A}
    (hwithin : signal.Within inFunction inLoop) :
    ¬ (Raised.signal signal : Raised A X).Escapes inFunction inLoop := by
  rintro ⟨found, hfound, hout⟩
  cases hfound
  exact hout hwithin

theorem within_of_not_escapes {inFunction inLoop : Bool} {signal : Signal A}
    (hstays : ¬ (Raised.signal signal : Raised A X).Escapes inFunction inLoop) :
    signal.Within inFunction inLoop := by
  by_contra hout
  exact hstays ⟨signal, rfl, hout⟩

theorem contained_of_quiet {inFunction inLoop : Bool} {first : Run A X H N α}
    (hquiet : Quiet first) : Contained inFunction inLoop first :=
  hquiet.mono fun raised hescapes => by
    obtain ⟨signal, hsignal, -⟩ := hescapes
    unfold Raised.IsSignal
    rw [hsignal]
    rfl

section Contained

variable {inFunction inLoop : Bool} (hev : ev.Quiet)

include hev

theorem contained_keeps : ev.Keeps fun _ first => Contained inFunction inLoop first :=
  ⟨fun node scope => contained_of_quiet (hev.eval node scope),
    fun target value scope => contained_of_quiet (hev.bind target value scope),
    fun index args kwargs => contained_of_quiet (hev.invoke index args kwargs),
    fun func args kwargs => contained_of_quiet (hev.callNative func args kwargs),
    fun native => contained_of_quiet (hev.drive native),
    fun value => contained_of_quiet (hev.setsAsLists value)⟩

theorem contained_leave (unwinding : Bool) {after : Run A X H N Unit}
    (hafter : Contained inFunction inLoop after) (managers : List (Value A))
    (pending : Option (Failure X)) :
    Contained inFunction inLoop (leave runtime ev unwinding after managers pending) := by
  have hexit (native : N) : Contained inFunction inLoop (runNative runtime ev native) :=
    contained_of_quiet (quiet_runNative hev native)
  induction managers generalizing pending with
  | nil =>
    cases pending with
    | none => exact hafter
    | some failure => exact .raise (failure_not_escapes failure)
  | cons manager rest ih =>
    cases pending with
    | none =>
      refine .outcome_bind (hexit _) fun left hleft => ?_
      rcases left with (failure | signal) | value
      · exact ih _
      · exact .raise (hleft _ rfl)
      · exact ih none
    | some failure =>
      refine .bind (.update _) fun _ => .outcome_bind
        (.bind (hexit _) fun _ => contained_of_quiet (quiet_truth _)) fun left hleft => ?_
      rcases left with (failure | signal) | (_ | _)
      · exact ih _
      · exact .raise (hleft _ rfl)
      · exact ih _
      · refine .bind ?_ fun _ => ih none
        unfold noteSuppressed
        split
        · exact .update _
        · exact .pure ()

theorem contained_unwind (managers : List (Value A)) {ended : Except (Raised A X) Unit}
    (hended : ∀ raised, ended = .error raised → ¬ raised.Escapes inFunction inLoop) :
    Contained inFunction inLoop (unwind runtime ev managers ended) := by
  rcases ended with (failure | signal) | value
  · exact contained_leave hev false (.pure ()) managers _
  · exact contained_leave hev true (.raise (hended _ rfl)) managers none
  · exact contained_leave hev false (.pure ()) managers none

theorem contained_execWith {body : Run A X H N Unit} (hbody : Contained inFunction inLoop body)
    (scope : Nat) (items : List (Expr × Option Expr)) (managers : List (Value A)) :
    Contained inFunction inLoop (execWith runtime ev body scope items managers) := by
  have hK : ev.Keeps fun _ first => Contained inFunction inLoop first := contained_keeps hev
  induction items generalizing managers with
  | nil => exact .outcome_bind hbody fun ended hended => contained_unwind hev managers hended
  | cons item rest ih =>
    obtain ⟨context, target⟩ := item
    refine .outcome_bind (kept_enterManager (avoids_compositional failure_not_escapes runtime) hK
      context scope) fun entered hentered => ?_
    cases entered with
    | error raised =>
      refine contained_unwind hev managers fun other hother => ?_
      cases hother
      exact hentered raised rfl
    | ok entered =>
      obtain ⟨manager, entered⟩ := entered
      refine .outcome_bind (?_ : Contained inFunction inLoop _) fun bound hbound => ?_
      · cases target with
        | none => exact .pure ()
        | some target => exact hK.bind target entered scope
      · cases bound with
        | error raised =>
          refine contained_unwind hev (manager :: managers) fun other hother => ?_
          cases hother
          exact hbound raised rfl
        | ok value => exact ih (manager :: managers)

/-- A loop lets `return` out of its body and nothing else. -/
theorem contained_execFor (target source : Expr) {body orelse : Run A X H N Unit}
    (hbody : Contained inFunction true body) (horelse : Contained inFunction inLoop orelse)
    (scope : Nat) :
    Contained inFunction inLoop (execFor runtime ev target source body orelse scope) := by
  have hP : Compositional runtime fun _ first => Contained inFunction inLoop first :=
    avoids_compositional failure_not_escapes runtime
  have hK : ev.Keeps fun _ first => Contained inFunction inLoop first := contained_keeps hev
  refine .bind (hK.eval source scope) fun source =>
    .bind (kept_iter hP.composing hK.serves source) fun iterator =>
      .bind (kept_loopItems hP.composing hK.serves (fun item _ => ?_) iterator ()) fun ended => ?_
  · refine .bind (kept_tick hP.composing 1) fun _ => .bind (hK.bind target item scope) fun _ => ?_
    refine .outcome_bind hbody fun ended hended => ?_
    rcases ended with (failure | (_ | _ | value)) | value
    · exact .raise (failure_not_escapes failure)
    · exact .pure _
    · exact .pure _
    · have hreturns : (Signal.ret value).Within inFunction true :=
        within_of_not_escapes (hended _ rfl)
      exact .raise (not_escapes hreturns)
    · exact .pure _
  · split
    · exact horelse
    · exact .pure ()

end Contained

mutual

theorem contained_exec (hev : ev.Quiet) {inFunction inLoop : Bool} (stmt : Stmt) (scope : Nat)
    (hstmt : Runnable tame inFunction inLoop stmt) :
    Contained inFunction inLoop (exec runtime ev stmt scope) := by
  have hP : Compositional runtime fun _ first => Contained inFunction inLoop first :=
    avoids_compositional failure_not_escapes runtime
  have hK : ev.Keeps fun _ first => Contained inFunction inLoop first := contained_keeps hev
  unfold exec
  refine .bind (kept_tick hP.composing 1) fun _ => .bind (.update _) fun _ => ?_
  cases stmt with
  | passStmt => exact .pure ()
  | exprStmt value => exact .bind (hK.eval value scope) fun _ => .pure ()
  | assign targets value =>
    exact .bind (hK.eval value scope) fun _ =>
      .bind (kept_each hP.composing (fun target => hK.bind target _ scope) targets) fun _ =>
        .pure ()
  | annAssign target annotation value simple =>
    cases value with
    | none => exact .pure ()
    | some value => exact .bind (hK.eval value scope) fun _ => hK.bind target _ scope
  | augAssign target op value => exact kept_execAugAssign hP hK target op value scope
  | ifStmt test body orelse =>
    cases hstmt with
    | ifStmt _ hbody horelse =>
      refine .bind (hK.eval test scope) fun _ => .bind (kept_truth hP.composing _) fun holds => ?_
      split
      · exact contained_execAll hev body scope hbody
      · exact contained_execAll hev orelse scope horelse
  | forStmt target source body orelse =>
    cases hstmt with
    | forStmt _ _ hbody horelse =>
      exact contained_execFor hev target source (contained_execAll hev body scope hbody)
        (contained_execAll hev orelse scope horelse) scope
  | withStmt items body =>
    cases hstmt with
    | withStmt _ _ hbody =>
      exact contained_execWith hev (contained_execAll hev body scope hbody) scope items []
  | breakStmt =>
    cases hstmt with
    | breakStmt => exact .raise (not_escapes rfl)
  | continueStmt =>
    cases hstmt with
    | continueStmt => exact .raise (not_escapes rfl)
  | returnStmt value =>
    cases hstmt with
    | returnStmt hvalue =>
      cases value with
      | none => exact .raise (not_escapes rfl)
      | some value => exact .bind (hK.eval value scope) fun _ => .raise (not_escapes rfl)
  | functionDef name params annotations defaults body decorators typeParams =>
    exact .bind (kept_makeClosure hP hK params defaults _ scope name) fun _ => .update _
  | classDef name bases keywords decorated typeParams body =>
    exact kept_execClassDef hP hK name bases body scope
  | importStmt names => exact kept_refuse hP.composing _
  | importFrom module names level => exact kept_execImportFrom hP hK module names scope
  | other kind => exact kept_unhandled hP _ _

theorem contained_execAll (hev : ev.Quiet) {inFunction inLoop : Bool} (stmts : List Stmt)
    (scope : Nat) (hstmts : ∀ stmt ∈ stmts, Runnable tame inFunction inLoop stmt) :
    Contained inFunction inLoop (execAll runtime ev stmts scope) := by
  unfold execAll
  cases stmts with
  | nil => exact .pure ()
  | cons stmt rest =>
    rw [List.forall_mem_cons] at hstmts
    exact .bind (contained_exec hev stmt scope hstmts.1) fun _ =>
      contained_execAll hev rest scope hstmts.2

end

/-! ## Calls and runs -/

/-- A body that is left by what it may be left by does not stray. -/
theorem sound_invoke (hev : ev.Sound tame) (hquiet : ev.Quiet) (index : Nat)
    (args : List (Value A)) (kwargs : List (String × Value A)) :
    Sound tame (invoke runtime ev index args kwargs) := by
  have hC := sound_composing runtime tame
  refine .inspect_bind fun state hsane => ?_
  cases hfound : state.closures[index]? with
  | none => exact .unfinished
  | some closure =>
    have hclosure := hsane.closures closure (List.mem_of_getElem? hfound)
    refine .bind (kept_ofRefusal hC _) fun scope => .bind (kept_openScope hC scope) fun inner => ?_
    unfold Closure.Runnable at hclosure
    cases hbody : closure.body with
    | inr body =>
      rw [hbody] at hclosure
      exact hev.eval hclosure inner
    | inl body =>
      rw [hbody] at hclosure
      refine .outcome_bind (sound_execAll hev body inner hclosure)
        (contained_execAll hquiet body inner hclosure) fun ended hended => ?_
      rcases ended with (failure | (_ | _ | value)) | value
      · exact .raise _
      · cases within_of_not_escapes (hended _ rfl)
      · cases within_of_not_escapes (hended _ rfl)
      · exact .pure _
      · exact .pure _

theorem sound_evaluator (runtime : Runtime A X H N) (tame : NodeKind → Prop) (depth : Nat) :
    (evaluator runtime depth).Sound tame := by
  have hC := sound_composing runtime tame
  induction depth with
  | zero =>
    exact ⟨fun _ _ => .unfinished, fun _ _ _ => .unfinished, fun _ _ _ => .unfinished,
      fun _ _ _ => .unfinished, fun _ => .unfinished, fun _ => .unfinished⟩
  | succ depth ih =>
    exact ⟨sound_evalExpr ih, sound_bindTarget ih, sound_invoke ih (quiet_evaluator runtime depth),
      kept_callNative hC ih.serves, kept_driveNative hC ih.serves, kept_setsAsLists hC ih.serves⟩

theorem sound_runModule (runtime : Runtime A X H N) (depth : Nat) {program : Program}
    (hprogram : ∀ stmt ∈ program, Runnable tame false false stmt) :
    Sound tame (runModule runtime depth program) := by
  refine .outcome_bind (sound_execAll (sound_evaluator runtime tame depth) program 0 hprogram)
    (contained_execAll (quiet_evaluator runtime depth) program 0 hprogram) fun ended hended => ?_
  rcases ended with (failure | (_ | _ | value)) | value
  · exact .raise _
  · cases within_of_not_escapes (hended _ rfl)
  · cases within_of_not_escapes (hended _ rfl)
  · cases within_of_not_escapes (hended _ rfl)
  · exact .pure ()

/-- **Accepted programs keep their control flow and meet no node without a handler** but starred
elements and slices, and none at all where these stand where handlers expect them: in every run, on
every runtime, at any depth and with any fuel. -/
theorem accepted_runs_tame {rules : Rules} {program : Program}
    (haccepted : rules.validate program = .ok ()) (runtime : Runtime A X H N)
    (depth allowance : Nat) (heap : H) (globals : Scope A) :
    (∀ event ∈ (runModule runtime depth program allowance (start heap globals)).2.events,
      event.Tame Misplaced) ∧
    ((∀ stmt ∈ program, Runnable (fun _ => False) false false stmt) →
      ∀ event ∈ (runModule runtime depth program allowance (start heap globals)).2.events,
        event.Tame fun _ => False) := by
  have hstart (tame : NodeKind → Prop) : (start heap globals : State A X H N).Sane tame :=
    ⟨fun _ hmem => absurd hmem List.not_mem_nil, fun _ hmem => absurd hmem List.not_mem_nil⟩
  refine ⟨?_, fun hplaced => ?_⟩
  · exact (sound_runModule runtime depth (Rules.runnable_of_validate haccepted) allowance _
      (hstart Misplaced)).events
  · exact (sound_runModule runtime depth hplaced allowance _ (hstart _)).events

namespace Iterating

/-- A function that leaves a loop both ways, and a call of a function that makes `[*None]`. -/
def starring : Program :=
  [.functionDef "f" {} [] [] [.forStmt (.tuple []) (.list []) [.breakStmt, .returnStmt none] []] []
      false,
    .exprStmt (.call (.lambda {} [] (.list [.starred (.constant .none)])) [] [] [])]

theorem starring_tame : (({} : Rules).validate starring = .ok ()) ∧
    {event | event ∈ (runModule python 9 starring 99 (start [] {})).2.events} ⊆
      {event | event.Tame Misplaced} :=
  have haccepted : ({} : Rules).validate starring = .ok () := rfl
  ⟨haccepted, (accepted_runs_tame haccepted python 9 99 [] {}).1⟩

example : ∃ earlier, (runModule python 9 starring 99 (start [] {})).2.events =
    .unhandled .starred :: earlier := ⟨_, rfl⟩

end Iterating

end Atlantide.Lang
