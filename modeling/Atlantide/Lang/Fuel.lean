import Atlantide.Lang.Handlers

/-! # Fuel decides whether, never what

A charge looks at what is left only to stop counting, so a run that stays within its fuel is the
same run with more. A run that leaves its fuel ends exhausted, as long as whoever is handed the
exhaustion lets it through: a native that called back, a manager that is left because of it. The
interpreter cannot make them. -/

namespace Atlantide.Lang

open Metered

variable {A X H N : Type} {α : Type} {runtime : Runtime A X H N} {ev : Evaluator A X H N}

/-- Fuel decides whether the computation gets to its end, and nothing else. -/
abbrev IsFair (runtime : Runtime A X H N) (α : Type) (first : Run A X H N α) : Prop :=
  Fair (fuel runtime) first

/-! ## Handlers -/

theorem fair_note (event : Event A X N) : IsFair runtime Unit (update (·.note event)) :=
  .update (fun _ => rfl) fun _ hclean past hpast => hclean past (List.mem_cons_of_mem _ hpast)

/-- A native whose first step ends it needs nothing of the nesting that is left. -/
theorem runNative_done {native : N} {result : Except (Failure X) (Value A)} {heap : H}
    {allowance : Nat} {state : State A X H N}
    (hstep : runtime.step native state.heap = .done result heap) :
    runNative runtime ev native allowance state =
      (some (result.mapError .failure), state.setHeap heap) := by
  unfold runNative
  simp only [bind_eq, Metered.bind, inspect, hstep, settle, update, Metered.ofExcept]

/-- A native that is handed an exhaustion lets it through. -/
theorem fair_resume {first : Run A X H N (Value A)} (resume : Except (Failure X) (Value A) → N)
    (hfirst : IsFair runtime _ first)
    (hrun : ∀ native, IsFair runtime _ (runNative runtime ev native)) :
    IsFair runtime _ (do
      let result ← outcome first
      resumeNative runtime ev resume result) := by
  refine .outcome_bind hfirst (fun result => ?_) fun allowance state hclean => ?_
  · rcases result with (failure | signal) | value
    · exact .bind (fair_note _) fun _ => hrun _
    · exact .raise _
    · exact hrun _
  · have hpasses : Event.Passes runtime (.resumed resume .exhausted) :=
      (hrun _).traced allowance (state.note (.resumed resume .exhausted)) hclean _
        List.mem_cons_self
    obtain ⟨after, hstep⟩ := hpasses state.heap
    have hresumed : resumeNative runtime ev resume (.error (.failure .exhausted)) allowance state =
        runNative runtime ev (resume (.error .exhausted)) allowance
          (state.note (.resumed resume .exhausted)) := rfl
    have hended := @runNative_done A X H N runtime ev _ _ after allowance
      (state.note (.resumed resume .exhausted)) hstep
    exact congrArg Prod.fst (hresumed.trans hended)

theorem fair_compositional (runtime : Runtime A X H N) :
    Compositional runtime (IsFair runtime) where
  pure := .pure
  bind := .bind
  unfinished := .unfinished
  failed _ := .raise _
  inspect := .inspect
  update hchange := .update (fun state => (hchange state).1) fun state hclean event hevent =>
    hclean event ((hchange state).2.symm ▸ hevent)
  note := fair_note
  charge hprice := .charge fun _ => hprice _
  resume := fair_resume

/-! ## Statements -/

section Statements

variable (hev : ev.Keeps (IsFair runtime))

include hev

/-! ### Managers -/

/-- What follows the exit of a manager that was left because of a failure. -/
def afterExit (runtime : Runtime A X H N) (ev : Evaluator A X H N) (unwinding : Bool)
    (after : Run A X H N Unit) (manager : Value A) (rest : List (Value A)) (failure : Failure X) :
    Except (Raised A X) Bool → Run A X H N Unit
  | .ok true => do
    noteSuppressed unwinding manager
    leave runtime ev unwinding after rest none
  | .ok false => leave runtime ev unwinding after rest (some failure)
  | .error (.failure failure) => leave runtime ev unwinding after rest (some failure)
  | .error (.signal signal) => raise (.signal signal)

omit hev in
/-- A manager that lets an exhaustion through raises it itself or does not suppress it. -/
theorem left_exhausted {manager : Value A}
    (hpasses : Event.Passes runtime (.unwound manager .exhausted)) (allowance : Nat)
    (state : State A X H N) :
    ∃ after ended, outcome (do
        let answer ← runNative runtime ev (runtime.exit manager (some .exhausted))
        truth runtime answer) allowance state = (some (.ok ended), state.setHeap after) ∧
      (ended = .error (.failure .exhausted) ∨ ended = .ok false) := by
  obtain ⟨after, hstep | ⟨value, hstep, htruth⟩⟩ := hpasses state.heap
  · refine ⟨after, .error (.failure .exhausted), ?_, .inl rfl⟩
    simp only [outcome, bind_eq, Metered.bind, runNative_done hstep, Except.mapError]
  · refine ⟨after, .ok false, ?_, .inr rfl⟩
    simp only [outcome, bind_eq, Metered.bind, runNative_done hstep, Except.mapError, truth,
      inspect, Metered.ofExcept, State.setHeap, htruth]

omit hev in
theorem fair_noteSuppressed (unwinding : Bool) (manager : Value A) :
    IsFair runtime _ (noteSuppressed unwinding manager) := by
  unfold noteSuppressed
  split
  · exact fair_note _
  · exact .pure ()

/-- Managers are left fairly, and an exhaustion that is active stays active. -/
theorem fair_leave (unwinding : Bool) {after : Run A X H N Unit} (hafter : IsFair runtime _ after)
    (managers : List (Value A)) :
    (∀ pending, IsFair runtime _ (leave runtime ev unwinding after managers pending)) ∧
    ∀ allowance state,
      (fuel runtime).clean
          (leave runtime ev unwinding after managers (some .exhausted) allowance state).2 →
        Exhausted (fuel runtime)
          (leave runtime ev unwinding after managers (some .exhausted) allowance state) := by
  have hP := fair_compositional runtime
  induction managers with
  | nil =>
    refine ⟨fun pending => ?_, fun _ _ _ => rfl⟩
    cases pending with
    | none => exact hafter
    | some failure => exact .raise _
  | cons manager rest ih =>
    obtain ⟨hfair, hexhausted⟩ := ih
    have hnext (failure : Failure X) (left : Except (Raised A X) Bool) :
        IsFair runtime _ (afterExit runtime ev unwinding after manager rest failure left) := by
      unfold afterExit
      split
      · exact .bind (fair_noteSuppressed unwinding manager) fun _ => hfair none
      · exact hfair _
      · exact hfair _
      · exact .raise _
    have hleft (failure : Failure X) : IsFair runtime _ (outcome (do
        let answer ← runNative runtime ev (runtime.exit manager (some failure))
        truth runtime answer) >>= afterExit runtime ev unwinding after manager rest failure) :=
      .outcome_bind (.bind (kept_runNative hP.composing hev.serves _) fun _ =>
        kept_truth hP.composing _) (hnext failure)
        hexhausted
    refine ⟨fun pending => ?_, fun allowance state hclean => ?_⟩
    · cases pending with
      | none =>
        refine .outcome_bind (kept_runNative hP.composing hev.serves _) (fun left => ?_) hexhausted
        rcases left with (failure | signal) | value
        · exact hfair _
        · exact .raise _
        · exact hfair none
      | some failure => exact .bind (fair_note _) fun _ => hleft failure
    · have hpasses : Event.Passes runtime (.unwound manager .exhausted) :=
        (hleft .exhausted).traced allowance (state.note (.unwound manager .exhausted)) hclean _
          List.mem_cons_self
      obtain ⟨heap, ended, hexit, hended⟩ :=
        left_exhausted hpasses allowance (state.note (.unwound manager .exhausted))
      have hrun : leave runtime ev unwinding after (manager :: rest) (some .exhausted) allowance
            state =
          leave runtime ev unwinding after rest (some .exhausted) allowance
            ((state.note (.unwound manager .exhausted)).setHeap heap) := by
        change Metered.bind (outcome _) (afterExit runtime ev unwinding after manager rest _)
          allowance (state.note (.unwound manager .exhausted)) = _
        unfold Metered.bind
        rw [hexit]
        rcases hended with rfl | rfl <;> rfl
      rw [hrun] at hclean ⊢
      exact hexhausted allowance _ hclean

theorem fair_unwind (managers : List (Value A)) (ended : Except (Raised A X) Unit) :
    IsFair runtime _ (unwind runtime ev managers ended) := by
  rcases ended with (failure | signal) | value
  · exact (fair_leave hev false (.pure ()) managers).1 _
  · exact (fair_leave hev true (.raise _) managers).1 _
  · exact (fair_leave hev false (.pure ()) managers).1 _

theorem unwind_exhausted (managers : List (Value A)) (allowance : Nat) (state : State A X H N) :
    (fuel runtime).clean
        (unwind runtime ev managers (.error (.failure .exhausted)) allowance state).2 →
      Exhausted (fuel runtime)
        (unwind runtime ev managers (.error (.failure .exhausted)) allowance state) :=
  (fair_leave hev false (.pure ()) managers).2 allowance state

theorem fair_execWith {body : Run A X H N Unit} (hbody : IsFair runtime _ body) (scope : Nat)
    (items : List (Expr × Option Expr)) (managers : List (Value A)) :
    IsFair runtime _ (execWith runtime ev body scope items managers) := by
  induction items generalizing managers with
  | nil => exact .outcome_bind hbody (fair_unwind hev managers) (unwind_exhausted hev managers)
  | cons item rest ih =>
    obtain ⟨context, target⟩ := item
    refine .outcome_bind (kept_enterManager (fair_compositional runtime) hev context scope) (fun entered => ?_)
      (unwind_exhausted hev managers)
    cases entered with
    | error raised => exact fair_unwind hev managers _
    | ok entered =>
      obtain ⟨manager, entered⟩ := entered
      refine .outcome_bind ?_ (fun bound => ?_) (unwind_exhausted hev (manager :: managers))
      · cases target with
        | none => exact .pure ()
        | some target => exact hev.bind target entered scope
      · cases bound with
        | error raised => exact fair_unwind hev (manager :: managers) _
        | ok value => exact ih (manager :: managers)

/-! ### Control flow -/

theorem fair_execFor (target source : Expr) {body orelse : Run A X H N Unit}
    (hbody : IsFair runtime _ body) (horelse : IsFair runtime _ orelse) (scope : Nat) :
    IsFair runtime _ (execFor runtime ev target source body orelse scope) := by
  have hP := fair_compositional runtime
  refine .bind (hev.eval source scope) fun source =>
    .bind (kept_iter hP.composing hev.serves source) fun iterator =>
    .bind (kept_loopItems hP.composing hev.serves (fun item _ => ?_) iterator ()) fun ended => ?_
  · refine .bind (kept_tick hP.composing 1) fun _ => .bind (hev.bind target item scope) fun _ =>
      .outcome_bind hbody (fun ended => ?_) fun _ _ _ => rfl
    split
    · exact .pure _
    · exact .pure _
    · exact .pure _
    · exact .raise _
  · split
    · exact horelse
    · exact .pure ()

end Statements

mutual

theorem fair_exec (hev : ev.Keeps (IsFair runtime)) (stmt : Stmt) (scope : Nat) :
    IsFair runtime _ (exec runtime ev stmt scope) := by
  have hP := fair_compositional runtime
  unfold exec
  refine .bind (kept_tick hP.composing 1) fun _ => .bind (hP.update fun _ => ⟨rfl, rfl⟩) fun _ => ?_
  cases stmt with
  | passStmt => exact .pure ()
  | exprStmt value => exact .bind (hev.eval value scope) fun _ => .pure ()
  | assign targets value =>
    exact .bind (hev.eval value scope) fun _ =>
      .bind (.each (fun target => hev.bind target _ scope) targets) fun _ => .pure ()
  | annAssign target annotation value simple =>
    cases value with
    | none => exact .pure ()
    | some value => exact .bind (hev.eval value scope) fun _ => hev.bind target _ scope
  | augAssign target op value => exact kept_execAugAssign hP hev target op value scope
  | ifStmt test body orelse =>
    refine .bind (hev.eval test scope) fun _ => .bind (kept_truth hP.composing _) fun holds => ?_
    split
    · exact fair_execAll hev body scope
    · exact fair_execAll hev orelse scope
  | forStmt target source body orelse =>
    exact fair_execFor hev target source (fair_execAll hev body scope)
      (fair_execAll hev orelse scope) scope
  | withStmt items body => exact fair_execWith hev (fair_execAll hev body scope) scope items []
  | breakStmt => exact .raise _
  | continueStmt => exact .raise _
  | returnStmt value =>
    cases value with
    | none => exact .raise _
    | some value => exact .bind (hev.eval value scope) fun _ => .raise _
  | functionDef name params annotations defaults body decorators returns =>
    exact .bind (kept_makeClosure hP hev params defaults _ scope name) fun _ =>
      hP.update fun _ => ⟨rfl, rfl⟩
  | classDef name bases keywords values decorators body =>
    exact kept_execClassDef hP hev name bases body scope
  | importStmt names => exact kept_refuse hP.composing _
  | importFrom module names level => exact kept_execImportFrom hP hev module names scope
  | other kind => exact kept_unhandled hP _ _

theorem fair_execAll (hev : ev.Keeps (IsFair runtime)) (stmts : List Stmt) (scope : Nat) :
    IsFair runtime _ (execAll runtime ev stmts scope) := by
  unfold execAll
  cases stmts with
  | nil => exact .pure ()
  | cons stmt rest => exact .bind (fair_exec hev stmt scope) fun _ => fair_execAll hev rest scope

end

theorem fair_stray (signal : Signal A) : IsFair runtime α (stray signal) :=
  .bind (fair_note _) fun _ => kept_refuse (fair_compositional runtime).composing _

theorem fair_invoke (hev : ev.Keeps (IsFair runtime)) (index : Nat) (args : List (Value A))
    (kwargs : List (String × Value A)) :
    IsFair runtime _ (invoke runtime ev index args kwargs) := by
  have hP := fair_compositional runtime
  refine .bind (.inspect _) fun found => ?_
  cases found with
  | none => exact .unfinished
  | some closure =>
    refine .bind (kept_ofRefusal hP.composing _) fun scope =>
      .bind (kept_openScope hP.composing scope) fun inner => ?_
    split
    · exact hev.eval _ inner
    · refine .outcome_bind (fair_execAll hev _ inner) (fun ended => ?_) fun _ _ _ => rfl
      split
      · exact .pure _
      · exact .pure _
      · exact fair_stray _
      · exact .raise _

theorem fair_evaluator (runtime : Runtime A X H N) (depth : Nat) :
    (evaluator runtime depth).Keeps (IsFair runtime) :=
  kept_evaluator (fair_compositional runtime) (fun hev => fair_invoke hev) depth

theorem fair_runModule (runtime : Runtime A X H N) (depth : Nat) (program : Program) :
    IsFair runtime _ (runModule runtime depth program) := by
  refine .outcome_bind (fair_execAll (fair_evaluator runtime depth) program 0) (fun ended => ?_)
    fun _ _ _ => rfl
  split
  · exact .pure ()
  · exact fair_stray _
  · exact .raise _

/-! ## Evaluations -/

/-- The interpreter before it runs: what the globals hold, and nothing else. -/
def start (heap : H) (globals : Scope A) : State A X H N := { heap, scopes := [globals] }

/-- With so much fuel the program ends so and leaves the interpreter, its heap with everything that
was registered and output and what it has spent, in such a state. -/
def Evaluates (runtime : Runtime A X H N) (program : Program) (heap : H) (globals : Scope A)
    (allowance : Nat) (result : Except (Raised A X) Unit) (after : State A X H N) : Prop :=
  ∃ depth, runModule runtime depth program allowance (start heap globals) = (some result, after)

/-- Should the program leave its fuel, then every native that is handed an exhaustion ends with it,
and every manager that is left because of one does not suppress it. -/
def LetsThrough (runtime : Runtime A X H N) (program : Program) (heap : H) (globals : Scope A)
    (allowance : Nat) : Prop :=
  ∀ depth, allowance < (runModule runtime depth program allowance (start heap globals)).2.spent →
    ∀ event ∈ (runModule runtime depth program allowance (start heap globals)).2.events,
      event.Passes runtime

/-- A program that leaves its fuel ends exhausted, and otherwise does the same with more fuel. -/
theorem LetsThrough.same_or_exhausted {program : Program} {heap : H} {globals : Scope A}
    {less more : Nat} (hpasses : LetsThrough runtime program heap globals less)
    (hle : less ≤ more) (depth : Nat) :
    (runModule runtime depth program less (start heap globals)).1 =
        some (.error (.failure .exhausted)) ∨
      runModule runtime depth program more (start heap globals) =
        runModule runtime depth program less (start heap globals) := by
  have hfair := fair_runModule runtime depth program
  by_cases hover : less < (runModule runtime depth program less (start heap globals)).2.spent
  · exact .inl (hfair.surfaces less _ (Nat.zero_le less) (hpasses depth hover) hover)
  · exact .inr (hfair.blind less more _ hle (Nat.le_of_not_lt hover))

/-- Fuel decides whether a program gets to its end, and nothing else: what succeeds with less
succeeds with more and leaves the same behind, and what ends with more for another reason than fuel
ends the same way with less or for want of fuel. -/
structure OnlyWhether (runtime : Runtime A X H N) (program : Program) (heap : H)
    (globals : Scope A) (less more : Nat) : Prop where
  same : ∀ after, Evaluates runtime program heap globals less (.ok ()) after →
    Evaluates runtime program heap globals more (.ok ()) after
  reason : ∀ result after, Evaluates runtime program heap globals more result after →
    result ≠ .error (.failure .exhausted) →
      Evaluates runtime program heap globals less result after ∨
        ∃ after', Evaluates runtime program heap globals less (.error (.failure .exhausted)) after'

/-- **Fuel decides whether, never what**, when exhaustions are let through. -/
theorem fuel_decides_whether (runtime : Runtime A X H N) (program : Program) (heap : H)
    (globals : Scope A) {less more : Nat} (hle : less ≤ more)
    (hpasses : LetsThrough runtime program heap globals less) :
    OnlyWhether runtime program heap globals less more := by
  constructor
  · rintro after ⟨depth, hended⟩
    rcases hpasses.same_or_exhausted hle depth with hexhausted | hsame
    · rw [hended] at hexhausted
      cases hexhausted
    · exact ⟨depth, hsame.trans hended⟩
  · rintro result after ⟨depth, hended⟩ _
    rcases hpasses.same_or_exhausted hle depth with hexhausted | hsame
    · exact .inr ⟨_, depth, Prod.ext hexhausted rfl⟩
    · exact .inl ⟨depth, hsame.symm.trans hended⟩

namespace Iterating

/-- `map`, `list`, a model's class with one field, a list of numbers, and what they make. -/
inductive Object where
  | none
  | map
  | list
  | record
  | text (content : String)
  | number (value : Int)
  | numbers (items : List Int)
  | mapped (func : Nat) (items : List Int)
  | recorded (items : List Int)

/-- A native that has ended, or one that reads a `map`: a list, or a record if `model`. -/
inductive Native where
  | ended (result : Except (Failure Unit) (Value Object))
  | reading (model : Bool) (func : Nat) (items read : List Int)

def numbersOf (values : List (Value Object)) : List Int :=
  values.filterMap fun
    | .obj (.number value) => some value
    | _ => none

/-- `list` lets an error in reading an item through; a model's is its own. -/
def readNext (model : Bool) (func : Nat) (rest read : List Int) :
    Except (Failure Unit) (Value Object) → Native
  | .ok value => .reading model func rest (read ++ numbersOf [value])
  | .error failure => .ended (.error (if model then .native () else failure))

/-- The heap is what has been registered. -/
def python : Runtime Object Unit (List (List Int)) Native where
  literal
    | .int value => .obj (.number value)
    | .str content => .obj (.text content)
    | _ => .obj .none
  shape _
    | .obj (.number value) => .int value
    | .obj (.text content) => .str content
    | .obj (.numbers items) => .seq .list (items.map fun item => .obj (.number item))
    | _ => .leaf .unsized
  callee _
    | .obj .map => { builtin := some .map, name := some "map" }
    | .obj .list => { name := some "list" }
    | .obj .record => { name := some "Record", model := true }
    | _ => {}
  truth _ _ := .ok true
  item := some
  isNone _ := false
  attributeAllowed _ _ _ := false
  unreachable _ _ := false
  envSchema _ := false
  prim
    | .list, items => .ended (.ok (.obj (.numbers (numbersOf items))))
    | _, _ => .ended (.ok (.obj .none))
  exit _ _ := .ended (.ok (.obj .none))
  call
    | .obj .map, [.closure func, .obj (.numbers items)], _ =>
      .ended (.ok (.obj (.mapped func items)))
    | .obj .list, [.obj (.mapped func items)], _ => .reading false func items []
    | .obj .record, [_], [(_, .obj (.mapped func items))] => .reading true func items []
    | _, _, _ => .ended (.error (.native ()))
  step
    | .ended result, heap => .done result heap
    | .reading false _ [] read, heap => .done (.ok (.obj (.numbers read))) heap
    | .reading true _ [] read, heap => .done (.ok (.obj (.recorded read))) (read :: heap)
    | .reading model func (item :: rest) read, heap =>
      .invoke (.closure func) [.obj (.number item)] [] heap (readNext model func rest read)
  importAllowed _ := false
  attributeRejected _ := false
  log2 _ := .one 52
  overflow := ()
  printfWidths _ _ := 0

def globals : Scope Object :=
  { vars := [("map", .obj .map), ("list", .obj .list), ("Record", .obj .record)] }

/-- `def same(n): return n`, and what `map(same, [7])` is given to. -/
def program (use : Expr → Expr) : Program :=
  [.functionDef "same" { args := ["n"] } [] [] [.returnStmt (some (.name "n"))] [] false,
    .exprStmt (use (.call (.name "map") [.name "same", .list [.constant (.int 7)]] [] []))]

/-- `list(map(same, [7]))`. -/
def listed : Program := program fun mapped => .call (.name "list") [mapped] [] []

/-- `Record("r", items=map(same, [7]))`. -/
def recorded : Program := program fun mapped =>
  .call (.name "Record") [.constant (.str "r")] [some "items"] [mapped]

/-- With no fuel left for what the function returns, `list` ends exhausted. -/
theorem listed_decides : OnlyWhether python listed [] globals 15 100 := by
  refine fuel_decides_whether python listed [] globals (by decide)
    fun depth hover event hevent => ?_
  obtain _ | _ | _ | _ | depth := depth
  · exact absurd hover (by decide)
  · exact absurd hover (by decide)
  · exact absurd hover (by decide)
  · exact absurd hover (by decide)
  · have hevents : (runModule python (depth + 4) listed 15 (start [] globals)).2.events =
        [.resumed (readNext false 0 [] []) .exhausted] := rfl
    rw [hevents, List.mem_singleton] at hevent
    rw [hevent]
    exact fun heap => ⟨heap, rfl⟩

/-- The record ends with a failure of its own, and with more fuel it is registered. -/
theorem recorded_hides : ¬ ∀ (runtime : Runtime Object Unit (List (List Int)) Native)
    (program : Program) (heap : List (List Int)) (globals : Scope Object) (less more : Nat),
    less ≤ more → OnlyWhether runtime program heap globals less more := by
  intro hall
  have hlong : Evaluates python recorded [] globals 19 (.ok ())
      (runModule python 4 recorded 19 (start [] globals)).2 := ⟨4, rfl⟩
  have hshort (depth : Nat) :
      (runModule python (depth + 4) recorded 18 (start [] globals)).1 =
        some (.error (.failure (.native ()))) := rfl
  have hnever (result : Except (Raised Object Unit) Unit)
      (hresult : result ≠ .error (.failure (.native ()))) (after) :
      ¬ Evaluates python recorded [] globals 18 result after := by
    rintro ⟨depth, hended⟩
    have hresult' := congrArg Prod.fst hended
    obtain _ | _ | _ | _ | depth := depth
    · cases hresult'
    · cases hresult'
    · cases hresult'
    · cases hresult'
    · rw [hshort] at hresult'
      exact hresult (Option.some.inj hresult').symm
  have hreason := (hall python recorded [] globals 18 19 (by decide)).reason (.ok ()) _ hlong
    (by rintro ⟨⟩)
  rcases hreason with hsame | ⟨after, hexhausted⟩
  · exact hnever (.ok ()) (by rintro ⟨⟩) _ hsame
  · exact hnever (.error (.failure .exhausted)) (by rintro ⟨⟩) _ hexhausted

end Iterating

end Atlantide.Lang
