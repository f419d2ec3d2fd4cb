import Atlantide.Lang.Handlers

/-! # Where control flow can go

`break`, `continue` and `return` end statements. Nothing else ends with one: an expression, a target
that is bound, a call, a native that calls back all end with a value or a failure. Handlers keep it
so, and so the interpreter does at every depth. -/

namespace Atlantide.Lang

open Metered

variable {A X H N : Type} {α : Type}

/-- The control flow that is raised, if it is that. -/
def Raised.control : Raised A X → Option (Signal A)
  | .signal left => some left
  | .failure _ => none

def Raised.IsSignal (raised : Raised A X) : Prop := raised.control.isSome

/-- No control flow comes out. -/
abbrev Quiet (first : Run A X H N α) : Prop := Avoids Raised.IsSignal first

structure Evaluator.Quiet (ev : Evaluator A X H N) : Prop where
  eval : ∀ node scope, Lang.Quiet (ev.eval node scope)
  bind : ∀ target value scope, Lang.Quiet (ev.bind target value scope)
  invoke : ∀ index args kwargs, Lang.Quiet (ev.invoke index args kwargs)
  callNative : ∀ func args kwargs, Lang.Quiet (ev.callNative func args kwargs)
  drive : ∀ native, Lang.Quiet (ev.drive native)
  setsAsLists : ∀ value, Lang.Quiet (ev.setsAsLists value)

theorem failure_not_isSignal (failure : Failure X) :
    ¬ (Raised.failure failure : Raised A X).IsSignal := nofun

variable {runtime : Runtime A X H N} {ev : Evaluator A X H N}

section Avoids

variable {bad : Raised A X → Prop} (hfailure : ∀ failure, ¬ bad (.failure failure))

include hfailure

theorem avoids_tickOf (price : (Value A → Shape A) → Nat → Except (Failure X) Nat) :
    Avoids bad (tickOf runtime price : Run A X H N Unit) := by
  refine .charge (hfailure _) fun state left error herror => ?_
  cases hprice : price (runtime.shape state.heap) left with
  | ok cost =>
    rw [hprice] at herror
    cases herror
  | error failure =>
    rw [hprice] at herror
    cases herror
    exact hfailure failure

omit hfailure in
/-- A native that called back is only resumed with a value or a failure. -/
theorem avoids_resume {first : Run A X H N (Value A)}
    (resume : Except (Failure X) (Value A) → N) (hfirst : Avoids bad first)
    (hrun : ∀ native, Avoids bad (runNative runtime ev native)) :
    Avoids bad (do
      let result ← outcome first
      resumeNative runtime ev resume result) := by
  refine .outcome_bind hfirst fun result hresult => ?_
  cases result with
  | ok value => exact hrun _
  | error raised =>
    cases raised with
    | failure failure => exact .bind (.update _) fun _ => hrun _
    | signal signal => exact .raise (hresult _ rfl)

/-- Handlers keep away from what no failure is. -/
theorem avoids_compositional (runtime : Runtime A X H N) :
    Compositional runtime fun _ first => Avoids bad first where
  pure := .pure
  bind := .bind
  unfinished := .unfinished
  failed failure := .raise (hfailure failure)
  inspect := .inspect
  update _ := .update _
  note _ := .update _
  charge _ := avoids_tickOf hfailure _
  resume := avoids_resume

end Avoids

theorem quiet_compositional (runtime : Runtime A X H N) :
    Compositional runtime fun _ first => Quiet first :=
  avoids_compositional failure_not_isSignal runtime

theorem Evaluator.Quiet.keeps (hev : ev.Quiet) : ev.Keeps fun _ first => Lang.Quiet first :=
  ⟨hev.eval, hev.bind, hev.invoke, hev.callNative, hev.drive, hev.setsAsLists⟩

theorem quiet_truth (value : Value A) : Quiet (truth runtime value) :=
  kept_truth (quiet_compositional runtime).composing value

theorem quiet_runNative (hev : ev.Quiet) (native : N) : Quiet (runNative runtime ev native) :=
  kept_runNative (quiet_compositional runtime).composing hev.keeps.serves native

/-- A call ends with what its body's `return` leaves, and refuses any other control flow. -/
theorem quiet_invoke (hev : ev.Keeps fun _ first => Quiet first) (index : Nat)
    (args : List (Value A)) (kwargs : List (String × Value A)) :
    Quiet (invoke runtime ev index args kwargs) := by
  have hP := quiet_compositional runtime
  refine .bind (.inspect _) fun found => ?_
  cases found with
  | none => exact .unfinished
  | some closure =>
    refine .bind (kept_ofRefusal hP.composing _) fun scope =>
      .bind (kept_openScope hP.composing scope) fun inner => ?_
    split
    · exact hev.eval _ inner
    · refine .bind (.outcome _) fun ended => ?_
      split
      · exact .pure _
      · exact .pure _
      · exact .bind (.update _) fun _ => kept_refuse hP.composing _
      · exact .raise (failure_not_isSignal _)

/-- **Control flow stays in statements**, at every depth of the interpreter. -/
theorem quiet_evaluator (runtime : Runtime A X H N) (depth : Nat) :
    (evaluator runtime depth).Quiet := by
  have hkeeps := kept_evaluator (quiet_compositional runtime) (fun hev => quiet_invoke hev) depth
  exact ⟨hkeeps.eval, hkeeps.bind, hkeeps.invoke, hkeeps.callNative, hkeeps.drive,
    hkeeps.setsAsLists⟩

end Atlantide.Lang
