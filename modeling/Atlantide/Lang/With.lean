import Atlantide.Lang.Quiet

/-! # `with` statements

Python's `with` of several managers is nested statements of one each. The interpreter keeps a list
of the managers it has entered and leaves them in a loop. Both call the same methods in the same
order; they part where control flow leaves the body, a manager fails while it is left, and one
further out suppresses that. -/

namespace Atlantide.Lang

open Metered

variable {A X H N : Type} (runtime : Runtime A X H N) (ev : Evaluator A X H N)

/-- How a block has ended. The rest is on record: the control flow that was leaving the block, the
managers entered in it, and the calls of their exits, each with the failure that was active. -/
structure Ended (A X : Type) where
  result : Except (Raised A X) Unit
  left : Option (Signal A)
  entered : List (Value A) := []
  exits : List (Value A × Option (Failure X)) := []

/-- The failure `__exit__` is handed. -/
def activeOf : Except (Raised A X) Unit → Option (Failure X)
  | .error (.failure failure) => some failure
  | _ => none

/-- A block that ended so, before any manager is entered. -/
def Ended.of : Except (Raised A X) Unit → Ended A X
  | .ok () => ⟨.ok (), none, [], []⟩
  | .error raised => ⟨.error raised, raised.control, [], []⟩

def Ended.becomes (ended : Ended A X) (manager : Value A) (result : Except (Raised A X) Unit) :
    Ended A X :=
  ⟨result, ended.left, manager :: ended.entered,
    ended.exits ++ [(manager, activeOf ended.result)]⟩

/-- The end of Python's `with` of one manager, whose block has ended. -/
def exitBlock (manager : Value A) (ended : Ended A X) : Run A X H N (Ended A X) :=
  match ended.result with
  | .error (.failure failure) => do
    update (·.note (.unwound manager failure))
    let left ← outcome (do
      let answer ← runNative runtime ev (runtime.exit manager (some failure))
      truth runtime answer)
    match left with
    | .ok true =>
      noteSuppressed ended.left.isSome manager
      pure (ended.becomes manager (.ok ()))
    | .ok false => pure (ended.becomes manager ended.result)
    | .error raised => pure (ended.becomes manager (.error raised))
  | result => do
    let left ← outcome (runNative runtime ev (runtime.exit manager none))
    match left with
    | .ok _ => pure (ended.becomes manager result)
    | .error raised => pure (ended.becomes manager (.error raised))

/-- Python's `with` statements of one manager each, one inside the other. -/
def nestedWith (body : Run A X H N Unit) (scope : Nat) :
    List (Expr × Option Expr) → Run A X H N (Ended A X)
  | [] => do
    let ended ← outcome body
    pure (.of ended)
  | (context, target) :: rest => do
    let entered ← outcome (enterManager runtime ev context scope)
    match entered with
    | .error raised => pure (.of (.error raised))
    | .ok (manager, entered) =>
      let bound ← outcome (match target with
        | none => pure ()
        | some target => ev.bind target entered scope)
      match bound with
      | .error raised => exitBlock runtime ev manager (.of (.error raised))
      | .ok () => do
        let ended ← nestedWith body scope rest
        exitBlock runtime ev manager ended

/-- How the interpreter's statement ends: with the control flow that was leaving the block, when
nothing else is active. -/
def Ended.resumed (ended : Ended A X) : Except (Raised A X) Unit :=
  match ended.result, ended.left with
  | .ok (), some signal => .error (.signal signal)
  | result, _ => result

/-- Managers left one after the other. -/
def exitBlocks : List (Value A) → Ended A X → Run A X H N (Ended A X)
  | [], ended => pure ended
  | manager :: rest, ended => do
    let ended ← exitBlock runtime ev manager ended
    exitBlocks rest ended

/-- The nested statements end normally though control flow was leaving their body: an exit failed on
the way out, and one further out suppressed that. -/
def Drops (body : Run A X H N Unit) (scope : Nat) (items : List (Expr × Option Expr))
    (allowance : Nat) (state : State A X H N) : Prop :=
  ∃ ended after, nestedWith runtime ev body scope items allowance state =
    (some (.ok ended), after) ∧ ended.result = .ok () ∧ ended.left.isSome

/-! ## One manager after the other -/

/-- Control flow that is still active is the one that was leaving the block. -/
def Ended.Consistent (ended : Ended A X) : Prop :=
  ∀ signal, ended.result = .error (.signal signal) → ended.left = some signal

theorem Ended.consistent_of (result : Except (Raised A X) Unit) :
    (Ended.of result).Consistent := by
  intro signal hresult
  cases result with
  | ok value => cases hresult
  | error raised =>
    cases hresult
    rfl

/-- What is left to do when every manager is left and nothing is active. -/
def afterwards : Option (Signal A) → Run A X H N Unit
  | some signal => raise (.signal signal)
  | none => pure ()

variable {runtime ev}

theorem leave_quiet (hev : ev.Quiet) (manager : Value A)
    (managers : List (Value A)) {ended : Ended A X} (hactive : activeOf ended.result = none)
    (hrest : ∀ result : Except (Raised A X) Unit, result = ended.result ∨
      (∃ failure, result = .error (.failure failure)) →
      leave runtime ev ended.left.isSome (afterwards ended.left) managers (activeOf result) =
        (do let ended ← exitBlocks runtime ev managers (ended.becomes manager result)
            ofExcept ended.resumed)) :
    leave runtime ev ended.left.isSome (afterwards ended.left) (manager :: managers) none =
      (do let ended ← exitBlock runtime ev manager ended
          let ended ← exitBlocks runtime ev managers ended
          ofExcept ended.resumed) := by
  have hblock : exitBlock runtime ev manager ended = (do
      let left ← outcome (runNative runtime ev (runtime.exit manager none))
      match left with
      | .ok _ => pure (ended.becomes manager ended.result)
      | .error raised => pure (ended.becomes manager (.error raised))) := by
    unfold exitBlock
    split
    · rename_i failure hfailure
      rw [hfailure] at hactive
      cases hactive
    · rfl
  rw [leave, hblock, bind_assoc]
  refine outcome_bind_congr (quiet_runNative hev _) fun left hquiet => ?_
  cases left with
  | ok value =>
    have hsame := hrest ended.result (.inl rfl)
    rw [hactive] at hsame
    simp only [pure_bind]
    exact hsame
  | error raised =>
    cases raised with
    | failure failure =>
      simp only [pure_bind]
      exact hrest (.error (.failure failure)) (.inr ⟨failure, rfl⟩)
    | signal signal => exact absurd rfl (hquiet _ rfl)

theorem leave_failing (hev : ev.Quiet)
    (manager : Value A) (managers : List (Value A)) {ended : Ended A X} {failure : Failure X}
    (hactive : ended.result = .error (.failure failure))
    (hrest : ∀ result : Except (Raised A X) Unit, result = .ok () ∨
      (∃ failure, result = .error (.failure failure)) →
      leave runtime ev ended.left.isSome (afterwards ended.left) managers (activeOf result) =
        (do let ended ← exitBlocks runtime ev managers (ended.becomes manager result)
            ofExcept ended.resumed)) :
    leave runtime ev ended.left.isSome (afterwards ended.left) (manager :: managers)
        (some failure) =
      (do let ended ← exitBlock runtime ev manager ended
          let ended ← exitBlocks runtime ev managers ended
          ofExcept ended.resumed) := by
  rw [leave, exitBlock, hactive]
  simp only [bind_assoc]
  congr 1
  funext _
  refine outcome_bind_congr ((quiet_runNative hev _).bind quiet_truth) fun left hquiet => ?_
  cases left with
  | ok answer =>
    cases answer with
    | true =>
      simp only [bind_assoc, pure_bind]
      congr 1
      funext _
      exact hrest (.ok ()) (.inl rfl)
    | false =>
      simp only [pure_bind]
      exact hrest (.error (.failure failure)) (.inr ⟨failure, rfl⟩)
  | error raised =>
    cases raised with
    | failure other =>
      simp only [pure_bind]
      exact hrest (.error (.failure other)) (.inr ⟨other, rfl⟩)
    | signal signal => exact absurd rfl (hquiet _ rfl)

/-- The interpreter's loop leaves the managers as Python's nested statements do. -/
theorem leave_eq (hev : ev.Quiet)
    (managers : List (Value A)) {ended : Ended A X} (hconsistent : ended.Consistent) :
    leave runtime ev ended.left.isSome (afterwards ended.left) managers (activeOf ended.result) =
      (do let ended ← exitBlocks runtime ev managers ended
          ofExcept ended.resumed) := by
  induction managers generalizing ended with
  | nil =>
    rw [exitBlocks, pure_bind]
    obtain ⟨result, left, entered, exits⟩ := ended
    cases result with
    | ok value =>
      cases left with
      | none => rfl
      | some signal => rfl
    | error raised =>
      cases raised with
      | failure failure => rfl
      | signal signal =>
        cases hconsistent signal rfl
        rfl
  | cons manager managers ih =>
    have hrest (result : Except (Raised A X) Unit)
        (hresult : ∀ signal, result = .error (.signal signal) → ended.left = some signal) :
        leave runtime ev ended.left.isSome (afterwards ended.left) managers (activeOf result) =
          (do let ended ← exitBlocks runtime ev managers (ended.becomes manager result)
              ofExcept ended.resumed) :=
      @ih (ended.becomes manager result) hresult
    have hfailed (failure : Failure X) :
        ∀ signal, (.error (.failure failure) : Except (Raised A X) Unit) = .error (.signal signal) →
          ended.left = some signal := nofun
    rw [exitBlocks, bind_assoc]
    cases hactive : activeOf ended.result with
    | none =>
      refine leave_quiet hev manager managers hactive ?_
      rintro result (rfl | ⟨failure, rfl⟩)
      · exact hrest _ hconsistent
      · exact hrest _ (hfailed failure)
    | some failure =>
      have hresult : ended.result = .error (.failure failure) := by
        unfold activeOf at hactive
        split at hactive
        · rename_i hresult
          rw [hresult, Option.some.inj hactive]
        · cases hactive
      refine leave_failing hev manager managers hresult ?_
      rintro result (rfl | ⟨failure, rfl⟩)
      · exact hrest _ nofun
      · exact hrest _ (hfailed failure)

theorem unwind_eq (hev : ev.Quiet)
    (managers : List (Value A)) (result : Except (Raised A X) Unit) :
    unwind runtime ev managers result =
      (do let ended ← exitBlocks runtime ev managers (.of result)
          ofExcept ended.resumed) := by
  have hleave := @leave_eq A X H N runtime ev hev managers (.of result) (Ended.consistent_of result)
  cases result with
  | ok value => exact hleave
  | error raised =>
    cases raised with
    | failure failure => exact hleave
    | signal signal => exact hleave

/-- **The interpreter's statement is Python's**, but for the control flow it ends with. -/
theorem execWith_eq (hev : ev.Quiet) (body : Run A X H N Unit) (scope : Nat)
    (items : List (Expr × Option Expr)) (managers : List (Value A)) :
    execWith runtime ev body scope items managers =
      (do let ended ← nestedWith runtime ev body scope items
          let ended ← exitBlocks runtime ev managers ended
          ofExcept ended.resumed) := by
  induction items generalizing managers with
  | nil =>
    rw [execWith, nestedWith, bind_assoc]
    congr 1
    funext ended
    rw [unwind_eq hev, pure_bind]
  | cons item rest ih =>
    obtain ⟨context, target⟩ := item
    rw [execWith, nestedWith, bind_assoc]
    congr 1
    funext entered
    cases entered with
    | error raised => exact unwind_eq hev managers (.error raised)
    | ok entered =>
      obtain ⟨manager, entered⟩ := entered
      simp only [bind_assoc]
      congr 1
      funext bound
      cases bound with
      | error raised =>
        have hunwind := @unwind_eq A X H N runtime ev hev (manager :: managers) (.error raised)
        rw [exitBlocks, bind_assoc] at hunwind
        exact hunwind
      | ok value =>
        simp only [bind_assoc, ih, exitBlocks]

/-! ## The calls of the exits -/

/-- The managers that were entered have been left, each once, the last entered first. -/
def Ended.Unwound (ended : Ended A X) : Prop := ended.exits.map Prod.fst = ended.entered.reverse

theorem Ended.unwound_of (result : Except (Raised A X) Unit) : (Ended.of result).Unwound := by
  cases result with
  | ok value => rfl
  | error raised => rfl

theorem Ended.Unwound.becomes {ended : Ended A X} (hended : ended.Unwound) (manager : Value A)
    (result : Except (Raised A X) Unit) : (ended.becomes manager result).Unwound := by
  unfold Unwound at hended ⊢
  rw [Ended.becomes, List.map_append, hended, List.reverse_cons]
  rfl

theorem yields_exitBlock (manager : Value A) {ended : Ended A X} (hended : ended.Unwound) :
    Yields Ended.Unwound (exitBlock runtime ev manager ended) := by
  unfold exitBlock
  split
  · refine .bind (.trivial _) fun _ _ => .bind (.trivial _) fun left _ => ?_
    split
    · exact .bind (.trivial _) fun _ _ => .pure (hended.becomes manager _)
    · exact .pure (hended.becomes manager _)
    · exact .pure (hended.becomes manager _)
  · refine .bind (.trivial _) fun left _ => ?_
    split
    · exact .pure (hended.becomes manager _)
    · exact .pure (hended.becomes manager _)

theorem yields_nestedWith (body : Run A X H N Unit) (scope : Nat)
    (items : List (Expr × Option Expr)) :
    Yields Ended.Unwound (nestedWith runtime ev body scope items) := by
  induction items with
  | nil => exact .bind (.trivial _) fun ended _ => .pure (Ended.unwound_of ended)
  | cons item rest ih =>
    obtain ⟨context, target⟩ := item
    refine .bind (.trivial _) fun entered _ => ?_
    split
    · exact .pure (Ended.unwound_of _)
    · refine .bind (.trivial _) fun bound _ => ?_
      split
      · exact yields_exitBlock _ (Ended.unwound_of _)
      · exact .bind ih fun ended hended => yields_exitBlock _ hended

/-! ## Where the two part -/

/-- **`with` unwinds as in Python.** From any state and with any allowance a statement does what the
nested statements do, and ends as they do unless these drop the control flow that was leaving the
body; and each manager that was entered is left once, the last entered first. -/
theorem with_unwinds (runtime : Runtime A X H N) (depth : Nat) (body : Run A X H N Unit)
    (scope : Nat) (items : List (Expr × Option Expr)) (allowance : Nat) (state : State A X H N) :
    (execWith runtime (evaluator runtime depth) body scope items [] allowance state =
        (do let ended ← nestedWith runtime (evaluator runtime depth) body scope items
            ofExcept ended.result) allowance state ↔
      ¬ Drops runtime (evaluator runtime depth) body scope items allowance state) ∧
    execWith runtime (evaluator runtime depth) body scope items [] =
      (do let ended ← nestedWith runtime (evaluator runtime depth) body scope items
          ofExcept ended.resumed) ∧
    ∀ ended after, nestedWith runtime (evaluator runtime depth) body scope items allowance state =
      (some (.ok ended), after) → ended.exits.map Prod.fst = ended.entered.reverse := by
  have hwith : execWith runtime (evaluator runtime depth) body scope items [] =
      (do let ended ← nestedWith runtime (evaluator runtime depth) body scope items
          ofExcept ended.resumed) := by
    rw [execWith_eq (quiet_evaluator runtime depth)]
    simp only [exitBlocks, pure_bind]
  refine ⟨?_, hwith, fun ended after hended =>
    yields_nestedWith body scope items allowance state ended after hended⟩
  rw [hwith]
  change Metered.bind _ _ allowance state = Metered.bind _ _ allowance state ↔ _
  unfold Metered.bind Drops
  rcases hended : nestedWith runtime (evaluator runtime depth) body scope items allowance state with
    ⟨_ | (raised | ended), after⟩
  · simp
  · simp
  · have hdrops : (∃ other after',
        ((some (.ok ended), after) : Option (Except (Raised A X) (Ended A X)) × State A X H N) =
          (some (.ok other), after') ∧ other.result = .ok () ∧ other.left.isSome) ↔
        ended.result = .ok () ∧ ended.left.isSome := by
      constructor
      · rintro ⟨other, after', heq, hother⟩
        cases heq
        exact hother
      · exact fun hended => ⟨ended, after, rfl, hended⟩
    rw [hdrops]
    obtain ⟨result, left, entered, exits⟩ := ended
    cases result with
    | error raised => simp [Ended.resumed]
    | ok value =>
      cases left with
      | none => simp [Ended.resumed]
      | some signal => simp [Ended.resumed, Metered.ofExcept]

namespace Suppressing

/-- A native that ends at once: with an object, or with an exception. -/
abbrev Native := Except Unit Nat

/-- Managers are numbers. The manager 1 fails while it is left, and 0 suppresses what it is shown. -/
def python : Runtime Nat Unit Unit Native where
  literal _ := .obj 7
  shape _ _ := .leaf .unsized
  callee _ _ := {}
  truth _ _ := .ok true
  item := some
  isNone _ := false
  attributeAllowed _ _ _ := false
  unreachable _ _ := false
  envSchema _ := false
  prim _ _ := .ok 7
  exit manager _ := if manager = .obj 1 then .error () else .ok 7
  call _ _ _ := .ok 7
  step native heap := match native with
    | .ok object => .done (.ok (.obj object)) heap
    | .error _ => .done (.error (.native ())) heap
  importAllowed _ := false
  attributeRejected _ := false
  log2 _ := .one 52
  overflow := ()
  printfWidths _ _ := 0

def managers : List (Expr × Option Expr) := [(.name "outer", none), (.name "inner", none)]

def start : State Nat Unit Unit Native where
  heap := ()
  scopes := [{ vars := [("outer", .obj 0), ("inner", .obj 1)] }]

/-- Python goes on behind the statement, and the interpreter leaves the loop. -/
theorem break_kept : ¬ ∀ (runtime : Runtime Nat Unit Unit Native) (depth : Nat)
    (body : Run Nat Unit Unit Native Unit) (scope : Nat) (items : List (Expr × Option Expr))
    (allowance : Nat) (state : State Nat Unit Unit Native),
    execWith runtime (evaluator runtime depth) body scope items [] allowance state =
      (do let ended ← nestedWith runtime (evaluator runtime depth) body scope items
          ofExcept ended.result) allowance state := by
  intro hall
  have hsame := congrArg Prod.fst
    (hall python 1 (raise (.signal .brk)) 0 managers 100 start)
  have hleft : (execWith python (evaluator python 1) (raise (.signal .brk)) 0 managers [] 100
      start).1 = some (.error (.signal .brk)) := by rfl
  rw [hleft] at hsame
  have hpython : ((do
      let ended ← nestedWith python (evaluator python 1) (raise (.signal .brk)) 0 managers
      ofExcept ended.result) 100 start).1 = some (.ok ()) := by rfl
  rw [hpython] at hsame
  cases hsame

end Suppressing

end Atlantide.Lang
