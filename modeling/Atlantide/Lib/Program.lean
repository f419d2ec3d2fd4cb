import Mathlib.Data.List.Basic

/-! # Programs that talk to a shared service by requests

A program either is done, with a value or an error, or asks for one request and goes on with its
reply. Nothing else in a program can touch the service, so an interleaving of programs is a choice,
at each moment, of the task whose next request is served. -/

namespace Interleaving

inductive Prog (Req : Type) (Reply : Req → Type) (ε α : Type) : Type
  | ret (value : α)
  | raise (error : ε)
  | ask (request : Req) (next : Reply request → Prog Req Reply ε α)

namespace Prog

variable {Req : Type} {Reply : Req → Type} {ε δ α β : Type}

def bind (program : Prog Req Reply ε α) (next : α → Prog Req Reply ε β) : Prog Req Reply ε β :=
  match program with
  | ret value => next value
  | raise error => raise error
  | ask request resume => ask request fun reply => (resume reply).bind next

instance : Monad (Prog Req Reply ε) where
  pure := ret
  bind := bind

/-- `try: program except error: handler(error)`. -/
def catching (program : Prog Req Reply ε α) (handler : ε → Prog Req Reply δ α) :
    Prog Req Reply δ α :=
  match program with
  | ret value => ret value
  | raise error => handler error
  | ask request resume => ask request fun reply => (resume reply).catching handler

/-- The program's outcome as a value, whichever way it ends. -/
def outcome (program : Prog Req Reply ε α) : Prog Req Reply δ (Except ε α) :=
  match program with
  | ret value => ret (.ok value)
  | raise error => ret (.error error)
  | ask request resume => ask request fun reply => (resume reply).outcome

def call (request : Req) : Prog Req Reply ε (Reply request) :=
  ask request ret

def raised : Prog Req Reply ε α → Option ε
  | raise error => some error
  | _ => none

/-- Runs the threads one request at a time in the order `schedule` names them, and hands back what
is left of each. -/
def weave : List Nat → List (Prog Req Reply ε α) → Prog Req Reply δ (List (Prog Req Reply ε α))
  | [], threads => ret threads
  | thread :: schedule, threads =>
    match threads[thread]? with
    | some (ask request resume) =>
      ask request fun reply => weave schedule (threads.set thread (resume reply))
    | _ => weave schedule threads

/-- Runs the programs one after the other. -/
def sequence : List (Prog Req Reply ε α) → Prog Req Reply ε (List α)
  | [] => ret []
  | program :: programs =>
    program.bind fun value => (sequence programs).bind fun values => ret (value :: values)

/-- Threads interleaved by `schedule`, then finished in order. The first error found when the
schedule runs out drops the threads that have not ended. -/
def join (schedule : List Nat) (threads : List (Prog Req Reply ε α)) :
    Prog Req Reply ε (List α) :=
  (weave schedule threads).bind fun left =>
    match left.findSome? raised with
    | some error => raise error
    | none => sequence left

/-- Whatever it is answered, the program asks for nothing but what `asks` allows. -/
def Only (asks : Req → Prop) : Prog Req Reply ε α → Prop
  | ret _ => True
  | raise _ => True
  | ask request next => asks request ∧ ∀ reply, (next reply).Only asks

/-- Whatever it is answered, the program returns nothing but what `goal` allows. -/
def Returns (goal : α → Prop) : Prog Req Reply ε α → Prop
  | ret value => goal value
  | raise _ => True
  | ask _ next => ∀ reply, (next reply).Returns goal

/-- Answered only as `answers` allows, the program asks for nothing but what `asks` allows and returns
nothing but what `goal` allows. -/
def Meets (answers : (request : Req) → Reply request → Prop) (asks : Req → Prop) (goal : α → Prop) :
    Prog Req Reply ε α → Prop
  | ret value => goal value
  | raise _ => True
  | ask request next => asks request ∧ ∀ reply, answers request reply → (next reply).Meets answers asks goal

/-- Answered as `answers` allows, the program returns nothing once it has asked for anything `marked`. -/
def FailsAfter (answers : (request : Req) → Reply request → Prop) (marked : Req → Prop) :
    Prog Req Reply ε α → Prop
  | ret _ => True
  | raise _ => True
  | ask request next => ∀ reply, answers request reply →
      (next reply).FailsAfter answers marked ∧
      (marked request → (next reply).Meets answers (fun _ => True) fun _ => False)

theorem Returns.bind {program : Prog Req Reply ε α} {next : α → Prog Req Reply ε β}
    {middle : α → Prop} {goal : β → Prop} (hreturns : program.Returns middle)
    (hnext : ∀ value, middle value → (next value).Returns goal) :
    (program.bind next).Returns goal := by
  induction program with
  | ret value => exact hnext value hreturns
  | raise error => trivial
  | ask request resume ih => exact fun reply => ih reply (hreturns reply)

@[simp] theorem pure_eq (value : α) : (pure value : Prog Req Reply ε α) = ret value := rfl

@[simp] theorem bind_eq (program : Prog Req Reply ε α) (next : α → Prog Req Reply ε β) :
    program >>= next = program.bind next := rfl

theorem bind_assoc {γ : Type} (program : Prog Req Reply ε α) (next : α → Prog Req Reply ε β)
    (last : β → Prog Req Reply ε γ) :
    (program.bind next).bind last = program.bind fun value => (next value).bind last := by
  induction program with
  | ret value => rfl
  | raise error => rfl
  | ask request resume ih => exact congrArg (ask request) (funext ih)

namespace Only

variable {asks asks' : Req → Prop}

theorem any (program : Prog Req Reply ε α) : program.Only fun _ => True := by
  induction program with
  | ret value => trivial
  | raise error => trivial
  | ask request next ih => exact ⟨trivial, ih⟩

theorem mono {program : Prog Req Reply ε α} (honly : program.Only asks)
    (h : ∀ request, asks request → asks' request) : program.Only asks' := by
  induction program with
  | ret value => trivial
  | raise error => trivial
  | ask request next ih => exact ⟨h request honly.1, fun reply => ih reply (honly.2 reply)⟩

theorem bind {program : Prog Req Reply ε α} {next : α → Prog Req Reply ε β}
    (honly : program.Only asks) (hnext : ∀ value, (next value).Only asks) :
    (program.bind next).Only asks := by
  induction program with
  | ret value => exact hnext value
  | raise error => trivial
  | ask request resume ih => exact ⟨honly.1, fun reply => ih reply (honly.2 reply)⟩

theorem ite {condition : Prop} [Decidable condition] {program other : Prog Req Reply ε α}
    (honly : program.Only asks) (hother : other.Only asks) :
    (if condition then program else other).Only asks := by
  split
  · exact honly
  · exact hother

theorem bind_of {program : Prog Req Reply ε α} {next : α → Prog Req Reply ε β} {goal : α → Prop}
    (honly : program.Only asks) (hreturns : program.Returns goal)
    (hnext : ∀ value, goal value → (next value).Only asks) : (program.bind next).Only asks := by
  induction program with
  | ret value => exact hnext value hreturns
  | raise error => trivial
  | ask request resume ih =>
    exact ⟨honly.1, fun reply => ih reply (honly.2 reply) (hreturns reply)⟩

theorem catching {program : Prog Req Reply ε α} {handler : ε → Prog Req Reply δ α}
    (honly : program.Only asks) (hhandler : ∀ error, (handler error).Only asks) :
    (program.catching handler).Only asks := by
  induction program with
  | ret value => trivial
  | raise error => exact hhandler error
  | ask request resume ih => exact ⟨honly.1, fun reply => ih reply (honly.2 reply)⟩

theorem outcome {program : Prog Req Reply ε α} (honly : program.Only asks) :
    (program.outcome (δ := δ)).Only asks := by
  induction program with
  | ret value => trivial
  | raise error => trivial
  | ask request resume ih => exact ⟨honly.1, fun reply => ih reply (honly.2 reply)⟩

theorem sequence {programs : List (Prog Req Reply ε α)}
    (honly : ∀ program ∈ programs, program.Only asks) : (Prog.sequence programs).Only asks := by
  induction programs with
  | nil => trivial
  | cons program programs ih =>
    refine (honly program (List.mem_cons_self ..)).bind fun value => ?_
    refine (ih fun other hmem => honly other (List.mem_cons_of_mem _ hmem)).bind fun values => ?_
    trivial

/-- What is left of the threads asks for no more than they did. -/
theorem weave_bind {schedule : List Nat} {threads : List (Prog Req Reply ε α)}
    {next : List (Prog Req Reply ε α) → Prog Req Reply δ β}
    (honly : ∀ program ∈ threads, program.Only asks)
    (hnext : ∀ left, (∀ program ∈ left, program.Only asks) → (next left).Only asks) :
    ((Prog.weave schedule threads).bind next).Only asks := by
  induction schedule generalizing threads with
  | nil => exact hnext threads honly
  | cons thread schedule ih =>
    unfold Prog.weave
    split
    next request resume hthread =>
      have hhere := honly _ (List.mem_of_getElem? hthread)
      refine ⟨hhere.1, fun reply => ih fun program hmem => ?_⟩
      rcases List.mem_or_eq_of_mem_set hmem with hmem | rfl
      · exact honly program hmem
      · exact hhere.2 reply
    next => exact ih honly

theorem join {schedule : List Nat} {threads : List (Prog Req Reply ε α)}
    (honly : ∀ program ∈ threads, program.Only asks) : (Prog.join schedule threads).Only asks := by
  refine weave_bind honly fun left hleft => ?_
  split
  · trivial
  · exact sequence hleft

end Only

namespace Meets

variable {answers : (request : Req) → Reply request → Prop} {asks : Req → Prop}

theorem of_only {program : Prog Req Reply ε α} (honly : program.Only asks) :
    program.Meets answers asks fun _ => True := by
  induction program with
  | ret value => trivial
  | raise error => trivial
  | ask request next ih => exact ⟨honly.1, fun reply _ => ih reply (honly.2 reply)⟩

theorem mono {program : Prog Req Reply ε α} {goal goal' : α → Prop}
    (hmeets : program.Meets answers asks goal) (hgoal : ∀ value, goal value → goal' value) :
    program.Meets answers asks goal' := by
  induction program with
  | ret value => exact hgoal value hmeets
  | raise error => trivial
  | ask request next ih => exact ⟨hmeets.1, fun reply hreply => ih reply (hmeets.2 reply hreply)⟩

theorem mono_asks {asks' : Req → Prop} {program : Prog Req Reply ε α} {goal : α → Prop}
    (hmeets : program.Meets answers asks goal) (hasks : ∀ request, asks request → asks' request) :
    program.Meets answers asks' goal := by
  induction program with
  | ret value => exact hmeets
  | raise error => trivial
  | ask request next ih =>
    exact ⟨hasks request hmeets.1, fun reply hreply => ih reply (hmeets.2 reply hreply)⟩

theorem bind {program : Prog Req Reply ε α} {next : α → Prog Req Reply ε β} {middle : α → Prop}
    {goal : β → Prop} (hmeets : program.Meets answers asks middle)
    (hnext : ∀ value, middle value → (next value).Meets answers asks goal) :
    (program.bind next).Meets answers asks goal := by
  induction program with
  | ret value => exact hnext value hmeets
  | raise error => trivial
  | ask request resume ih => exact ⟨hmeets.1, fun reply hreply => ih reply (hmeets.2 reply hreply)⟩

theorem ite {condition : Prop} [Decidable condition] {program other : Prog Req Reply ε α}
    {goal : α → Prop} (hmeets : program.Meets answers asks goal)
    (hother : other.Meets answers asks goal) :
    (if condition then program else other).Meets answers asks goal := by
  split
  · exact hmeets
  · exact hother

theorem catching {program : Prog Req Reply ε α} {handler : ε → Prog Req Reply δ α}
    {goal : α → Prop} (hmeets : program.Meets answers asks goal)
    (hhandler : ∀ error, (handler error).Meets answers asks goal) :
    (program.catching handler).Meets answers asks goal := by
  induction program with
  | ret value => exact hmeets
  | raise error => exact hhandler error
  | ask request resume ih => exact ⟨hmeets.1, fun reply hreply => ih reply (hmeets.2 reply hreply)⟩

theorem sequence {goal : Nat → α → Prop} {programs : List (Prog Req Reply ε α)}
    (hmeets : ∀ (i : Nat) (program : Prog Req Reply ε α), programs[i]? = some program → program.Meets answers asks (goal i)) :
    (Prog.sequence programs).Meets answers asks fun values =>
      values.length = programs.length ∧ ∀ (i : Nat) (value : α), values[i]? = some value → goal i value := by
  induction programs generalizing goal with
  | nil => exact ⟨rfl, fun i value hvalue => by simp at hvalue⟩
  | cons program programs ih =>
    refine (hmeets 0 program rfl).bind fun value hvalue => ?_
    refine (ih fun i other hother => hmeets (i + 1) other hother).bind fun values hvalues => ?_
    refine ⟨by simp [hvalues.1], fun i value' hvalue' => ?_⟩
    cases i with
    | zero =>
      obtain rfl : value = value' := by simpa using hvalue'
      exact hvalue
    | succ i => exact hvalues.2 i value' (by simpa using hvalue')

/-- What is left of the threads meets what they did. -/
theorem weave_bind {goal : Nat → α → Prop} {final : β → Prop} {schedule : List Nat}
    {threads : List (Prog Req Reply ε α)} {next : List (Prog Req Reply ε α) → Prog Req Reply δ β}
    (hmeets : ∀ (i : Nat) (program : Prog Req Reply ε α), threads[i]? = some program → program.Meets answers asks (goal i))
    (hnext : ∀ left, left.length = threads.length →
      (∀ (i : Nat) (program : Prog Req Reply ε α), left[i]? = some program → program.Meets answers asks (goal i)) →
      (next left).Meets answers asks final) :
    ((Prog.weave schedule threads).bind next).Meets answers asks final := by
  induction schedule generalizing threads with
  | nil => exact hnext threads rfl hmeets
  | cons thread schedule ih =>
    unfold Prog.weave
    split
    next request resume hthread =>
      obtain ⟨hasks, hresume⟩ := hmeets thread _ hthread
      refine ⟨hasks, fun reply hreply => ih (fun i program hprogram => ?_) fun left hlength => ?_⟩
      · by_cases hsame : thread = i
        · subst hsame
          have hlt : thread < threads.length := (List.getElem?_eq_some_iff.mp hthread).1
          rw [List.getElem?_set_self hlt, Option.some.injEq] at hprogram
          exact hprogram ▸ hresume reply hreply
        · rw [List.getElem?_set_ne hsame] at hprogram
          exact hmeets i program hprogram
      · exact hnext left (hlength.trans (List.length_set ..))
    next => exact ih hmeets hnext

theorem join {goal : Nat → α → Prop} {schedule : List Nat} {threads : List (Prog Req Reply ε α)}
    (hmeets : ∀ (i : Nat) (program : Prog Req Reply ε α), threads[i]? = some program → program.Meets answers asks (goal i)) :
    (Prog.join schedule threads).Meets answers asks fun values =>
      values.length = threads.length ∧ ∀ (i : Nat) (value : α), values[i]? = some value → goal i value := by
  refine weave_bind hmeets fun left hlength hleft => ?_
  split
  · trivial
  · rw [← hlength]
    exact sequence hleft

end Meets

namespace FailsAfter

variable {answers : (request : Req) → Reply request → Prop} {marked : Req → Prop}

theorem of_fails {program : Prog Req Reply ε α}
    (hfails : program.Meets answers (fun _ => True) fun _ => False) :
    program.FailsAfter answers marked := by
  induction program with
  | ret value => trivial
  | raise error => trivial
  | ask request next ih =>
    exact fun reply hreply => ⟨ih reply (hfails.2 reply hreply), fun _ => hfails.2 reply hreply⟩

theorem of_only {program : Prog Req Reply ε α} (honly : program.Only fun request => ¬marked request) :
    program.FailsAfter answers marked := by
  induction program with
  | ret value => trivial
  | raise error => trivial
  | ask request next ih =>
    exact fun reply _ => ⟨ih reply (honly.2 reply), fun hmarked => absurd hmarked honly.1⟩

theorem bind {program : Prog Req Reply ε α} {next : α → Prog Req Reply ε β}
    (hfails : program.FailsAfter answers marked)
    (hnext : ∀ value, (next value).FailsAfter answers marked) :
    (program.bind next).FailsAfter answers marked := by
  induction program with
  | ret value => exact hnext value
  | raise error => trivial
  | ask request resume ih =>
    intro reply hreply
    obtain ⟨hafter, hmarked⟩ := hfails reply hreply
    exact ⟨ih reply hafter, fun h => (hmarked h).bind fun _ hnone => hnone.elim⟩

end FailsAfter

end Prog

end Interleaving
