import Mathlib.Logic.Function.Basic
import Atlantide.Lib.RelyGuarantee

/-! # Systems of interleaved tasks

A system serves the requests of any number of tasks, one at a time, while its environment may act
at any moment. A task starts when it is free, and is free again once its program has ended. A task
that is never served again has crashed: nothing distinguishes the two. -/

namespace Interleaving

structure System (Tid Choice World Req : Type) (Reply : Req → Type) (Env Call ε α : Type) where
  serve : Tid → Choice → World → (r : Req) → Reply r × World
  env : Env → World → World
  program : Tid → Call → Prog Req Reply ε α

namespace System

variable {Tid Choice World Req Env Call ε α : Type} {Reply : Req → Type} [DecidableEq Tid]

structure Task (Req : Type) (Reply : Req → Type) (Call ε α : Type) where
  call : Call
  program : Prog Req Reply ε α

structure Config (Tid World Req : Type) (Reply : Req → Type) (Call ε α : Type) where
  world : World
  tasks : Tid → Option (Task Req Reply Call ε α)

inductive Act (Tid Choice Env Call : Type)
  | start (tid : Tid) (call : Call)
  | serve (tid : Tid) (choice : Choice)
  | env (event : Env)

def initial (world : World) : Config Tid World Req Reply Call ε α := ⟨world, fun _ => none⟩

def step (system : System Tid Choice World Req Reply Env Call ε α) :
    Act Tid Choice Env Call → Config Tid World Req Reply Call ε α →
      Option (Config Tid World Req Reply Call ε α)
  | .start tid call, config =>
    match config.tasks tid with
    | some ⟨_, .ask _ _⟩ => none
    | _ => some { config with
        tasks := Function.update config.tasks tid (some ⟨call, system.program tid call⟩) }
  | .serve tid choice, config =>
    match config.tasks tid with
    | some ⟨call, .ask request next⟩ =>
      let served := system.serve tid choice config.world request
      some ⟨served.2, Function.update config.tasks tid (some ⟨call, next served.1⟩)⟩
    | _ => none
  | .env event, config => some { config with world := system.env event config.world }

def run (system : System Tid Choice World Req Reply Env Call ε α) :
    List (Act Tid Choice Env Call) → Config Tid World Req Reply Call ε α →
      Option (Config Tid World Req Reply Call ε α)
  | [], config => some config
  | act :: acts, config => (system.step act config).bind (system.run acts)

variable {system : System Tid Choice World Req Reply Env Call ε α}
variable {inv : World → Prop} {rely : Tid → World → World → Prop} {legit : Tid → World → Req → Prop}
variable {post : Tid → Call → World → Except ε α → Prop}

/-- What has to be checked of a system: that the environment and legitimate requests keep the
invariant and stay within what the other tasks rely on, and that every program is safe. -/
structure Disciplined (system : System Tid Choice World Req Reply Env Call ε α)
    (inv : World → Prop) (rely : Tid → World → World → Prop) (legit : Tid → World → Req → Prop)
    (post : Tid → Call → World → Except ε α → Prop) : Prop where
  rely_refl : ∀ tid world, rely tid world world
  rely_trans : ∀ tid a b c, rely tid a b → rely tid b c → rely tid a c
  inv_env : ∀ event world, inv world → inv (system.env event world)
  rely_env : ∀ tid event world, inv world → rely tid world (system.env event world)
  inv_serve : ∀ tid choice world request, inv world → legit tid world request →
    inv (system.serve tid choice world request).2
  rely_serve : ∀ tid tid' choice world request, tid ≠ tid' → inv world →
    legit tid' world request → rely tid world (system.serve tid' choice world request).2
  start : ∀ tid call world, inv world →
    Safe (system.serve tid) ⟨inv, rely tid, legit tid⟩ (system.program tid call) world
      (post tid call)

/-- The invariant holds, and every task is safe from some earlier world on. -/
def Held (system : System Tid Choice World Req Reply Env Call ε α) (inv : World → Prop)
    (rely : Tid → World → World → Prop) (legit : Tid → World → Req → Prop)
    (post : Tid → Call → World → Except ε α → Prop)
    (config : Config Tid World Req Reply Call ε α) : Prop :=
  inv config.world ∧ ∀ tid task, config.tasks tid = some task →
    ∃ world, rely tid world config.world ∧
      Safe (system.serve tid) ⟨inv, rely tid, legit tid⟩ task.program world (post tid task.call)

omit [DecidableEq Tid] in
theorem held_initial {world : World} (hinv : inv world) :
    Held system inv rely legit post (initial world) :=
  ⟨hinv, fun _ _ htask => nomatch htask⟩

omit [DecidableEq Tid] in
theorem Held.legitimate {config : Config Tid World Req Reply Call ε α}
    (hheld : Held system inv rely legit post config) {tid : Tid} {call : Call} {request : Req}
    {next : Reply request → Prog Req Reply ε α}
    (htask : config.tasks tid = some ⟨call, .ask request next⟩) :
    legit tid config.world request := by
  obtain ⟨world, hrely, hsafe⟩ := hheld.2 tid _ htask
  exact (hsafe _ hrely hheld.1).1

theorem Disciplined.held_step (hsystem : Disciplined system inv rely legit post)
    {config config' : Config Tid World Req Reply Call ε α} {act : Act Tid Choice Env Call}
    (hstep : system.step act config = some config')
    (hheld : Held system inv rely legit post config) :
    Held system inv rely legit post config' := by
  obtain ⟨hinv, htasks⟩ := hheld
  cases act with
  | start tid call =>
    simp only [step] at hstep
    split at hstep
    · cases hstep
    · cases hstep
      refine ⟨hinv, fun tid' task htask => ?_⟩
      dsimp only at htask ⊢
      by_cases hsame : tid' = tid
      · subst hsame
        rw [Function.update_self, Option.some.injEq] at htask
        subst htask
        exact ⟨config.world, hsystem.rely_refl _ _, hsystem.start _ _ _ hinv⟩
      · rw [Function.update_of_ne hsame] at htask
        exact htasks tid' task htask
  | serve tid choice =>
    simp only [step] at hstep
    split at hstep
    next call request next htask =>
      cases hstep
      have hlegit := Held.legitimate ⟨hinv, htasks⟩ htask
      have hinv' := hsystem.inv_serve tid choice _ _ hinv hlegit
      refine ⟨hinv', fun tid' task' htask' => ?_⟩
      dsimp only at htask' ⊢
      by_cases hsame : tid' = tid
      · subst hsame
        rw [Function.update_self, Option.some.injEq] at htask'
        subst htask'
        obtain ⟨world, hrely, hsafe⟩ := htasks tid' _ htask
        exact ⟨_, hsystem.rely_refl _ _, (hsafe _ hrely hinv).2 choice hinv'⟩
      · rw [Function.update_of_ne hsame] at htask'
        obtain ⟨world, hrely, hsafe⟩ := htasks tid' _ htask'
        exact ⟨world, hsystem.rely_trans _ _ _ _ hrely
          (hsystem.rely_serve _ _ choice _ _ hsame hinv hlegit), hsafe⟩
    next => cases hstep
  | env event =>
    cases hstep
    refine ⟨hsystem.inv_env event _ hinv, fun tid task htask => ?_⟩
    obtain ⟨world, hrely, hsafe⟩ := htasks tid task htask
    exact ⟨world, hsystem.rely_trans _ _ _ _ hrely (hsystem.rely_env _ event _ hinv), hsafe⟩

theorem Disciplined.held_run (hsystem : Disciplined system inv rely legit post)
    {acts : List (Act Tid Choice Env Call)} {config config' : Config Tid World Req Reply Call ε α}
    (hrun : system.run acts config = some config')
    (hheld : Held system inv rely legit post config) :
    Held system inv rely legit post config' := by
  induction acts generalizing config with
  | nil => cases hrun; exact hheld
  | cons act acts ih =>
    obtain ⟨middle, hstep, hrest⟩ := Option.bind_eq_some_iff.mp hrun
    exact ih hrest (hsystem.held_step hstep hheld)

/-- **Every reachable world keeps the invariant, and every task is safe.** -/
theorem Disciplined.reachable (hsystem : Disciplined system inv rely legit post) {world : World}
    (hinv : inv world) {acts : List (Act Tid Choice Env Call)}
    {config : Config Tid World Req Reply Call ε α}
    (hrun : system.run acts (initial world) = some config) :
    Held system inv rely legit post config :=
  hsystem.held_run hrun (held_initial hinv)

/-- A task asks for nothing but what the programs do. -/
theorem only_step {asks : Req → Prop} (hprograms : ∀ tid call, (system.program tid call).Only asks)
    {config config' : Config Tid World Req Reply Call ε α} {act : Act Tid Choice Env Call}
    (hstep : system.step act config = some config')
    (hasks : ∀ tid task, config.tasks tid = some task → task.program.Only asks) :
    ∀ tid task, config'.tasks tid = some task → task.program.Only asks := by
  intro tid' task' htask'
  cases act with
  | start tid call =>
    simp only [step] at hstep
    split at hstep
    · cases hstep
    · cases hstep
      dsimp only at htask'
      by_cases hsame : tid' = tid
      · subst hsame
        rw [Function.update_self, Option.some.injEq] at htask'
        subst htask'
        exact hprograms tid' call
      · rw [Function.update_of_ne hsame] at htask'
        exact hasks tid' task' htask'
  | serve tid choice =>
    simp only [step] at hstep
    split at hstep
    next call request next htask =>
      cases hstep
      dsimp only at htask'
      by_cases hsame : tid' = tid
      · subst hsame
        rw [Function.update_self, Option.some.injEq] at htask'
        subst htask'
        exact (hasks tid' _ htask).2 _
      · rw [Function.update_of_ne hsame] at htask'
        exact hasks tid' task' htask'
    next => cases hstep
  | env event =>
    cases hstep
    exact hasks tid' task' htask'

theorem run_append (acts more : List (Act Tid Choice Env Call))
    (config : Config Tid World Req Reply Call ε α) :
    system.run (acts ++ more) config = (system.run acts config).bind (system.run more) := by
  induction acts generalizing config with
  | nil => rfl
  | cons act acts ih =>
    simp only [List.cons_append, run]
    cases system.step act config with
    | none => rfl
    | some middle => exact ih middle

end System

end Interleaving
