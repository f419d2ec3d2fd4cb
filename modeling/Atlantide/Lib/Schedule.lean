import Mathlib.Logic.Function.Basic
import Atlantide.Lib.RelyGuarantee

/-! # Work over a graph

A schedule runs one program a node: a node's program starts at most once, and only when the
programs of the nodes before it have ended well; those that run are served one request at a time in
any order. Nothing starts a node that waits for one that failed. -/

namespace Interleaving

structure Schedule (ι Choice World Req : Type) (Reply : Req → Type) (Env ε : Type) where
  before : ι → List ι
  work : ι → Prog Req Reply ε Unit
  serve : ι → Choice → World → (r : Req) → Reply r × World
  env : Env → World → World

namespace Schedule

variable {ι Choice World Req Env ε : Type} {Reply : Req → Type} [DecidableEq ι]

inductive Task (Req : Type) (Reply : Req → Type) (ε : Type)
  | waiting
  | running (program : Prog Req Reply ε Unit)

namespace Task

/-- The node's work has ended well. -/
def done : Task Req Reply ε → Bool
  | running (.ret _) => true
  | _ => false

def failed : Task Req Reply ε → Option ε
  | running (.raise error) => some error
  | _ => none

/-- The node is in the middle of its work. -/
def busy : Task Req Reply ε → Bool
  | running (.ask _ _) => true
  | _ => false

end Task

structure Config (ι World Req : Type) (Reply : Req → Type) (ε : Type) where
  world : World
  tasks : ι → Task Req Reply ε

inductive Act (ι Choice Env : Type)
  | start (node : ι)
  | serve (node : ι) (choice : Choice)
  | env (event : Env)

def initial (world : World) : Config ι World Req Reply ε := ⟨world, fun _ => .waiting⟩

def step (schedule : Schedule ι Choice World Req Reply Env ε) :
    Act ι Choice Env → Config ι World Req Reply ε → Option (Config ι World Req Reply ε)
  | .start node, config =>
    match config.tasks node with
    | .waiting =>
      if (schedule.before node).all fun earlier => (config.tasks earlier).done then
        some { config with
          tasks := Function.update config.tasks node (.running (schedule.work node)) }
      else none
    | .running _ => none
  | .serve node choice, config =>
    match config.tasks node with
    | .running (.ask request next) =>
      let served := schedule.serve node choice config.world request
      some ⟨served.2, Function.update config.tasks node (.running (next served.1))⟩
    | _ => none
  | .env event, config => some { config with world := schedule.env event config.world }

def run (schedule : Schedule ι Choice World Req Reply Env ε) :
    List (Act ι Choice Env) → Config ι World Req Reply ε → Option (Config ι World Req Reply ε)
  | [], config => some config
  | act :: acts, config => (schedule.step act config).bind (schedule.run acts)

variable {schedule : Schedule ι Choice World Req Reply Env ε}
variable {inv : World → Prop} {rely : ι → World → World → Prop} {legit : ι → World → Req → Prop}
variable {pre : ι → World → Prop} {post : ι → World → Except ε Unit → Prop}

/-- What has to be checked of a schedule. What a node may assume when it starts, and what it leaves
when it ends, both survive the other nodes' work. -/
structure Disciplined (schedule : Schedule ι Choice World Req Reply Env ε)
    (inv : World → Prop) (rely : ι → World → World → Prop) (legit : ι → World → Req → Prop)
    (pre : ι → World → Prop) (post : ι → World → Except ε Unit → Prop) : Prop where
  rely_refl : ∀ node world, rely node world world
  rely_trans : ∀ node a b c, rely node a b → rely node b c → rely node a c
  inv_env : ∀ event world, inv world → inv (schedule.env event world)
  rely_env : ∀ node event world, inv world → rely node world (schedule.env event world)
  inv_serve : ∀ node choice world request, inv world → legit node world request →
    inv (schedule.serve node choice world request).2
  rely_serve : ∀ node other choice world request, node ≠ other → inv world →
    legit other world request → rely node world (schedule.serve other choice world request).2
  start : ∀ node world, inv world → pre node world →
    (∀ earlier ∈ schedule.before node, post earlier world (.ok ())) →
    Safe (schedule.serve node) ⟨inv, rely node, legit node⟩ (schedule.work node) world (post node)
  pre_stable : ∀ node world world', rely node world world' → pre node world → pre node world'
  post_stable : ∀ node world world' outcome, rely node world world' → post node world outcome →
    post node world' outcome

/-- The invariant holds, a node that has not started may still assume its precondition, and every
other is safe from some earlier world on. -/
def Held (schedule : Schedule ι Choice World Req Reply Env ε) (inv : World → Prop)
    (rely : ι → World → World → Prop) (legit : ι → World → Req → Prop)
    (pre : ι → World → Prop) (post : ι → World → Except ε Unit → Prop)
    (config : Config ι World Req Reply ε) : Prop :=
  inv config.world ∧ ∀ node, match config.tasks node with
    | .waiting => pre node config.world
    | .running program => ∃ world, rely node world config.world ∧
        Safe (schedule.serve node) ⟨inv, rely node, legit node⟩ program world (post node)

omit [DecidableEq ι] in
theorem Held.legitimate {config : Config ι World Req Reply ε}
    (hheld : Held schedule inv rely legit pre post config) {node : ι} {request : Req}
    {next : Reply request → Prog Req Reply ε Unit}
    (htask : config.tasks node = .running (.ask request next)) :
    legit node config.world request := by
  have hnode := hheld.2 node
  rw [htask] at hnode
  obtain ⟨world, hrely, hsafe⟩ := hnode
  exact (hsafe _ hrely hheld.1).1

omit [DecidableEq ι] in
/-- What an ended node left still holds. -/
theorem Disciplined.post_of_ended (hdisciplined : Disciplined schedule inv rely legit pre post)
    {config : Config ι World Req Reply ε} (hheld : Held schedule inv rely legit pre post config)
    {node : ι} {value : Unit} (htask : config.tasks node = .running (.ret value)) :
    post node config.world (.ok value) := by
  have hnode := hheld.2 node
  rw [htask] at hnode
  obtain ⟨world, hrely, hsafe⟩ := hnode
  exact hdisciplined.post_stable _ _ _ _ hrely hsafe

theorem done_iff {task : Task Req Reply ε} : task.done = true ↔ task = .running (.ret ()) := by
  unfold Task.done
  split
  · simp
  next hother =>
    simp only [Bool.false_eq_true, false_iff]
    exact fun h => hother () h

theorem Disciplined.held_step (hdisciplined : Disciplined schedule inv rely legit pre post)
    {config config' : Config ι World Req Reply ε} {act : Act ι Choice Env}
    (hstep : schedule.step act config = some config')
    (hheld : Held schedule inv rely legit pre post config) :
    Held schedule inv rely legit pre post config' := by
  obtain ⟨hinv, htasks⟩ := hheld
  -- Whatever moved the world, a node other than the one served keeps what it had.
  have hkeep : ∀ node world', rely node config.world world' →
      (match config.tasks node with
        | .waiting => pre node world'
        | .running program => ∃ world, rely node world world' ∧
            Safe (schedule.serve node) ⟨inv, rely node, legit node⟩ program world (post node)) := by
    intro node world' hrely
    have hnode := htasks node
    split
    next hwaiting =>
      rw [hwaiting] at hnode
      exact hdisciplined.pre_stable _ _ _ hrely hnode
    next program hrunning =>
      rw [hrunning] at hnode
      obtain ⟨world, hrely', hsafe⟩ := hnode
      exact ⟨world, hdisciplined.rely_trans _ _ _ _ hrely' hrely, hsafe⟩
  cases act with
  | start node =>
    simp only [step] at hstep
    split at hstep
    next hwaiting =>
      split at hstep
      next hbefore =>
        cases hstep
        refine ⟨hinv, fun other => ?_⟩
        dsimp only
        by_cases hsame : other = node
        · subst hsame
          rw [Function.update_self]
          have hpre := htasks other
          rw [hwaiting] at hpre
          refine ⟨config.world, hdisciplined.rely_refl _ _,
            hdisciplined.start _ _ hinv hpre fun earlier hearlier => ?_⟩
          exact hdisciplined.post_of_ended ⟨hinv, htasks⟩
            (done_iff.mp (List.all_eq_true.mp hbefore earlier hearlier))
        · rw [Function.update_of_ne hsame]
          exact htasks other
      next => cases hstep
    next => cases hstep
  | serve node choice =>
    simp only [step] at hstep
    split at hstep
    next request next htask =>
      cases hstep
      have hlegit := Held.legitimate ⟨hinv, htasks⟩ htask
      have hinv' := hdisciplined.inv_serve node choice _ _ hinv hlegit
      refine ⟨hinv', fun other => ?_⟩
      dsimp only
      by_cases hsame : other = node
      · subst hsame
        rw [Function.update_self]
        have hnode := htasks other
        rw [htask] at hnode
        obtain ⟨world, hrely, hsafe⟩ := hnode
        exact ⟨_, hdisciplined.rely_refl _ _, (hsafe _ hrely hinv).2 choice hinv'⟩
      · rw [Function.update_of_ne hsame]
        exact hkeep other _ (hdisciplined.rely_serve _ _ choice _ _ hsame hinv hlegit)
    next => cases hstep
  | env event =>
    cases hstep
    exact ⟨hdisciplined.inv_env event _ hinv,
      fun node => hkeep node _ (hdisciplined.rely_env node event _ hinv)⟩

end Schedule

end Interleaving
