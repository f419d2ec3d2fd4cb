import Mathlib.Algebra.GroupWithZero.Nat
import Mathlib.Tactic.SplitIfs
import Atlantide.Graph.Order
import Atlantide.Lib.Semaphore

/-! # Running work over a graph

Every node has a task, which waits for its predecessors' completion events one after the other and
then for its turn at a shared semaphore. The tasks run in any order the event loop likes, and the
work of a node may end well or fail at any moment. A failure, or a cancellation of the caller,
cancels every task that is left: it finds out where it waits next, and its work may end well, fail
or be cut off. -/

namespace Atlantide

/-- How far a node's task is. -/
inductive Phase
  /-- The predecessors it has not found complete yet. -/
  | waiting (left : List String)
  | queued
  | running
  | finished
  | failed
  /-- Cancelled, before its work or in the middle of it. -/
  | dropped
  deriving DecidableEq

/-- How many moves a task still makes at most. -/
def Phase.left : Phase → Nat
  | .waiting left => left.length + 3
  | .queued => 2
  | .running => 1
  | _ => 0

/-- The predecessors a task has yet to find complete. -/
def Phase.awaited : Phase → List String
  | .waiting left => left
  | _ => []

/-- Whether the task has not come to its work. -/
def Phase.early : Phase → Bool
  | .waiting _ | .queued => true
  | _ => false

inductive WorkEvent
  | started (nodeId : String)
  | finished (nodeId : String)
  | failed (nodeId : String)
  deriving DecidableEq

/-- What is said of a task's work when it enters the phase. -/
def Phase.events (nodeId : String) : Phase → List WorkEvent
  | .running => [.started nodeId]
  | .finished => [.finished nodeId]
  | .failed => [.failed nodeId]
  | _ => []

structure GraphRun where
  phase : String → Phase
  semaphore : Semaphore String
  /-- The group has cancelled the tasks that are left. -/
  aborted : Bool := false
  /-- What happened to the work, newest first. -/
  history : List WorkEvent := []

/-- What one task does until it waits again. -/
inductive Move
  /-- The next predecessor's event is set. -/
  | wait
  /-- It asks the semaphore for a place. -/
  | acquire
  /-- It was woken with a place. -/
  | resume
  | finish
  | fail
  /-- It finds itself cancelled. -/
  | drop

inductive GraphAct
  | task (nodeId : String) (move : Move)
  | abort

/-- No work fails, and nobody cancels the run. -/
def GraphAct.quiet : GraphAct → Bool
  | task _ .fail | abort => false
  | _ => true

namespace GraphRun

/-- `run_graph` once its tasks are made; there must be room for one at a time. -/
def start (graph : DiGraph) (parallelism : Nat) (reverse : Bool) : Option GraphRun :=
  if parallelism < 1 then none
  else some { phase := fun nodeId => .waiting (graph.predecessors nodeId reverse)
              semaphore := ⟨parallelism, []⟩ }

def enter (run : GraphRun) (nodeId : String) (phase : Phase) (semaphore : Semaphore String) :
    GraphRun :=
  { run with
    phase := Function.update run.phase nodeId phase
    semaphore
    history := phase.events nodeId ++ run.history }

def move (nodeId : String) : Move → GraphRun → Option GraphRun
  | .wait, run =>
    match run.phase nodeId with
    | .waiting (pred :: left) =>
      if run.aborted = false ∧ run.phase pred = .finished then
        some (run.enter nodeId (.waiting left) run.semaphore)
      else none
    | _ => none
  | .acquire, run =>
    if run.aborted = false ∧ run.phase nodeId = .waiting [] then
      match run.semaphore.acquire nodeId with
      | (true, semaphore) => some (run.enter nodeId .running semaphore)
      | (false, semaphore) => some (run.enter nodeId .queued semaphore)
    else none
  | .resume, run =>
    if run.aborted = false ∧ run.phase nodeId = .queued ∧
        (nodeId, .woken) ∈ run.semaphore.waiters then
      some (run.enter nodeId .running (run.semaphore.resume nodeId))
    else none
  | .finish, run =>
    if run.phase nodeId = .running then
      some (run.enter nodeId .finished run.semaphore.release)
    else none
  | .fail, run =>
    if run.phase nodeId = .running then
      some (run.enter nodeId .failed run.semaphore.release)
    else none
  | .drop, run =>
    if run.aborted = false then none
    else
      match run.phase nodeId with
      | .waiting _ => some (run.enter nodeId .dropped run.semaphore)
      | .queued => some (run.enter nodeId .dropped (run.semaphore.withdraw nodeId))
      | .running => some (run.enter nodeId .dropped run.semaphore.release)
      | _ => none

def step (graph : DiGraph) : GraphAct → GraphRun → Option GraphRun
  | .task nodeId move, run => if nodeId ∈ graph.nodeIds then run.move nodeId move else none
  | .abort, run => some { run with aborted := true, semaphore := run.semaphore.cancelAll }

def steps (graph : DiGraph) : List GraphAct → GraphRun → Option GraphRun
  | [], run => some run
  | act :: acts, run => (step graph act run).bind (steps graph acts)

/-- The sum of what the nodes' phases weigh. -/
def total (graph : DiGraph) (weight : Phase → Nat) (run : GraphRun) : Nat :=
  (graph.nodeIds.map fun nodeId => weight (run.phase nodeId)).sum

/-- How many nodes' work runs at the moment. -/
def running (graph : DiGraph) (run : GraphRun) : Nat :=
  run.total graph fun phase => if phase = .running then 1 else 0

/-- How many moves the tasks still make at most. -/
def left (graph : DiGraph) (run : GraphRun) : Nat := run.total graph Phase.left

theorem total_enter {graph : DiGraph} (hnodup : graph.nodeIds.Nodup) {nodeId : String}
    (hnode : nodeId ∈ graph.nodeIds) (weight : Phase → Nat) (run : GraphRun) (phase : Phase)
    (semaphore : Semaphore String) :
    (run.enter nodeId phase semaphore).total graph weight + weight (run.phase nodeId) =
      run.total graph weight + weight phase := by
  unfold total enter
  dsimp only
  generalize graph.nodeIds = nodes at hnodup hnode
  induction nodes with
  | nil => cases hnode
  | cons first nodes ih =>
    obtain ⟨hfirst, hnodup⟩ := List.nodup_cons.mp hnodup
    rw [List.map_cons, List.map_cons, List.sum_cons, List.sum_cons]
    by_cases hsame : nodeId = first
    · subst hsame
      have hrest : (nodes.map fun other => weight (Function.update run.phase nodeId phase other)) =
          nodes.map fun other => weight (run.phase other) := by
        refine List.map_congr_left fun other hmem => ?_
        have hother : other ≠ nodeId := fun heq => hfirst (heq ▸ hmem)
        rw [Function.update_of_ne hother]
      rw [hrest, Function.update_self]
      omega
    · have hlater := ih hnodup ((List.mem_cons.mp hnode).resolve_left hsame)
      rw [Function.update_of_ne (Ne.symm hsame)]
      omega

/-- What holds at every moment of a run. -/
structure Sound (graph : DiGraph) (parallelism : Nat) (reverse : Bool) (run : GraphRun) : Prop where
  permits : run.semaphore.permits + run.running graph = parallelism
  attentive : run.semaphore.Attentive
  names : (run.semaphore.waiters.map Prod.fst).Nodup
  queued : ∀ node, node ∈ run.semaphore.waiters.map Prod.fst ↔ run.phase node = .queued
  /-- A waiter that still waits does so before the cancellation, or was cancelled by it. -/
  alert : ∀ who, (who, if run.aborted then .pending else .cancelled) ∉ run.semaphore.waiters
  inside : ∀ node, node ∉ graph.nodeIds → run.phase node = .waiting (graph.predecessors node reverse)
  /-- The predecessors a task no longer awaits are finished. -/
  seen : ∀ node, run.phase node = .dropped ∨
    ∃ seen, graph.predecessors node reverse = seen ++ (run.phase node).awaited ∧
      ∀ pred ∈ seen, run.phase pred = .finished
  finished : ∀ node, .finished node ∈ run.history ↔ run.phase node = .finished
  fresh : ∀ node, (run.phase node).early → .started node ∉ run.history
  begun : ∀ node, run.phase node = .running ∨ run.phase node = .finished →
    .started node ∈ run.history
  once : ∀ node, run.history.count (.started node) ≤ 1
  /-- Work began after all the work before it was complete. -/
  orderly : ∀ node later past, run.history = later ++ .started node :: past →
    ∀ pred ∈ graph.predecessors node reverse, .finished pred ∈ past

section

variable {graph : DiGraph} {parallelism : Nat} {reverse : Bool} {run : GraphRun}

/-- What a task's next phase has to do with the one before. -/
structure Follows (graph : DiGraph) (reverse : Bool) (run : GraphRun) (node : String)
    (phase : Phase) : Prop where
  unfinished : run.phase node ≠ .finished
  early : phase.early ∨ phase = .running → (run.phase node).early
  finish : phase = .finished → run.phase node = .running
  seen : phase = .dropped ∨ ∃ seen, graph.predecessors node reverse = seen ++ phase.awaited ∧
    ∀ pred ∈ seen, run.phase pred = .finished

/-- What a task does to the semaphore as it enters its next phase. -/
structure Shares (run : GraphRun) (node : String) (phase : Phase) (semaphore : Semaphore String) :
    Prop where
  permits : semaphore.permits + (if phase = .running then 1 else 0) =
    run.semaphore.permits + (if run.phase node = .running then 1 else 0)
  attentive : semaphore.Attentive
  names : (semaphore.waiters.map Prod.fst).Nodup
  queued : ∀ other, other ∈ semaphore.waiters.map Prod.fst ↔
    Function.update run.phase node phase other = .queued
  asleep : ∀ other status, status ≠ .woken → (other, status) ∈ semaphore.waiters →
    (other, status) ∈ run.semaphore.waiters ∨ status = .pending ∧ run.aborted = false

theorem mem_events {node other : String} {phase : Phase} :
    (.started other ∈ phase.events node ↔ other = node ∧ phase = .running) ∧
      (.finished other ∈ phase.events node ↔ other = node ∧ phase = .finished) := by
  cases phase <;> simp [Phase.events]

/-- Work in the history was there before the last step, or that step began it. -/
theorem enter_split {node other : String} {phase : Phase} {semaphore : Semaphore String}
    {later past : List WorkEvent}
    (hsplit : (run.enter node phase semaphore).history = later ++ .started other :: past) :
    (∃ later', run.history = later' ++ .started other :: past) ∨
      other = node ∧ phase = .running ∧ past = run.history := by
  cases phase with
  | waiting _ | queued | dropped => exact .inl ⟨later, hsplit⟩
  | running =>
    rcases List.cons_eq_append_iff.mp hsplit with ⟨-, hcons⟩ | ⟨later', -, hhistory⟩
    · obtain ⟨hstarted, hpast⟩ := List.cons.inj hcons
      exact .inr ⟨WorkEvent.started.inj hstarted, rfl, hpast⟩
    · exact .inl ⟨later', hhistory⟩
  | finished | failed =>
    rcases List.cons_eq_append_iff.mp hsplit with ⟨-, hcons⟩ | ⟨later', -, hhistory⟩
    · cases (List.cons.inj hcons).1
    · exact .inl ⟨later', hhistory⟩

/-- A task's step keeps the run sound. -/
theorem Sound.enter (hsound : run.Sound graph parallelism reverse) (hnodup : graph.nodeIds.Nodup)
    {node : String} (hnode : node ∈ graph.nodeIds) {phase : Phase} {semaphore : Semaphore String}
    (hfollows : run.Follows graph reverse node phase) (hshares : run.Shares node phase semaphore) :
    (run.enter node phase semaphore).Sound graph parallelism reverse := by
  have hphase (other : String) : (run.enter node phase semaphore).phase other =
      if other = node then phase else run.phase other := by
    simp only [GraphRun.enter, Function.update_apply]
  have hhistory : (run.enter node phase semaphore).history = phase.events node ++ run.history := rfl
  have hfinished (other : String) (hdone : run.phase other = .finished) :
      (run.enter node phase semaphore).phase other = .finished := by
    have hother : other ≠ node := by
      rintro rfl
      exact hfollows.unfinished hdone
    rw [hphase, if_neg hother, hdone]
  refine ⟨?_, hshares.attentive, hshares.names, hshares.queued, ?_, ?_, ?_, ?_, ?_, ?_, ?_, ?_⟩
  · have htotal := total_enter hnodup hnode (fun phase => if phase = .running then 1 else 0) run
      phase semaphore
    have hbefore := hsound.permits
    have hpermits := hshares.permits
    unfold running at hbefore ⊢
    have hsemaphore : (run.enter node phase semaphore).semaphore = semaphore := rfl
    rw [hsemaphore]
    omega
  · intro who hwaits
    have hkept := hshares.asleep who _ (by split <;> simp) hwaits
    have halert := hsound.alert who
    have haborted : (run.enter node phase semaphore).aborted = run.aborted := rfl
    rw [haborted] at hkept
    cases hrun : run.aborted <;> rw [hrun] at hkept halert <;> simp_all
  · intro other hout
    have hother : other ≠ node := fun heq => hout (heq ▸ hnode)
    rw [hphase, if_neg hother]
    exact hsound.inside other hout
  · intro other
    rw [hphase]
    by_cases hsame : other = node
    · subst hsame
      rw [if_pos rfl]
      exact hfollows.seen.imp id fun ⟨seen, hseen, hdone⟩ =>
        ⟨seen, hseen, fun pred hpred => hfinished pred (hdone pred hpred)⟩
    · rw [if_neg hsame]
      exact (hsound.seen other).imp id fun ⟨seen, hseen, hdone⟩ =>
        ⟨seen, hseen, fun pred hpred => hfinished pred (hdone pred hpred)⟩
  · intro other
    rw [hhistory, List.mem_append, mem_events.2, hsound.finished, hphase]
    by_cases hsame : other = node
    · subst hsame
      simp [hfollows.unfinished]
    · simp [hsame]
  · intro other hearly hstarted
    rw [hphase] at hearly
    rw [hhistory, List.mem_append, mem_events.1] at hstarted
    by_cases hsame : other = node
    · subst hsame
      rw [if_pos rfl] at hearly
      rcases hstarted with ⟨-, rfl⟩ | hstarted
      · cases hearly
      · exact hsound.fresh other (hfollows.early (.inl hearly)) hstarted
    · rw [if_neg hsame] at hearly
      exact hsound.fresh other hearly (hstarted.resolve_left fun h => hsame h.1)
  · intro other hbegun
    rw [hphase] at hbegun
    rw [hhistory, List.mem_append, mem_events.1]
    by_cases hsame : other = node
    · subst hsame
      rw [if_pos rfl] at hbegun
      exact hbegun.imp (fun hrunning => ⟨rfl, hrunning⟩) fun hdone =>
        hsound.begun other (.inl (hfollows.finish hdone))
    · rw [if_neg hsame] at hbegun
      exact .inr (hsound.begun other hbegun)
  · intro other
    rw [hhistory, List.count_append]
    have honce := hsound.once other
    by_cases hstarts : other = node ∧ phase = .running
    · obtain ⟨rfl, rfl⟩ := hstarts
      have hnever := List.count_eq_zero.mpr (hsound.fresh other (hfollows.early (.inr rfl)))
      rw [hnever]
      simp [Phase.events]
    · have hnone : (phase.events node).count (.started other) = 0 :=
        List.count_eq_zero.mpr fun hmem => hstarts (mem_events.1.mp hmem)
      omega
  · intro other later past hsplit pred hpred
    rcases enter_split hsplit with ⟨later', hbefore⟩ | ⟨rfl, rfl, rfl⟩
    · exact hsound.orderly other later' past hbefore pred hpred
    · obtain hdropped | ⟨seen, hseen, hdone⟩ := hfollows.seen
      · cases hdropped
      · have hawaited : Phase.running.awaited = [] := rfl
        rw [hseen, hawaited, List.append_nil] at hpred
        exact (hsound.finished pred).mpr (hdone pred hpred)

/-- A task that is not in the queue leaves it alone. -/
theorem Sound.shares_aside (hsound : run.Sound graph parallelism reverse) {node : String}
    {phase : Phase} {semaphore : Semaphore String} (hbefore : run.phase node ≠ .queued)
    (hafter : phase ≠ .queued)
    (hpermits : semaphore.permits + (if phase = .running then 1 else 0) =
      run.semaphore.permits + (if run.phase node = .running then 1 else 0))
    (hattentive : semaphore.Attentive)
    (hnames : semaphore.waiters.map Prod.fst = run.semaphore.waiters.map Prod.fst)
    (hasleep : ∀ other status, status ≠ .woken → (other, status) ∈ semaphore.waiters →
      (other, status) ∈ run.semaphore.waiters) : run.Shares node phase semaphore := by
  refine ⟨hpermits, hattentive, hnames ▸ hsound.names, fun other => ?_,
    fun other status hstatus hmem => .inl (hasleep other status hstatus hmem)⟩
  rw [hnames, hsound.queued, Function.update_apply]
  split
  next hsame =>
    subst hsame
    exact iff_of_false hbefore hafter
  next => rfl

/-- A task leaves the queue. -/
theorem Sound.shares_leave (hsound : run.Sound graph parallelism reverse) {node : String}
    {phase : Phase} {semaphore : Semaphore String} (hbefore : run.phase node = .queued)
    (hafter : phase ≠ .queued)
    (hpermits : semaphore.permits + (if phase = .running then 1 else 0) = run.semaphore.permits)
    (hattentive : semaphore.Attentive)
    (hnames : (run.semaphore.waiters.map Prod.fst).Perm
      (node :: semaphore.waiters.map Prod.fst))
    (hasleep : ∀ other status, status ≠ .woken → (other, status) ∈ semaphore.waiters →
      (other, status) ∈ run.semaphore.waiters) : run.Shares node phase semaphore := by
  have hnodup := hnames.nodup_iff.mp hsound.names
  obtain ⟨hgone, hrest⟩ := List.nodup_cons.mp hnodup
  refine ⟨?_, hattentive, hrest, fun other => ?_,
    fun other status hstatus hmem => .inl (hasleep other status hstatus hmem)⟩
  · rw [hpermits, hbefore, if_neg (by simp), Nat.add_zero]
  · rw [Function.update_apply]
    split
    next hsame =>
      subst hsame
      exact iff_of_false hgone hafter
    next hother => rw [← hsound.queued, hnames.mem_iff, List.mem_cons, or_iff_right hother]

/-- A task that has seen all its predecessors complete asks for its turn. -/
theorem Sound.acquire (hsound : run.Sound graph parallelism reverse) {node : String}
    (hphase : run.phase node = .waiting []) (hrunning : run.aborted = false) :
    run.Shares node (if (run.semaphore.acquire node).1 then .running else .queued)
      (run.semaphore.acquire node).2 := by
  cases hlocked : run.semaphore.locked with
  | false =>
    obtain ⟨hfirst, hpermits, hattentive, hwaiters⟩ := @Semaphore.acquire_free _ _ node hlocked
    rw [hfirst, if_pos rfl]
    refine hsound.shares_aside (by simp [hphase]) nofun ?_ hattentive (by rw [hwaiters])
      fun other status _ hmem => hwaiters ▸ hmem
    simp [hphase, hpermits]
  | true =>
    obtain ⟨hfirst, hpermits, hattentive, hwaiters⟩ :=
      @Semaphore.acquire_locked _ _ node hlocked hsound.attentive
    have hout : node ∉ run.semaphore.waiters.map Prod.fst := by
      rw [hsound.queued, hphase]
      exact nofun
    rw [hfirst, if_neg Bool.false_ne_true]
    refine ⟨by simp [hphase, hpermits], hattentive, ?_, fun other => ?_, fun other status _ hmem => ?_⟩
    · rw [hwaiters, List.map_append]
      exact List.Nodup.append hsound.names (List.nodup_singleton _)
        (List.disjoint_singleton.mpr hout)
    · rw [hwaiters, List.map_append, List.mem_append, hsound.queued, Function.update_apply]
      by_cases hsame : other = node <;> simp [hsame]
    · rw [hwaiters, List.mem_append, List.mem_singleton] at hmem
      exact hmem.imp id fun heq => ⟨(Prod.mk.inj heq).2, hrunning⟩

/-- A task that ran gives its permit back. -/
theorem Sound.release (hsound : run.Sound graph parallelism reverse) {node : String} {phase : Phase}
    (hphase : run.phase node = .running) (hover : phase ≠ .running ∧ phase ≠ .queued) :
    run.Shares node phase run.semaphore.release := by
  refine hsound.shares_aside (by simp [hphase]) hover.2 ?_ run.semaphore.release_attentive
    run.semaphore.release_names fun _ _ hstatus hmem => Semaphore.mem_release hstatus hmem
  rw [Semaphore.release_permits, if_neg hover.1, if_pos hphase]

/-- In a cancelled run, a task in the queue was given its turn or cancelled. -/
theorem Sound.waits (hsound : run.Sound graph parallelism reverse) {node : String}
    (haborted : ¬ run.aborted = false) (hphase : run.phase node = .queued) :
    (node, .woken) ∈ run.semaphore.waiters ∨ (node, .cancelled) ∈ run.semaphore.waiters := by
  obtain ⟨⟨who, status⟩, hmem, rfl⟩ := List.mem_map.mp ((hsound.queued node).mpr hphase)
  have halert := hsound.alert who
  rw [Bool.not_eq_false] at haborted
  rw [haborted, if_pos rfl] at halert
  cases status with
  | pending => exact absurd hmem halert
  | woken => exact .inl hmem
  | cancelled => exact .inr hmem

/-- **Every move of a task keeps the run sound.** -/
theorem Sound.move {node : String} {move : Move} {run' : GraphRun}
    (hsound : run.Sound graph parallelism reverse) (hnodup : graph.nodeIds.Nodup)
    (hnode : node ∈ graph.nodeIds) (hmove : run.move node move = some run') :
    run'.Sound graph parallelism reverse ∧ run'.left graph < run.left graph ∧
      run'.aborted = run.aborted := by
  have hstep {phase : Phase} {semaphore : Semaphore String}
      (hfollows : run.Follows graph reverse node phase) (hshares : run.Shares node phase semaphore)
      (hleft : phase.left < (run.phase node).left) :
      (run.enter node phase semaphore).Sound graph parallelism reverse ∧
        (run.enter node phase semaphore).left graph < run.left graph ∧
        (run.enter node phase semaphore).aborted = run.aborted := by
    have htotal := total_enter hnodup hnode Phase.left run phase semaphore
    unfold GraphRun.left
    exact ⟨hsound.enter hnodup hnode hfollows hshares, by omega, rfl⟩
  have hseen := hsound.seen node
  cases move with
  | wait =>
    simp only [GraphRun.move] at hmove
    split at hmove
    next pred left hphase =>
      split_ifs at hmove with hready
      cases hmove
      rw [hphase] at hseen
      obtain hdropped | ⟨seen, hpreds, hdone⟩ := hseen
      · cases hdropped
      · have hmore : graph.predecessors node reverse = (seen ++ [pred]) ++ left := by
          rw [List.append_assoc]
          exact hpreds
        refine hstep ⟨by simp [hphase], fun _ => by simp [hphase, Phase.early], nofun,
          .inr ⟨seen ++ [pred], hmore, fun other hother => ?_⟩⟩ ?_ (by simp [hphase, Phase.left])
        · rcases List.mem_append.mp hother with hother | hother
          · exact hdone other hother
          · rw [List.mem_singleton.mp hother]
            exact hready.2
        · exact hsound.shares_aside (by simp [hphase]) nofun (by simp [hphase]) hsound.attentive rfl
            fun _ _ _ hmem => hmem
    next => cases hmove
  | acquire =>
    simp only [GraphRun.move] at hmove
    split_ifs at hmove with hready
    obtain ⟨hrunning, hphase⟩ := hready
    have hshares := hsound.acquire hphase hrunning
    rw [hphase] at hseen
    cases hacquire : run.semaphore.acquire node with
    | mk free semaphore =>
      rw [hacquire] at hmove hshares
      cases free with
      | true =>
        cases hmove
        exact hstep ⟨by simp [hphase], fun _ => by simp [hphase, Phase.early], nofun,
          hseen.imp nofun id⟩ hshares (by simp [hphase, Phase.left])
      | false =>
        cases hmove
        exact hstep ⟨by simp [hphase], fun _ => by simp [hphase, Phase.early], nofun,
          hseen.imp nofun id⟩ hshares (by simp [hphase, Phase.left])
  | resume =>
    simp only [GraphRun.move] at hmove
    split_ifs at hmove with hready
    cases hmove
    obtain ⟨-, hphase, hwoken⟩ := hready
    rw [hphase] at hseen
    obtain ⟨hpermits, hattentive, hnames⟩ := Semaphore.resume_spec hwoken
    exact hstep ⟨by simp [hphase], fun _ => by simp [hphase, Phase.early], nofun, hseen.imp nofun id⟩
      (hsound.shares_leave hphase nofun hpermits hattentive hnames
        fun _ _ hstatus hmem => Semaphore.mem_resume hstatus hmem)
      (by simp [hphase, Phase.left])
  | finish =>
    simp only [GraphRun.move] at hmove
    split_ifs at hmove with hphase
    cases hmove
    rw [hphase] at hseen
    exact hstep ⟨by simp [hphase], by simp [Phase.early], fun _ => hphase, hseen.imp nofun id⟩
      (hsound.release hphase ⟨nofun, nofun⟩) (by simp [hphase, Phase.left])
  | fail =>
    simp only [GraphRun.move] at hmove
    split_ifs at hmove with hphase
    cases hmove
    rw [hphase] at hseen
    exact hstep ⟨by simp [hphase], by simp [Phase.early], nofun, hseen.imp nofun id⟩
      (hsound.release hphase ⟨nofun, nofun⟩) (by simp [hphase, Phase.left])
  | drop =>
    simp only [GraphRun.move] at hmove
    split_ifs at hmove with haborted
    split at hmove
    next left hphase =>
      cases hmove
      exact hstep ⟨by simp [hphase], by simp [Phase.early], nofun, .inl rfl⟩
        (hsound.shares_aside (by simp [hphase]) nofun (by simp [hphase]) hsound.attentive rfl
          fun _ _ _ hmem => hmem)
        (by simp [hphase, Phase.left])
    next hphase =>
      cases hmove
      obtain ⟨hpermits, hattentive, hnames⟩ :=
        Semaphore.withdraw_spec hsound.attentive (hsound.waits haborted hphase)
      exact hstep ⟨by simp [hphase], by simp [Phase.early], nofun, .inl rfl⟩
        (hsound.shares_leave hphase nofun hpermits hattentive hnames
          fun _ _ hstatus hmem => Semaphore.mem_withdraw hstatus hmem)
        (by simp [hphase, Phase.left])
    next hphase =>
      cases hmove
      exact hstep ⟨by simp [hphase], by simp [Phase.early], nofun, .inl rfl⟩
        (hsound.release hphase ⟨nofun, nofun⟩) (by simp [hphase, Phase.left])
    next => cases hmove

theorem Sound.abort (hsound : run.Sound graph parallelism reverse) :
    ({ run with aborted := true, semaphore := run.semaphore.cancelAll } : GraphRun).Sound graph
      parallelism reverse := by
  obtain ⟨hpermits, hattentive, hnames⟩ := run.semaphore.cancelAll_spec
  exact {
    hsound with
    permits := (congrArg (· + _) hpermits).trans hsound.permits
    attentive := hattentive
    names := hnames ▸ hsound.names
    queued := fun node => hnames ▸ hsound.queued node
    alert := run.semaphore.not_mem_cancelAll }

theorem start_sound (hstart : start graph parallelism reverse = some run) :
    run.Sound graph parallelism reverse ∧ 0 < parallelism ∧ run.aborted = false ∧
      ∀ node, (run.phase node).early := by
  unfold start at hstart
  split_ifs at hstart with hroom
  cases hstart
  refine ⟨?_, by omega, rfl, fun _ => rfl⟩
  constructor
  case permits => simp [Semaphore.permits, running, total]
  case seen => exact fun _ => .inr ⟨[], rfl, List.forall_mem_nil _⟩
  case attentive => rintro - ⟨⟩
  case names => exact List.nodup_nil
  case inside => exact fun _ _ => rfl
  case orderly => exact fun _ later _ hsplit => absurd hsplit (by simp)
  all_goals simp

/-- **Every step keeps the run sound**, and takes the tasks closer to their end unless it is the
cancellation. -/
theorem Sound.step {act : GraphAct} {run' : GraphRun}
    (hsound : run.Sound graph parallelism reverse) (hnodup : graph.nodeIds.Nodup)
    (hstep : GraphRun.step graph act run = some run') : run'.Sound graph parallelism reverse := by
  cases act with
  | task node move =>
    simp only [GraphRun.step] at hstep
    split_ifs at hstep with hnode
    exact (hsound.move hnodup hnode hstep).1
  | abort =>
    cases hstep
    exact hsound.abort

theorem Sound.steps {acts : List GraphAct} {run' : GraphRun}
    (hsound : run.Sound graph parallelism reverse) (hnodup : graph.nodeIds.Nodup)
    (hsteps : GraphRun.steps graph acts run = some run') :
    run'.Sound graph parallelism reverse := by
  induction acts generalizing run with
  | nil =>
    cases hsteps
    exact hsound
  | cons act acts ih =>
    obtain ⟨next, hstep, hrest⟩ := Option.bind_eq_some_iff.mp hsteps
    exact ih (hsound.step hnodup hstep) hrest

/-! ## When nothing fails -/

/-- Nothing failed and nothing was cancelled so far. -/
def Smooth (run : GraphRun) : Prop :=
  run.aborted = false ∧ ∀ node, run.phase node ≠ .failed ∧ run.phase node ≠ .dropped

theorem Smooth.enter (hsmooth : run.Smooth) {node : String} {phase : Phase}
    {semaphore : Semaphore String} (hphase : phase ≠ .failed ∧ phase ≠ .dropped) :
    (run.enter node phase semaphore).Smooth := by
  refine ⟨hsmooth.1, fun other => ?_⟩
  simp only [GraphRun.enter, Function.update_apply]
  split
  · exact hphase
  · exact hsmooth.2 other

theorem Smooth.move {node : String} {move : Move} {run' : GraphRun} (hsmooth : run.Smooth)
    (hquiet : (GraphAct.task node move).quiet) (hmove : run.move node move = some run') :
    run'.Smooth := by
  cases move with
  | fail => cases hquiet
  | drop =>
    simp only [GraphRun.move] at hmove
    rw [if_pos hsmooth.1] at hmove
    cases hmove
  | wait =>
    simp only [GraphRun.move] at hmove
    split at hmove
    · split_ifs at hmove
      cases hmove
      exact hsmooth.enter ⟨nofun, nofun⟩
    · cases hmove
  | acquire =>
    simp only [GraphRun.move] at hmove
    split_ifs at hmove
    split at hmove
    · cases hmove
      exact hsmooth.enter ⟨nofun, nofun⟩
    · cases hmove
      exact hsmooth.enter ⟨nofun, nofun⟩
  | resume | finish =>
    simp only [GraphRun.move] at hmove
    split_ifs at hmove
    cases hmove
    exact hsmooth.enter ⟨nofun, nofun⟩

theorem Smooth.step {act : GraphAct} {run' : GraphRun} (hsmooth : run.Smooth)
    (hsound : run.Sound graph parallelism reverse) (hnodup : graph.nodeIds.Nodup)
    (hquiet : act.quiet) (hstep : GraphRun.step graph act run = some run') :
    run'.Smooth ∧ run'.left graph < run.left graph := by
  cases act with
  | abort => cases hquiet
  | task node move =>
    simp only [GraphRun.step] at hstep
    split_ifs at hstep with hnode
    exact ⟨hsmooth.move hquiet hstep, (hsound.move hnodup hnode hstep).2.1⟩

/-- Without a failure every step takes the tasks closer to their end. -/
theorem Smooth.steps {acts : List GraphAct} {run' : GraphRun} (hsmooth : run.Smooth)
    (hsound : run.Sound graph parallelism reverse) (hnodup : graph.nodeIds.Nodup)
    (hquiet : ∀ act ∈ acts, act.quiet) (hsteps : GraphRun.steps graph acts run = some run') :
    run'.Smooth ∧ acts.length + run'.left graph ≤ run.left graph := by
  induction acts generalizing run with
  | nil =>
    cases hsteps
    exact ⟨hsmooth, by simp⟩
  | cons act acts ih =>
    obtain ⟨next, hstep, hrest⟩ := Option.bind_eq_some_iff.mp hsteps
    obtain ⟨hnext, hless⟩ := hsmooth.step hsound hnodup (hquiet act (List.mem_cons_self ..)) hstep
    obtain ⟨hlast, hleft⟩ := ih hnext (hsound.step hnodup hstep)
      (fun act hmem => hquiet act (List.mem_cons_of_mem _ hmem)) hrest
    rw [List.length_cons]
    exact ⟨hlast, by omega⟩

/-- While no work runs and no task is about to, there is room and nobody waits for it. -/
theorem Sound.idle (hsound : run.Sound graph parallelism reverse) (hroom : 0 < parallelism)
    (hrunning : run.aborted = false) (hnone : ∀ node ∈ graph.nodeIds, run.phase node ≠ .running)
    (hasleep : ∀ node, (node, .woken) ∉ run.semaphore.waiters) (node : String) :
    run.phase node ≠ .queued := by
  have hzero : run.running graph = 0 := by
    refine List.sum_eq_zero fun count hmem => ?_
    obtain ⟨other, hother, rfl⟩ := List.mem_map.mp hmem
    exact if_neg (hnone other hother)
  have hwoken : (run.semaphore.waiters.countP fun waiter => waiter.2 = .woken) = 0 := by
    refine List.countP_eq_zero.mpr fun ⟨who, status⟩ hmem => ?_
    rw [decide_eq_true_eq]
    rintro rfl
    exact hasleep who hmem
  have hvalue : run.semaphore.value = parallelism := by
    have hpermits := hsound.permits
    rw [hzero, Semaphore.permits, hwoken] at hpermits
    exact hpermits
  intro hphase
  obtain ⟨⟨who, status⟩, hmem, rfl⟩ := List.mem_map.mp ((hsound.queued node).mpr hphase)
  have halert := hsound.alert who
  rw [hrunning] at halert
  cases status with
  | pending =>
    rcases hsound.attentive who hmem with hfull | ⟨next, hnext⟩
    · omega
    · exact hasleep next hnext
  | woken => exact hasleep who hmem
  | cancelled => exact halert hmem

/-- **A run that cannot go on is complete.** A task that waits does so for one that comes before it
in the order, and the semaphore is free for those that have waited. -/
theorem Sound.complete (hsound : run.Sound graph parallelism reverse) (hroom : 0 < parallelism)
    (hsmooth : run.Smooth) (hstuck : ∀ act, act.quiet → GraphRun.step graph act run = none)
    {order : List String} (hmem : ∀ node ∈ order, node ∈ graph.nodeIds)
    (horder : ∀ before node after, order = before ++ node :: after →
      ∀ pred ∈ graph.predecessors node reverse, pred ∈ before) :
    ∀ node ∈ order, run.phase node = .finished := by
  have hblocked (node : String) (hnode : node ∈ graph.nodeIds) (move : Move)
      (hquiet : (GraphAct.task node move).quiet) : run.move node move = none := by
    have hstep := hstuck (.task node move) hquiet
    rwa [GraphRun.step, if_pos hnode] at hstep
  have hnone : ∀ node ∈ graph.nodeIds, run.phase node ≠ .running := by
    intro node hnode hphase
    have hmove := hblocked node hnode .finish rfl
    rw [GraphRun.move, if_pos hphase] at hmove
    cases hmove
  have hasleep : ∀ node, (node, .woken) ∉ run.semaphore.waiters := by
    intro node hwoken
    have hphase := (hsound.queued node).mp (List.mem_map_of_mem hwoken)
    by_cases hnode : node ∈ graph.nodeIds
    · have hmove := hblocked node hnode .resume rfl
      rw [GraphRun.move, if_pos ⟨hsmooth.1, hphase, hwoken⟩] at hmove
      cases hmove
    · rw [hsound.inside node hnode] at hphase
      cases hphase
  have hidle := hsound.idle hroom hsmooth.1 hnone hasleep
  have hprefix (before after : List String) (hsplit : order = before ++ after) :
      ∀ node ∈ before, run.phase node = .finished := by
    induction before using List.reverseRecOn generalizing after with
    | nil => exact nofun
    | append_singleton before last ih =>
      rw [List.append_assoc, List.singleton_append] at hsplit
      have hbefore := ih (last :: after) hsplit
      have hlast : last ∈ graph.nodeIds := hmem last (by simp [hsplit])
      intro node hnode
      rcases List.mem_append.mp hnode with hnode | hnode
      · exact hbefore node hnode
      rw [List.mem_singleton.mp hnode]
      cases hphase : run.phase last with
      | finished => rfl
      | failed => exact absurd hphase (hsmooth.2 last).1
      | dropped => exact absurd hphase (hsmooth.2 last).2
      | running => exact absurd hphase (hnone last hlast)
      | queued => exact absurd hphase (hidle last)
      | waiting left =>
        exfalso
        cases left with
        | nil =>
          have hmove := hblocked last hlast .acquire rfl
          rw [GraphRun.move, if_pos ⟨hsmooth.1, hphase⟩] at hmove
          split at hmove <;> cases hmove
        | cons pred left =>
          have hpred : pred ∈ graph.predecessors last reverse := by
            obtain hdropped | ⟨seen, hpreds, -⟩ := hsound.seen last
            · rw [hphase] at hdropped
              cases hdropped
            · rw [hpreds, hphase]
              exact List.mem_append_right _ (List.mem_cons_self ..)
          have hdone := hbefore pred (horder before last after hsplit pred hpred)
          have hmove := hblocked last hlast .wait rfl
          simp only [GraphRun.move, hphase] at hmove
          rw [if_pos ⟨hsmooth.1, hdone⟩] at hmove
          cases hmove
  exact hprefix order [] (List.append_nil order).symm

end

end GraphRun

section

variable {ir : IRGraph} {graph : DiGraph} {parallelism : Nat} {reverse : Bool}
  {start run : GraphRun} {acts : List GraphAct}

/-- **The scheduler respects dependencies.** However the tasks of a graph that was built take turns,
and wherever work fails or the run is cancelled, a node's work starts once at most and only after the
work of everything it waits for is complete, and no more work runs at a time than the parallelism
allows. While nothing fails, a run takes so many steps at most, and when it can go no further every
node's work was started once and is complete. -/
theorem runGraph_respects (hbuilt : buildGraph ir = .ok graph)
    (hstart : GraphRun.start graph parallelism reverse = some start)
    (hsteps : GraphRun.steps graph acts start = some run) :
    (∀ node later past, run.history = later ++ .started node :: past →
        ∀ pred, ir.Waits reverse pred node → .finished pred ∈ past) ∧
      (∀ node, run.history.count (.started node) ≤ 1) ∧
      run.running graph ≤ parallelism ∧
      ((∀ act ∈ acts, act.quiet) → acts.length ≤ start.left graph ∧
        ((∀ act, act.quiet → GraphRun.step graph act run = none) →
          ∀ node ∈ ir.byId,
            run.history.count (.started node) = 1 ∧ .finished node ∈ run.history)) := by
  have hnodup := (buildGraph_converse hbuilt).nodup
  have hordered := topologicalOrder_ordered hbuilt reverse
  obtain ⟨rfl, -, -⟩ := buildGraph_eq_ok.mp hbuilt
  obtain ⟨hsound, hroom, hrunning, hearly⟩ := GraphRun.start_sound hstart
  have hrun := hsound.steps hnodup hsteps
  refine ⟨fun node later past hsplit pred hwaits => ?_, hrun.once, ?_, fun hquiet => ?_⟩
  · exact hrun.orderly node later past hsplit pred (IRGraph.mem_predecessors.mpr hwaits)
  · have hpermits := hrun.permits
    omega
  · have hsmooth : start.Smooth := ⟨hrunning, fun node =>
      ⟨fun hphase => by simpa [hphase, Phase.early] using hearly node,
        fun hphase => by simpa [hphase, Phase.early] using hearly node⟩⟩
    obtain ⟨hsmooth, hleft⟩ := hsmooth.steps hsound hnodup hquiet hsteps
    refine ⟨by omega, fun hstuck node hnode => ?_⟩
    have hkeys : node ∈ topologicalOrder ir.digraph reverse :=
      hordered.perm.mem_iff.mpr (Std.ExtTreeMap.mem_keys.mpr hnode)
    have hdone := hrun.complete hroom hsmooth hstuck
      (fun other hother => hordered.perm.mem_iff.mp hother)
      (fun before other after hsplit pred hpred =>
        hordered.waits before other after hsplit pred (IRGraph.mem_predecessors.mp hpred))
      node hkeys
    have hbegun := List.count_pos_iff.mpr (hrun.begun node (.inr hdone))
    have honce := hrun.once node
    exact ⟨by omega, (hrun.finished node).mpr hdone⟩

end

/-- The two nodes over the third run side by side, once it is complete. -/
theorem runGraph_respects_fork : ∃ graph start run, buildGraph fork = .ok graph ∧
    GraphRun.start graph 2 false = some start ∧
    GraphRun.steps graph [.task "net:vpc" .acquire, .task "net:vpc" .finish, .task "net:b" .wait,
      .task "net:a" .wait, .task "net:b" .acquire, .task "net:a" .acquire, .task "net:a" .finish]
      start = some run ∧
    run.history = [.finished "net:a", .started "net:a", .started "net:b", .finished "net:vpc",
      .started "net:vpc"] ∧
    (∀ node later past, run.history = later ++ .started node :: past →
      ∀ pred, fork.Waits false pred node → .finished pred ∈ past) ∧
    (∀ node, run.history.count (.started node) ≤ 1) ∧ run.running graph ≤ 2 ∧
    7 ≤ start.left graph := by
  have hisOk : (buildGraph fork).isOk = true := by decide +kernel
  obtain ⟨graph, hbuilt⟩ : ∃ graph, buildGraph fork = .ok graph := by
    cases hfork : buildGraph fork with
    | error fault =>
      rw [hfork] at hisOk
      cases hisOk
    | ok graph => exact ⟨graph, rfl⟩
  have hgraph := (buildGraph_eq_ok.mp hbuilt).1
  have hran : ((GraphRun.start fork.digraph 2 false).bind (GraphRun.steps fork.digraph
      [.task "net:vpc" .acquire, .task "net:vpc" .finish, .task "net:b" .wait,
        .task "net:a" .wait, .task "net:b" .acquire, .task "net:a" .acquire,
        .task "net:a" .finish])).map GraphRun.history =
      some [.finished "net:a", .started "net:a", .started "net:b", .finished "net:vpc",
        .started "net:vpc"] := by
    decide +kernel
  rw [← hgraph] at hran
  obtain ⟨run, hrun, hhistory⟩ := Option.map_eq_some_iff.mp hran
  obtain ⟨start, hstart, hsteps⟩ := Option.bind_eq_some_iff.mp hrun
  obtain ⟨horderly, honce, hrunning, hquiet⟩ := runGraph_respects hbuilt hstart hsteps
  exact ⟨graph, start, run, hbuilt, hstart, hsteps, hhistory, horderly, honce, hrunning,
    (hquiet (by decide)).1⟩

end Atlantide
