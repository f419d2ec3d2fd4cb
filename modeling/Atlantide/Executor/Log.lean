import Atlantide.Executor.Run

/-! # What the log of a run says

The log determines the rows, the resources and the memory, each of its entries is an answer the
service gives after the older ones, and the entries of one node of a stage are what that node's
work asks for, in order. -/

namespace Atlantide.Executor

open Interleaving

/-- The world once the logged requests are answered. -/
def replay (types : Types) (start : World) : List Event → World
  | [] => start
  | event :: older =>
    if event.landed then (replay types start older).effect types event.request
    else replay types start older

/-- The rows, resources and memory of a world under another lease and log. -/
def World.relogged (world : World) (lost : Bool) (log : List Event) : World :=
  { world with leaseLost := lost, log := log }

/-- The service may answer the event's request as it was answered. -/
def Event.Fits (types : Types) (world : World) (event : Event) : Prop :=
  ∃ choice lost log after,
    World.answer types choice (world.relogged lost log) event.request =
      (event.reply, event.landed, after)

/-- What the request makes of the row of `nodeId`, if it writes or drops that row. -/
def Request.written (nodeId : String) : Request → Option (Option StateNode)
  | .put row => if row.id = nodeId then some (some row) else none
  | .drop other | .erase other => if other = nodeId then some none else none
  | _ => none

/-- What the event made of the row. -/
def Event.written (event : Event) (nodeId : String) : Option (Option StateNode) :=
  if event.landed then event.request.written nodeId else none

/-- The row of `nodeId` after the logged requests. -/
def rowAfter (nodeId : String) (start : Option StateNode) : List Event → Option StateNode
  | [] => start
  | event :: older => (event.written nodeId).getD (rowAfter nodeId start older)

/-- The undo the event recorded. -/
def Event.recorded (event : Event) : Option (String × Undo) :=
  match event.request with
  | .memory (.record nodeId undo) => some (nodeId, undo)
  | _ => none

/-- The undos recorded by the events, the latest first. -/
def undosOf (log : List Event) : List (String × Undo) := log.filterMap Event.recorded

/-- The entries of one node of a stage. -/
def entries (stage : Stage) (nodeId : String) (log : List Event) : List Event :=
  log.filter fun event => event.stage = stage && event.node = nodeId

/-- Having asked what `events` record, the latest first, `program` goes on as the last one. -/
inductive Residual (stage : Stage) (nodeId : String) {α : Type} (program : Step α) :
    List Event → Step α → Prop
  | start : Residual stage nodeId program [] program
  | serve {events : List Event} {request : Request} {next : request.Reply → Step α}
      (hresidual : Residual stage nodeId program events (.ask request next))
      (reply : request.Reply) (landed : Bool) :
      Residual stage nodeId program (⟨stage, nodeId, request, reply, landed⟩ :: events) (next reply)

/-- A task that asks for nothing more. -/
def Ended {α : Type} : Step α → Prop
  | .ask _ _ => False
  | _ => True

/-- The order of the stages. -/
def Stage.rank : Stage → Nat
  | predelete => 0
  | forward => 1
  | destroy => 2
  | rolling => 3
  | ended => 4

theorem Stage.rank_lt_of_following {earlier stage : Stage} (hne : earlier ≠ stage)
    (hless : earlier.rank < stage.following.rank)
    (hpass : stage.following.rank ≤ Stage.destroy.rank) : earlier.rank < stage.rank := by
  revert hne hless hpass
  cases earlier <;> cases stage <;> decide

namespace World

variable {types : Types} {choice : Choice} {world : World} {request : Request}

theorem effect_relogged (world : World) (request : Request) (lost : Bool) (log : List Event) :
    (world.relogged lost log).effect types request =
      (world.effect types request).relogged lost log := by
  cases request with
  | create res => simp only [effect]; split <;> rfl
  | update prior res => simp only [effect]; split <;> rfl
  | delete res => simp only [effect]; split <;> rfl
  | _ => rfl

theorem effect_log : (world.effect types request).log = world.log := by
  have heffect : world.effect types request = _ :=
    effect_relogged world request world.leaseLost world.log
  rw [heffect]
  rfl

theorem effect_leaseLost : (world.effect types request).leaseLost = world.leaseLost := by
  have heffect : world.effect types request = _ :=
    effect_relogged world request world.leaseLost world.log
  rw [heffect]
  rfl

theorem answer_attempt {α : Type} {fate : Fate} {value : α} {after : World} :
    (attempt fate world value after).2.2 =
      if (attempt fate world value after).2.1 then after else world := by
  cases fate <;> rfl

/-- A request leaves the world as it was, or with its effect. -/
theorem answer_world : (answer types choice world request).2.2 =
    if (answer types choice world request).2.1 then world.effect types request else world := by
  have hrefused : ∀ {α : Type} {failure : Failure} {after : World},
      (refuse (α := α) failure world).2.2 =
        if (refuse (α := α) failure world).2.1 then after else world := rfl
  cases request with
  | put row =>
    rw [answer]
    cases world.leaseLost
    · exact answer_attempt
    · exact hrefused
  | drop nodeId =>
    rw [answer]
    cases world.leaseLost
    · exact answer_attempt
    · exact hrefused
  | load => exact answer_attempt
  | update prior res =>
    rw [answer]
    cases hdata : isData types res.type
    · cases hid : updated types prior res with
      | some id =>
        by_cases hlive : id ∈ world.cloud.resources
        · simpa [hlive] using answer_attempt
        · simpa [hlive] using hrefused
      | none => exact hrefused
    · have hsame : world.effect types (.update prior res) = world := by simp [effect, hdata]
      rw [hsame]
      exact answer_attempt
  | look => rfl
  | takeDelete nodeId => rfl
  | memory update => rfl
  | _ => exact answer_attempt

theorem serve_world {stage : Stage} {nodeId : String} :
    (serve types stage nodeId choice world request).2 =
      (if (answer types choice world request).2.1 then world.effect types request
        else world).relogged world.leaseLost (⟨stage, nodeId, request,
          (answer types choice world request).1, (answer types choice world request).2.1⟩ ::
            world.log) := by
  have hlog : (answer types choice world request).2.2.log = world.log := by
    rw [answer_world]
    split
    · exact effect_log
    · rfl
  have hlost : (answer types choice world request).2.2.leaseLost = world.leaseLost := by
    rw [answer_world]
    split
    · exact effect_leaseLost
    · rfl
  rw [← answer_world, ← hlost, ← hlog]
  rfl

end World

theorem Request.written_some_iff {request : Request} {nodeId : String} {row : StateNode} :
    request.written nodeId = some (some row) ↔ request = .put row ∧ row.id = nodeId := by
  cases request with
  | put other =>
    simp only [written, Request.put.injEq]
    constructor
    · intro hwritten
      split_ifs at hwritten with hid
      cases hwritten
      exact ⟨rfl, hid⟩
    · rintro ⟨rfl, hid⟩
      rw [if_pos hid]
  | drop other => simp [written]
  | erase other => simp [written]
  | _ => simp [written]

theorem replay_rows {types : Types} {start : World} {log : List Event} {nodeId : String} :
    (replay types start log).rows[nodeId]? = rowAfter nodeId start.rows[nodeId]? log := by
  induction log with
  | nil => rfl
  | cons event older ih =>
    rw [replay, rowAfter, ← ih, Event.written]
    generalize replay types start older = world
    split
    · cases event.request with
      | put row =>
        rw [Request.written, World.effect, World.putRow]
        dsimp only
        rw [Std.ExtTreeMap.getElem?_insert]
        by_cases hid : row.id = nodeId <;> simp [hid]
      | drop other =>
        rw [Request.written, World.effect, World.dropRow]
        dsimp only
        rw [Std.ExtTreeMap.getElem?_erase]
        by_cases hid : other = nodeId <;> simp [hid]
      | erase other =>
        rw [Request.written, World.effect, World.dropRow]
        dsimp only
        rw [Std.ExtTreeMap.getElem?_erase]
        by_cases hid : other = nodeId <;> simp [hid]
      | create res => simp only [World.effect]; split <;> rfl
      | update prior res => simp only [World.effect]; split <;> rfl
      | delete res => simp only [World.effect]; split <;> rfl
      | load => rfl
      | look => rfl
      | takeDelete other => rfl
      | memory update => rfl
    · rfl

theorem replay_keyed {types : Types} {start : World} (hstart : start.rows.Keyed)
    (log : List Event) : (replay types start log).rows.Keyed := by
  intro nodeId row hrow
  rw [replay_rows] at hrow
  induction log with
  | nil => exact hstart nodeId row hrow
  | cons event older ih =>
    rw [rowAfter, Event.written] at hrow
    cases hwritten : (if event.landed then event.request.written nodeId else none) with
    | none =>
      rw [hwritten] at hrow
      exact ih hrow
    | some written =>
      rw [hwritten] at hrow
      change written = some row at hrow
      subst hrow
      split at hwritten
      · exact (Request.written_some_iff.mp hwritten).2
      · cases hwritten

theorem Residual.front {stage : Stage} {nodeId : String} {α : Type} {request : Request}
    {next : request.Reply → Step α} {events : List Event} {last : Step α}
    (hresidual : Residual stage nodeId (.ask request next) events last) :
    (events = [] ∧ last = .ask request next) ∨ ∃ reply landed later,
      events = later ++ [⟨stage, nodeId, request, reply, landed⟩] ∧
        Residual stage nodeId (next reply) later last := by
  induction hresidual with
  | start => exact .inl ⟨rfl, rfl⟩
  | serve hresidual reply landed ih =>
    rcases ih with ⟨rfl, hlast⟩ | ⟨reply', landed', later, rfl, hrest⟩
    · cases hlast
      exact .inr ⟨reply, landed, [], rfl, .start⟩
    · exact .inr ⟨reply', landed', _ :: later, rfl, .serve hrest reply landed⟩

/-- A program that is done asks for nothing. -/
theorem Residual.of_ret {stage : Stage} {nodeId : String} {α : Type} {value : α}
    {events : List Event} {last : Step α}
    (hresidual : Residual stage nodeId (.ret value) events last) : events = [] ∧ last = .ret value := by
  induction hresidual with
  | start => exact ⟨rfl, rfl⟩
  | serve _ _ _ ih => cases ih.2

@[simp] theorem entries_nil {stage : Stage} {nodeId : String} : entries stage nodeId [] = [] := rfl

theorem entries_append {stage : Stage} {nodeId : String} {newer older : List Event} :
    entries stage nodeId (newer ++ older) =
      entries stage nodeId newer ++ entries stage nodeId older :=
  List.filter_append ..

theorem entries_cons_self {stage : Stage} {nodeId : String} {event : Event} {log : List Event}
    (hself : event.stage = stage ∧ event.node = nodeId) :
    entries stage nodeId (event :: log) = event :: entries stage nodeId log := by
  rw [entries, List.filter_cons_of_pos (by simpa using hself)]
  rfl

theorem entries_cons_of_ne {stage : Stage} {nodeId : String} {event : Event} {log : List Event}
    (hother : ¬ (event.stage = stage ∧ event.node = nodeId)) :
    entries stage nodeId (event :: log) = entries stage nodeId log := by
  rw [entries, List.filter_cons_of_neg (by simpa using hother)]
  rfl

namespace RunContext

variable (run : RunContext)

/-- The node's work in the stage has ended well by the log. -/
def Complete (stage : Stage) (nodeId : String) (log : List Event) : Prop :=
  Residual stage nodeId ((run.schedule stage).work nodeId) (entries stage nodeId log) (.ret ())

/-- The node's work in the stage has not begun, or has ended, by the log. -/
def Over (stage : Stage) (nodeId : String) (log : List Event) : Prop :=
  entries stage nodeId log = [] ∨ ∃ last, Ended last ∧
    Residual stage nodeId ((run.schedule stage).work nodeId) (entries stage nodeId log) last

/-- What the log says of a state of the run. -/
structure Logged (cloud : Cloud) (state : RunState) : Prop where
  replayed : state.world = (replay run.env.types (run.startWorld cloud) state.world.log).relogged
    state.world.leaseLost state.world.log
  fits : ∀ newer event older, state.world.log = newer ++ event :: older →
    event.Fits run.env.types (replay run.env.types (run.startWorld cloud) older)
  tasks : ∀ nodeId, match state.tasks.tasks nodeId with
    | .waiting => entries state.stage nodeId state.world.log = []
    | .running program => Residual state.stage nodeId ((run.schedule state.stage).work nodeId)
        (entries state.stage nodeId state.world.log) program
  finished : ∀ stage nodeId, stage ≠ state.stage → run.Over stage nodeId state.world.log
  /-- What a running node waited for has ended well. -/
  waits : ∀ nodeId program, state.tasks.tasks nodeId = .running program →
    ∀ earlier ∈ (run.schedule state.stage).before nodeId, (state.tasks.tasks earlier).done
  ordered : ∀ newer event older, state.world.log = newer ++ event :: older →
    ∀ earlier ∈ (run.schedule event.stage).before event.node,
      run.Complete event.stage earlier older ∧ entries event.stage earlier newer = []
  ranked : ∀ event ∈ state.world.log, event.stage.rank ≤ state.stage.rank
  sorted : state.world.log.Pairwise fun newer older => older.stage.rank ≤ newer.stage.rank
  /-- The stages before a pass have been completed. -/
  passed : ∀ stage, stage.rank < state.stage.rank → state.stage.rank ≤ Stage.destroy.rank →
    ∀ nodeId ∈ run.nodesOf stage, run.Complete stage nodeId state.world.log
  staged : ∀ newer event older, state.world.log = newer ++ event :: older →
    event.stage.rank ≤ Stage.destroy.rank → ∀ stage, stage.rank < event.stage.rank →
      ∀ nodeId ∈ run.nodesOf stage, run.Complete stage nodeId older
  /-- Only a run that rolls back comes to the saga. -/
  saga : state.stage = .rolling → run.rollback
  rolled : ∀ event ∈ state.world.log, event.stage = .rolling → run.rollback

variable {run : RunContext} {cloud : Cloud}

theorem logged_start : run.Logged cloud (run.start cloud) where
  replayed := rfl
  fits newer event older hlog := by simp [start, Schedule.initial, startWorld] at hlog
  tasks nodeId := rfl
  finished stage nodeId _ := .inl rfl
  waits nodeId program htask := nomatch htask
  ordered newer event older hlog := by simp [start, Schedule.initial, startWorld] at hlog
  ranked event hmem := by simp [start, Schedule.initial, startWorld] at hmem
  sorted := .nil
  passed stage hrank := by simp [start, Stage.rank] at hrank
  staged newer event older hlog := by simp [start, Schedule.initial, startWorld] at hlog
  saga hstage := nomatch hstage
  rolled event hmem := by simp [start, Schedule.initial, startWorld] at hmem

/-- A node at work is one of its stage's. -/
theorem Logged.mem_of_busy {state : RunState} (hlogged : run.Logged cloud state) {nodeId : String}
    (hbusy : (state.tasks.tasks nodeId).busy) : nodeId ∈ run.nodesOf state.stage := by
  have htask := hlogged.tasks nodeId
  by_contra hnode
  have hwork : (run.schedule state.stage).work nodeId = .ret () := if_neg hnode
  rw [hwork] at htask
  cases hcase : state.tasks.tasks nodeId with
  | waiting =>
    rw [hcase] at hbusy
    cases hbusy
  | running program =>
    rw [hcase] at hbusy htask
    dsimp only at htask
    rw [htask.of_ret.2] at hbusy
    cases hbusy

/-- What a stage is left with when none of its nodes is at work. -/
theorem Logged.over_of_idle {state : RunState} (hlogged : run.Logged cloud state)
    (hidle : ∀ nodeId ∈ run.nodesOf state.stage, (state.tasks.tasks nodeId).busy = false)
    (stage : Stage) (nodeId : String) : run.Over stage nodeId state.world.log := by
  by_cases hstage : stage = state.stage
  · subst hstage
    have htask := hlogged.tasks nodeId
    cases hcase : state.tasks.tasks nodeId with
    | waiting =>
      rw [hcase] at htask
      exact .inl htask
    | running program =>
      rw [hcase] at htask
      refine .inr ⟨program, ?_, htask⟩
      cases program with
      | ask request next =>
        have hbusy : (state.tasks.tasks nodeId).busy = true := by
          rw [hcase]
          rfl
        exact nomatch (hidle nodeId (hlogged.mem_of_busy hbusy)).symm.trans hbusy
      | ret value => trivial
      | raise error => trivial
  · exact hlogged.finished stage nodeId hstage

/-- A node whose work is in the log has been started. -/
theorem Logged.running_of_entry {state : RunState} (hlogged : run.Logged cloud state)
    {event : Event} (hmem : event ∈ state.world.log) (hstage : event.stage = state.stage) :
    ∃ program, state.tasks.tasks event.node = .running program := by
  have htask := hlogged.tasks event.node
  cases hcase : state.tasks.tasks event.node with
  | running program => exact ⟨program, rfl⟩
  | waiting =>
    rw [hcase] at htask
    have hentry : event ∈ entries state.stage event.node state.world.log :=
      List.mem_filter.mpr ⟨hmem, by simp [hstage]⟩
    dsimp only at htask
    rw [htask] at hentry
    cases hentry

theorem Logged.start {state : RunState} (hlogged : run.Logged cloud state) {nodeId : String}
    (hwaiting : state.tasks.tasks nodeId = .waiting)
    (hbefore : ∀ earlier ∈ (run.schedule state.stage).before nodeId,
      (state.tasks.tasks earlier).done) :
    run.Logged cloud { state with
      tasks := { state.tasks with
        tasks := Function.update state.tasks.tasks nodeId
          (.running ((run.schedule state.stage).work nodeId)) } } := by
  have hdone : ∀ earlier, (state.tasks.tasks earlier).done →
      Schedule.Task.done (Function.update state.tasks.tasks nodeId
        (.running ((run.schedule state.stage).work nodeId)) earlier) := by
    intro earlier hearlier
    have hne : earlier ≠ nodeId := by
      rintro rfl
      rw [hwaiting] at hearlier
      cases hearlier
    rwa [Function.update_of_ne hne]
  refine ⟨hlogged.replayed, hlogged.fits, fun other => ?_, hlogged.finished, ?_, hlogged.ordered,
    hlogged.ranked, hlogged.sorted, hlogged.passed, hlogged.staged, hlogged.saga,
    hlogged.rolled⟩
  · have htask := hlogged.tasks other
    by_cases hsame : other = nodeId
    · subst hsame
      rw [hwaiting] at htask
      dsimp only at htask ⊢
      rw [Function.update_self, htask]
      exact .start
    · dsimp only
      rw [Function.update_of_ne hsame]
      exact htask
  · intro other program hother earlier hearlier
    dsimp only at hother hearlier ⊢
    apply hdone
    by_cases hsame : other = nodeId
    · exact hbefore earlier (hsame ▸ hearlier)
    · rw [Function.update_of_ne hsame] at hother
      exact hlogged.waits other program hother earlier hearlier

theorem Logged.serve {state : RunState} (hlogged : run.Logged cloud state) {nodeId : String}
    {choice : Choice} {request : Request} {next : request.Reply → Step Unit}
    (htask : state.tasks.tasks nodeId = .running (.ask request next)) :
    let served := World.serve run.env.types state.stage nodeId choice state.world request
    run.Logged cloud { state with
      tasks := ⟨served.2, Function.update state.tasks.tasks nodeId (.running (next served.1))⟩ } := by
  intro served
  obtain ⟨event, hevent⟩ : ∃ event : Event, event = ⟨state.stage, nodeId, request, served.1,
    (World.answer run.env.types choice state.world request).2.1⟩ := ⟨_, rfl⟩
  have hworld : served.2 =
      (if event.landed then state.world.effect run.env.types request else state.world).relogged
        state.world.leaseLost (event :: state.world.log) := by
    rw [hevent]
    exact World.serve_world
  have hlog : served.2.log = event :: state.world.log := by
    rw [hworld]
    rfl
  have hndone : (state.tasks.tasks nodeId).done = false := by
    rw [htask]
    rfl
  have hdone : ∀ earlier, (state.tasks.tasks earlier).done →
      Schedule.Task.done (Function.update state.tasks.tasks nodeId (.running (next served.1))
        earlier) := by
    intro earlier hearlier
    have hne : earlier ≠ nodeId := by
      rintro rfl
      exact nomatch hndone.symm.trans hearlier
    rwa [Function.update_of_ne hne]
  have hstage : event.stage = state.stage := by rw [hevent]
  have hnode : event.node = nodeId := by rw [hevent]
  have hother : ∀ stage, stage ≠ state.stage → ∀ other,
      entries stage other served.2.log = entries stage other state.world.log := by
    intro stage hne other
    rw [hlog]
    exact entries_cons_of_ne fun h => hne (h.1 ▸ hstage)
  refine ⟨?_, ?_, fun other => ?_, ?_, ?_, ?_, ?_, ?_, ?_, ?_, hlogged.saga, ?_⟩
  · change served.2 = (replay run.env.types (run.startWorld cloud) served.2.log).relogged
      served.2.leaseLost served.2.log
    have hlost : served.2.leaseLost = state.world.leaseLost := by
      rw [hworld]
      rfl
    have hrequest : event.request = request := by rw [hevent]
    rw [hlog, hlost, hworld, replay]
    split
    · have heffect := congrArg (World.effect run.env.types · request) hlogged.replayed
      rw [World.effect_relogged] at heffect
      rw [heffect, hevent]
      rfl
    · conv_lhs => rw [hlogged.replayed]
      rfl
  · intro newer other older hsplit
    change served.2.log = _ at hsplit
    rw [hlog] at hsplit
    cases newer with
    | nil =>
      obtain ⟨rfl, rfl⟩ := List.cons.inj hsplit
      refine ⟨choice, state.world.leaseLost, state.world.log,
        (World.answer run.env.types choice state.world request).2.2, ?_⟩
      rw [← hlogged.replayed, hevent]
      rfl
    | cons head newer =>
      exact hlogged.fits newer other older (List.cons.inj hsplit).2
  · change match Function.update state.tasks.tasks nodeId (.running (next served.1)) other with
      | .waiting => entries state.stage other served.2.log = []
      | .running program => Residual state.stage other ((run.schedule state.stage).work other)
        (entries state.stage other served.2.log) program
    have htasks := hlogged.tasks other
    by_cases hsame : other = nodeId
    · subst hsame
      rw [htask] at htasks
      rw [Function.update_self, hlog, entries_cons_self ⟨hstage, hnode⟩, hevent]
      exact .serve htasks _ _
    · rw [Function.update_of_ne hsame, hlog,
        entries_cons_of_ne fun h => hsame (h.2.symm.trans hnode)]
      exact htasks
  · intro stage other hne
    have hover := hlogged.finished stage other hne
    unfold Over at hover ⊢
    rw [← hother stage hne other] at hover
    exact hover
  · intro other program hrunning earlier hearlier
    apply hdone
    by_cases hsame : other = nodeId
    · exact hlogged.waits nodeId _ htask earlier (hsame ▸ hearlier)
    · change Function.update _ _ _ other = _ at hrunning
      rw [Function.update_of_ne hsame] at hrunning
      exact hlogged.waits other program hrunning earlier hearlier
  · intro newer other older hsplit earlier hearlier
    change served.2.log = _ at hsplit
    rw [hlog] at hsplit
    cases newer with
    | nil =>
      obtain ⟨rfl, rfl⟩ := List.cons.inj hsplit
      rw [hstage, hnode] at hearlier
      have hended := Schedule.done_iff.mp (hlogged.waits nodeId _ htask earlier hearlier)
      have htasks := hlogged.tasks earlier
      rw [hended] at htasks
      rw [hstage]
      exact ⟨htasks, rfl⟩
    | cons head newer =>
      obtain ⟨rfl, hrest⟩ := List.cons.inj hsplit
      obtain ⟨hcomplete, hnone⟩ := hlogged.ordered newer other older hrest earlier hearlier
      refine ⟨hcomplete, ?_⟩
      rw [entries_cons_of_ne, hnone]
      rintro ⟨hsame, rfl⟩
      rw [hstage] at hsame
      -- The node served is at work, and a node waited for has ended.
      obtain ⟨program, hrunning⟩ := hlogged.running_of_entry
        (hrest ▸ List.mem_append_right _ (List.mem_cons_self ..)) hsame.symm
      have hended := hlogged.waits _ _ hrunning event.node (by rwa [hsame])
      rw [hnode, hndone] at hended
      cases hended
  · intro other hmem
    change other ∈ served.2.log at hmem
    rw [hlog] at hmem
    rcases List.mem_cons.mp hmem with rfl | hmem
    · rw [hstage]
    · exact hlogged.ranked other hmem
  · change served.2.log.Pairwise _
    rw [hlog, List.pairwise_cons]
    refine ⟨fun other hmem => ?_, hlogged.sorted⟩
    rw [hstage]
    exact hlogged.ranked other hmem
  · intro stage hrank hpass other hmem
    have hcomplete := hlogged.passed stage hrank hpass other hmem
    unfold Complete at hcomplete ⊢
    have hne : stage ≠ state.stage := by
      rintro rfl
      exact Nat.lt_irrefl _ hrank
    rw [← hother stage hne other] at hcomplete
    exact hcomplete
  · intro newer other older hsplit hpass stage hrank earlier hmem
    change served.2.log = _ at hsplit
    rw [hlog] at hsplit
    cases newer with
    | nil =>
      obtain ⟨rfl, rfl⟩ := List.cons.inj hsplit
      rw [hstage] at hpass hrank
      exact hlogged.passed stage hrank hpass earlier hmem
    | cons head newer =>
      exact hlogged.staged newer other older (List.cons.inj hsplit).2 hpass stage hrank earlier hmem
  · intro other hmem hrolling
    change other ∈ served.2.log at hmem
    rw [hlog] at hmem
    rcases List.mem_cons.mp hmem with rfl | hmem
    · exact hlogged.saga (hstage.symm.trans hrolling)
    · exact hlogged.rolled other hmem hrolling

theorem Logged.next {state : RunState} (hlogged : run.Logged cloud state) {stage : Stage}
    (hstage : run.nextStage state.stage state.tasks = some stage) :
    run.Logged cloud ⟨stage, Schedule.initial state.world⟩ := by
  -- Whichever way a stage is over, none of its nodes is at work, and the next one is later.
  obtain ⟨hidle, hlater, hfinished⟩ :
      (∀ nodeId ∈ run.nodesOf state.stage, (state.tasks.tasks nodeId).busy = false) ∧
        state.stage.rank < stage.rank ∧
        (stage.rank ≤ Stage.destroy.rank → stage = state.stage.following ∧
          run.finished state.stage state.tasks) := by
    unfold nextStage at hstage
    split_ifs at hstage with hended hfinished haborted hrolling
    · cases hstage
      refine ⟨fun nodeId hmem => ?_, ?_, fun _ => ⟨rfl, hfinished⟩⟩
      · rw [Schedule.done_iff.mp (List.all_eq_true.mp hfinished nodeId hmem)]
        rfl
      · revert hended
        cases state.stage <;> decide
    · cases hstage
      refine ⟨fun nodeId hmem => ?_, ?_, fun hrank => absurd hrank (by decide)⟩
      · simpa using List.all_eq_true.mp (Bool.and_eq_true_iff.mp haborted).2 nodeId hmem
      · revert hrolling
        cases state.stage <;> simp [Stage.compensated, Stage.rank]
    · cases hstage
      refine ⟨fun nodeId hmem => ?_, ?_, fun hrank => absurd hrank (by decide)⟩
      · simpa using List.all_eq_true.mp (Bool.and_eq_true_iff.mp haborted).2 nodeId hmem
      · revert hended
        cases state.stage <;> decide
  have hover := hlogged.over_of_idle hidle
  have hsaga : stage = .rolling → run.rollback := by
    rintro rfl
    unfold nextStage at hstage
    split_ifs at hstage with hended hfinished haborted hrolling
    · cases hcase : state.stage <;> rw [hcase] at hstage <;> cases hstage
    · exact (Bool.and_eq_true_iff.mp hrolling).2
    · cases hstage
  refine ⟨hlogged.replayed, hlogged.fits, fun nodeId => ?_, fun stage nodeId _ => hover stage nodeId,
    (fun _ _ hrunning => by cases hrunning), hlogged.ordered, fun event hmem => ?_, hlogged.sorted,
    fun earlier hearlier hpass nodeId hmem => ?_, hlogged.staged, hsaga,
    hlogged.rolled⟩
  · change entries stage nodeId state.world.log = []
    rw [entries, List.filter_eq_nil_iff]
    intro event hmem hentry
    have hrank := hlogged.ranked event hmem
    obtain ⟨rfl, -⟩ : event.stage = stage ∧ event.node = nodeId := by simpa using hentry
    omega
  · exact Nat.le_of_lt (Nat.lt_of_le_of_lt (hlogged.ranked event hmem) hlater)
  · obtain ⟨hfollowing, hfinished⟩ := hfinished hpass
    by_cases hsame : earlier = state.stage
    · subst hsame
      have htask := hlogged.tasks nodeId
      rw [Schedule.done_iff.mp (List.all_eq_true.mp hfinished nodeId hmem)] at htask
      exact htask
    · have hless : earlier.rank < state.stage.rank := by
        rw [hfollowing] at hearlier hpass
        exact Stage.rank_lt_of_following hsame hearlier hpass
      exact hlogged.passed earlier hless (Nat.le_of_lt (Nat.lt_of_lt_of_le hlater hpass)) nodeId hmem

theorem Logged.step {state state' : RunState} {act : RunAct} (hlogged : run.Logged cloud state)
    (hstep : run.step act state = some state') : run.Logged cloud state' := by
  cases act with
  | next =>
    obtain ⟨stage, hstage, rfl⟩ := Option.map_eq_some_iff.mp hstep
    exact hlogged.next hstage
  | task act =>
    obtain ⟨tasks, htasks, rfl⟩ := Option.map_eq_some_iff.mp hstep
    cases act with
    | start nodeId =>
      simp only [Schedule.step] at htasks
      split at htasks
      next hwaiting =>
        split at htasks
        next hbefore =>
          cases htasks
          exact hlogged.start hwaiting fun earlier hearlier =>
            List.all_eq_true.mp hbefore earlier hearlier
        next => cases htasks
      next => cases htasks
    | serve nodeId choice =>
      simp only [Schedule.step] at htasks
      split at htasks
      next request next htask =>
        cases htasks
        exact hlogged.serve htask
      next => cases htasks
    | env event =>
      cases htasks
      refine ⟨?_, hlogged.fits, hlogged.tasks, hlogged.finished, hlogged.waits, hlogged.ordered,
        hlogged.ranked, hlogged.sorted, hlogged.passed, hlogged.staged, hlogged.saga,
    hlogged.rolled⟩
      exact congrArg World.loseLease hlogged.replayed

/-- **Every state of a run is what its log says.** -/
theorem Reaches.logged {state : RunState} (hreach : run.Reaches cloud state) :
    run.Logged cloud state := by
  obtain ⟨acts, hsteps⟩ := hreach
  have hstart : run.Logged cloud (run.start cloud) := logged_start
  revert hsteps hstart
  generalize run.start cloud = first
  intro hsteps hlogged
  induction acts generalizing first with
  | nil =>
    cases hsteps
    exact hlogged
  | cons act acts ih =>
    obtain ⟨middle, hstep, hrest⟩ := Option.bind_eq_some_iff.mp hsteps
    exact ih _ hrest (hlogged.step hstep)

end RunContext

end Atlantide.Executor
