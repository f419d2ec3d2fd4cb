import Atlantide.Executor.Log

/-! # What the work of one node asks for

A node's work sees nothing but the replies to its own requests, so what its entries in the log look
like is proved of its program alone, for every reply. `Along` is the weakest precondition over the
history of the program's own requests. -/

namespace Atlantide.Executor

open Interleaving

/-- What an answer says by itself: what ends well took effect. -/
def Answers : (request : Request) → request.Reply → Bool → Prop
  | .put _, .ok _, landed | .drop _, .ok _, landed | .erase _, .ok _, landed
  | .create _, .ok _, landed | .delete _, .ok _, landed
  | .look, _, landed | .takeDelete _, _, landed | .memory _, _, landed => landed = true
  | _, _, _ => True

/-- Whatever the replies are, as far as they satisfy `assume`, the history satisfies `always` after
each request and the program ends with an outcome that `post` allows. -/
def Along (stage : Stage) (nodeId : String) (assume : Event → Prop) (always : List Event → Prop)
    {α : Type} : Step α → List Event → (List Event → Except Failure α → Prop) → Prop
  | .ret value, past, post => post past (.ok value)
  | .raise failure, past, post => post past (.error failure)
  | .ask request next, past, post => ∀ reply landed,
      assume ⟨stage, nodeId, request, reply, landed⟩ →
        always (⟨stage, nodeId, request, reply, landed⟩ :: past) ∧
          Along stage nodeId assume always (next reply)
            (⟨stage, nodeId, request, reply, landed⟩ :: past) post

theorem Event.Fits.answers {types : Types} {world : World} {event : Event}
    (hfits : event.Fits types world) : Answers event.request event.reply event.landed := by
  obtain ⟨stage, nodeId, request, reply, landed⟩ := event
  obtain ⟨choice, lost, log, after, hanswer⟩ := hfits
  have hattempt : ∀ {α : Type} {fate : Fate} {before : World} {value found : α} {after : World}
      {landed : Bool} {final : World},
      attempt fate before value after = (.ok found, landed, final) → landed = true := by
    intro α fate before value found after landed final heq
    cases fate <;> cases heq
    rfl
  dsimp only at hanswer ⊢
  cases request with
  | look => cases hanswer; rfl
  | takeDelete node => cases hanswer; rfl
  | memory update => cases hanswer; rfl
  | put row =>
    cases reply with
    | error failure => trivial
    | ok value =>
      rw [World.answer] at hanswer
      cases lost
      · exact hattempt hanswer
      · cases hanswer
  | drop node =>
    cases reply with
    | error failure => trivial
    | ok value =>
      rw [World.answer] at hanswer
      cases lost
      · exact hattempt hanswer
      · cases hanswer
  | erase node =>
    cases reply with
    | error failure => trivial
    | ok value => exact hattempt hanswer
  | create res =>
    cases reply with
    | error failure => trivial
    | ok value => exact hattempt hanswer
  | delete res =>
    cases reply with
    | error failure => trivial
    | ok value => exact hattempt hanswer
  | load => cases reply <;> trivial
  | update prior res => cases reply <;> trivial

/-- Rows that were read stand each under its own id. -/
def ReadsKeyed : (request : Request) → request.Reply → Prop
  | .load, .ok rows => rows.Keyed
  | _, _ => True

/-- What may be taken for granted of every event of a run. -/
def Event.Sound (event : Event) : Prop :=
  Answers event.request event.reply event.landed ∧ ReadsKeyed event.request event.reply

theorem Event.Fits.sound {types : Types} {world : World} {event : Event}
    (hfits : event.Fits types world) (hkeyed : world.rows.Keyed) : event.Sound := by
  refine ⟨hfits.answers, ?_⟩
  obtain ⟨stage, nodeId, request, reply, landed⟩ := event
  obtain ⟨choice, lost, log, after, hanswer⟩ := hfits
  cases request with
  | load =>
    cases reply with
    | error failure => trivial
    | ok rows =>
      dsimp only [World.answer] at hanswer
      cases hfate : choice.fate with
      | done =>
        rw [hfate] at hanswer
        cases hanswer
        exact hkeyed
      | raised failure landed =>
        rw [hfate] at hanswer
        cases hanswer
  | _ => trivial

namespace RunContext

variable {run : RunContext} {cloud : Cloud} {state : RunState}

theorem Logged.rows (hlogged : run.Logged cloud state) (nodeId : String) :
    state.world.rows[nodeId]? = rowAfter nodeId run.prior[nodeId]? state.world.log := by
  have hrows := congrArg World.rows hlogged.replayed
  rw [hrows]
  exact replay_rows

theorem Logged.sound (hlogged : run.Logged cloud state) :
    ∀ event ∈ state.world.log, event.Sound := by
  intro event hmem
  obtain ⟨newer, older, hlog⟩ := List.append_of_mem hmem
  exact (hlogged.fits newer event older hlog).sound (replay_keyed run.keyed older)

/-- The undos in the memory are those the log says were recorded. -/
theorem replay_compensations {types : Types} {start : World} {log : List Event}
    (hsound : ∀ event ∈ log, event.Sound) :
    (replay types start log).memory.compensations =
      undosOf log ++ start.memory.compensations := by
  induction log with
  | nil => rfl
  | cons event older ih =>
    have hrest := ih fun event hmem => hsound event (List.mem_cons_of_mem _ hmem)
    obtain ⟨stage, nodeId, request, reply, landed⟩ := event
    rw [replay, undosOf, List.filterMap_cons, Event.recorded]
    cases request with
    | memory update =>
      have hlanded : landed = true := (hsound _ (List.mem_cons_self ..)).1
      rw [if_pos hlanded]
      cases update <;>
        first
        | exact hrest
        | exact congrArg (_ :: ·) hrest
    | create res => dsimp only; rw [World.effect]; split <;> [split; skip] <;> exact hrest
    | update prior res => dsimp only; rw [World.effect]; split <;> [split; skip] <;> exact hrest
    | delete res => dsimp only; rw [World.effect]; split <;> [split; skip] <;> exact hrest
    | _ => dsimp only; split <;> exact hrest

end RunContext

namespace Along

variable {stage : Stage} {nodeId : String} {assume : Event → Prop} {always : List Event → Prop}
variable {α β : Type} {past : List Event}

theorem mono {program : Step α} {post post' : List Event → Except Failure α → Prop}
    (halong : Along stage nodeId assume always program past post)
    (hpost : ∀ past outcome, post past outcome → post' past outcome) :
    Along stage nodeId assume always program past post' := by
  induction program generalizing past with
  | ret value => exact hpost _ _ halong
  | raise failure => exact hpost _ _ halong
  | ask request next ih =>
    intro reply landed hassume
    obtain ⟨hhere, hnext⟩ := halong reply landed hassume
    exact ⟨hhere, ih reply hnext⟩

theorem bind {program : Step α} {next : α → Step β}
    {post : List Event → Except Failure β → Prop}
    (halong : Along stage nodeId assume always program past fun past outcome =>
      match outcome with
      | .ok value => Along stage nodeId assume always (next value) past post
      | .error failure => post past (.error failure)) :
    Along stage nodeId assume always (program.bind next) past post := by
  induction program generalizing past with
  | ret value => exact halong
  | raise failure => exact halong
  | ask request resume ih =>
    intro reply landed hassume
    obtain ⟨hhere, hnext⟩ := halong reply landed hassume
    exact ⟨hhere, ih reply hnext⟩

theorem catching {program : Step α} {handler : Failure → Step α}
    {post : List Event → Except Failure α → Prop}
    (halong : Along stage nodeId assume always program past fun past outcome =>
      match outcome with
      | .ok value => post past (.ok value)
      | .error failure => Along stage nodeId assume always (handler failure) past post) :
    Along stage nodeId assume always (program.catching handler) past post := by
  induction program generalizing past with
  | ret value => exact halong
  | raise failure => exact halong
  | ask request resume ih =>
    intro reply landed hassume
    obtain ⟨hhere, hnext⟩ := halong reply landed hassume
    exact ⟨hhere, ih reply hnext⟩

/-- A pure computation goes on with its value, or raises. -/
theorem compute {computed : Except Fault α} {post : List Event → Except Failure α → Prop}
    (hok : ∀ value, computed = .ok value → post past (.ok value))
    (herror : ∀ fault, computed = .error fault → post past (.error (.fault fault))) :
    Along stage nodeId assume always (Step.compute computed) past post := by
  cases computed with
  | ok value => exact hok value rfl
  | error fault => exact herror fault rfl

/-- More may be taken for granted. -/
theorem assuming {assume' : Event → Prop} {program : Step α}
    {post : List Event → Except Failure α → Prop}
    (halong : Along stage nodeId assume always program past post)
    (hassume : ∀ event, assume' event → assume event) :
    Along stage nodeId assume' always program past post := by
  induction program generalizing past with
  | ret value => exact halong
  | raise failure => exact halong
  | ask request next ih =>
    intro reply landed hassume'
    obtain ⟨hhere, hnext⟩ := halong reply landed (hassume _ hassume')
    exact ⟨hhere, ih reply hnext⟩

theorem and {program : Step α} {post post' : List Event → Except Failure α → Prop}
    (halong : Along stage nodeId assume always program past post)
    (halong' : Along stage nodeId assume always program past post') :
    Along stage nodeId assume always program past fun past outcome =>
      post past outcome ∧ post' past outcome := by
  induction program generalizing past with
  | ret value => exact ⟨halong, halong'⟩
  | raise failure => exact ⟨halong, halong'⟩
  | ask request next ih =>
    intro reply landed hassume
    exact ⟨(halong reply landed hassume).1,
      ih reply (halong reply landed hassume).2 (halong' reply landed hassume).2⟩

/-- What a program makes of its own history, it makes of it on top of an older one. -/
theorem shift {program : Step α} {post : List Event → Except Failure α → Prop}
    {before : List Event}
    (halong : Along stage nodeId assume (fun past => always (past ++ before)) program past
      fun past outcome => post (past ++ before) outcome) :
    Along stage nodeId assume always program (past ++ before) post := by
  induction program generalizing past with
  | ret value => exact halong
  | raise failure => exact halong
  | ask request next ih =>
    intro reply landed hassume
    exact ⟨(halong reply landed hassume).1, ih reply (halong reply landed hassume).2⟩

theorem put {row : StateNode} {post : List Event → Except Failure Unit → Prop}
    (hpost : ∀ reply landed, assume ⟨stage, nodeId, .put row, reply, landed⟩ →
      always (⟨stage, nodeId, .put row, reply, landed⟩ :: past) ∧
        post (⟨stage, nodeId, .put row, reply, landed⟩ :: past) reply) :
    Along stage nodeId assume always (Step.put row) past post := by
  intro reply landed hassume
  obtain ⟨hhere, hend⟩ := hpost reply landed hassume
  exact ⟨hhere, by cases reply <;> exact hend⟩

theorem drop {other : String} {post : List Event → Except Failure Unit → Prop}
    (hpost : ∀ reply landed, assume ⟨stage, nodeId, .drop other, reply, landed⟩ →
      always (⟨stage, nodeId, .drop other, reply, landed⟩ :: past) ∧
        post (⟨stage, nodeId, .drop other, reply, landed⟩ :: past) reply) :
    Along stage nodeId assume always (Step.drop other) past post := by
  intro reply landed hassume
  obtain ⟨hhere, hend⟩ := hpost reply landed hassume
  exact ⟨hhere, by cases reply <;> exact hend⟩

theorem delete {res : Resource} {post : List Event → Except Failure Unit → Prop}
    (hpost : ∀ reply landed, assume ⟨stage, nodeId, .delete res, reply, landed⟩ →
      always (⟨stage, nodeId, .delete res, reply, landed⟩ :: past) ∧
        post (⟨stage, nodeId, .delete res, reply, landed⟩ :: past) reply) :
    Along stage nodeId assume always (Step.delete res) past post := by
  intro reply landed hassume
  obtain ⟨hhere, hend⟩ := hpost reply landed hassume
  exact ⟨hhere, by cases reply <;> exact hend⟩

theorem create {res : Resource} {post : List Event → Except Failure (Dict String Value) → Prop}
    (hpost : ∀ reply landed, assume ⟨stage, nodeId, .create res, reply, landed⟩ →
      always (⟨stage, nodeId, .create res, reply, landed⟩ :: past) ∧
        post (⟨stage, nodeId, .create res, reply, landed⟩ :: past) reply) :
    Along stage nodeId assume always (Step.create res) past post := by
  intro reply landed hassume
  obtain ⟨hhere, hend⟩ := hpost reply landed hassume
  exact ⟨hhere, by cases reply <;> exact hend⟩

theorem memory {update : MemoryUpdate} {post : List Event → Except Failure Unit → Prop}
    (hpost : ∀ landed, assume ⟨stage, nodeId, .memory update, (), landed⟩ →
      always (⟨stage, nodeId, .memory update, (), landed⟩ :: past) ∧
        post (⟨stage, nodeId, .memory update, (), landed⟩ :: past) (.ok ())) :
    Along stage nodeId assume always (Step.memory update) past post :=
  fun _ landed hassume => hpost landed hassume

theorem look {post : List Event → Except Failure RunMemory → Prop}
    (hpost : ∀ found landed, assume ⟨stage, nodeId, .look, found, landed⟩ →
      always (⟨stage, nodeId, .look, found, landed⟩ :: past) ∧
        post (⟨stage, nodeId, .look, found, landed⟩ :: past) (.ok found.1)) :
    Along stage nodeId assume always Step.look past post :=
  fun found landed hassume => hpost found landed hassume

theorem leaseLost {post : List Event → Except Failure Bool → Prop}
    (hpost : ∀ found landed, assume ⟨stage, nodeId, .look, found, landed⟩ →
      always (⟨stage, nodeId, .look, found, landed⟩ :: past) ∧
        post (⟨stage, nodeId, .look, found, landed⟩ :: past) (.ok found.2)) :
    Along stage nodeId assume always Step.leaseLost past post :=
  fun found landed hassume => hpost found landed hassume

/-- What each request of a program keeps, the program keeps. -/
theorem of_only {asks : Request → Prop} {holds : List Event → Prop} {program : Step α}
    (honly : program.Only asks)
    (hstep : ∀ event past, event.stage = stage → event.node = nodeId → asks event.request →
      assume event → holds past → holds (event :: past))
    (halways : ∀ past, holds past → always past) (hpast : holds past) :
    Along stage nodeId assume always program past fun past _ => holds past := by
  induction program generalizing past with
  | ret value => exact hpast
  | raise failure => exact hpast
  | ask request next ih =>
    intro reply landed hassume
    have hnext := hstep ⟨stage, nodeId, request, reply, landed⟩ past rfl rfl honly.1 hassume hpast
    exact ⟨halways _ hnext, ih reply (honly.2 reply) hnext⟩

theorem anything {program : Step α} :
    Along stage nodeId assume (fun _ => True) program past fun _ _ => True :=
  of_only (Prog.Only.any program) (fun _ _ _ _ _ _ _ => trivial) (fun _ _ => trivial) trivial

theorem suffix {program : Step α} :
    Along stage nodeId assume (fun _ => True) program past fun past' _ => past <:+ past' :=
  of_only (Prog.Only.any program) (fun _ _ _ _ _ _ hpast => hpast.trans (List.suffix_cons ..))
    (fun _ _ => trivial) (List.suffix_refl past)

/-- What a program does along its history, its residual does from where it stands. -/
theorem residual {program last : Step α} {events : List Event}
    {post : List Event → Except Failure α → Prop}
    (halong : Along stage nodeId assume always program [] post) (hstart : always [])
    (hresidual : Residual stage nodeId program events last) (hassume : ∀ event ∈ events, assume event) :
    always events ∧ Along stage nodeId assume always last events post := by
  induction hresidual with
  | start => exact ⟨hstart, halong⟩
  | serve hresidual reply landed ih =>
    have hnext := (ih fun event hmem => hassume event (List.mem_cons_of_mem _ hmem)).2 reply landed
      (hassume _ (List.mem_cons_self ..))
    exact hnext

end Along

section

variable {stage : Stage} {nodeId : String} {kind : Event → Prop} {α β : Type}

/-- If the program ends well, the last request it asked for was answered as `kind` says. -/
def Ends (stage : Stage) (nodeId : String) (kind : Event → Prop) (program : Step α) : Prop :=
  ∀ past, Along stage nodeId Event.Sound (fun _ => True) program past fun past' outcome =>
    (∃ value, outcome = .ok value) → ∃ event earlier, past' = event :: earlier ∧ kind event

theorem not_ok_error {failure : Failure} {claim : Prop} :
    (∃ value : α, Except.error failure = .ok value) → claim := by
  rintro ⟨value, ⟨⟩⟩

theorem Ends.bind {program : Step α} {next : α → Step β}
    (hnext : ∀ value, Ends stage nodeId kind (next value)) :
    Ends stage nodeId kind (program.bind next) := by
  intro past
  refine Along.bind (Along.anything.mono fun past' outcome _ => ?_)
  cases outcome with
  | ok value => exact hnext value past'
  | error failure => exact not_ok_error

theorem Ends.compute {computed : Except Fault α} {next : α → Step β}
    (hnext : ∀ value, computed = .ok value → Ends stage nodeId kind (next value)) :
    Ends stage nodeId kind ((Step.compute computed).bind next) := by
  cases computed with
  | ok value => exact hnext value rfl
  | error fault => exact fun _ => not_ok_error

theorem Ends.raise {failure : Failure} : Ends stage nodeId kind (.raise failure : Step α) :=
  fun _ => not_ok_error

theorem Ends.put {row : StateNode}
    (hkind : ∀ reply landed, landed = true → kind ⟨stage, nodeId, .put row, reply, landed⟩) :
    Ends stage nodeId kind (Step.put row) := by
  intro past
  refine Along.put fun reply landed hsound => ⟨trivial, ?_⟩
  rintro ⟨value, rfl⟩
  exact ⟨_, past, rfl, hkind _ landed hsound.1⟩

theorem Ends.erase {other : String}
    (hkind : ∀ reply landed, landed = true → kind ⟨stage, nodeId, .erase other, reply, landed⟩) :
    Ends stage nodeId kind (Step.erase other) := by
  intro past reply landed hsound
  refine ⟨trivial, ?_⟩
  cases reply with
  | error failure => exact not_ok_error
  | ok value => exact fun _ => ⟨_, past, rfl, hkind _ landed hsound.1⟩

/-- A handler that raises in any case. -/
theorem Ends.catchException {program : Step α} {handler : Failure → Step α}
    (hends : Ends stage nodeId kind program)
    (hhandler : ∀ failure, Ends stage nodeId kind (handler failure)) :
    Ends stage nodeId kind (catchException program handler) := by
  intro past
  refine Along.catching ((hends past).mono fun past' outcome hpast' => ?_)
  cases outcome with
  | ok value => exact hpast'
  | error failure =>
    dsimp only
    split
    · exact hhandler failure past'
    · exact not_ok_error

end

namespace RunContext

variable {run : RunContext} {cloud : Cloud} {state : RunState}
variable {stage : Stage} {nodeId : String}

/-- A node's entries are what its work asked for, as far as it got. -/
theorem Logged.residual (hlogged : run.Logged cloud state) (stage : Stage) (nodeId : String) :
    ∃ last, Residual stage nodeId ((run.schedule stage).work nodeId)
      (entries stage nodeId state.world.log) last := by
  have hempty : entries stage nodeId state.world.log = [] →
      ∃ last, Residual stage nodeId ((run.schedule stage).work nodeId)
        (entries stage nodeId state.world.log) last := by
    intro hnone
    rw [hnone]
    exact ⟨_, .start⟩
  by_cases hstage : stage = state.stage
  · subst hstage
    have htask := hlogged.tasks nodeId
    split at htask
    · exact hempty htask
    next program _ => exact ⟨program, htask⟩
  · rcases hlogged.finished stage nodeId hstage with hnone | ⟨last, -, hresidual⟩
    · exact hempty hnone
    · exact ⟨last, hresidual⟩

theorem mem_entries {event : Event} {log : List Event} :
    event ∈ entries stage nodeId log ↔
      event ∈ log ∧ event.stage = stage ∧ event.node = nodeId := by
  simp [entries]

/-- What a node's work always makes of its history holds of its entries in the log. -/
theorem Logged.always (hlogged : run.Logged cloud state) {assume : Event → Prop}
    {always : List Event → Prop} {post : List Event → Except Failure Unit → Prop}
    (hwork : nodeId ∈ run.nodesOf stage →
      Along stage nodeId assume always (run.workOf stage nodeId) [] post) (hstart : always [])
    (hassume : ∀ event ∈ entries stage nodeId state.world.log, assume event) :
    always (entries stage nodeId state.world.log) := by
  obtain ⟨last, hresidual⟩ := hlogged.residual stage nodeId
  by_cases hmem : nodeId ∈ run.nodesOf stage
  · have hwhole : (run.schedule stage).work nodeId = run.workOf stage nodeId := if_pos hmem
    rw [hwhole] at hresidual
    exact ((hwork hmem).residual hstart hresidual hassume).1
  · have hwhole : (run.schedule stage).work nodeId = .ret () := if_neg hmem
    rw [hwhole] at hresidual
    have halong : Along stage nodeId assume always (.ret () : Step Unit) [] fun _ _ => True :=
      trivial
    exact (halong.residual hstart hresidual hassume).1

end RunContext

end Atlantide.Executor
