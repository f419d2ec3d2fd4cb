import Atlantide.Executor.Undos

/-! # Rows a rollback drops

A compensation that removes what a create made drops the node's row. The marks of the rollback are
made from rows read once, before any of its compensations ran. -/

namespace Atlantide.Executor

open Interleaving

/-- The event is a compensation's drop of the row. -/
def Event.Drops (event : Event) (nodeId : String) : Prop :=
  event.stage = .rolling ∧ event.written nodeId = some none

/-- The event is a write of the row during the rollback. -/
def Event.Writes (event : Event) (nodeId : String) : Prop :=
  event.stage = .rolling ∧ ∃ row, event.written nodeId = some (some row)

/-- A compensation of the node begins. -/
def Event.Begins (event : Event) (nodeId : String) : Prop :=
  event.stage = .rolling ∧ event.request = .memory (.rolledBack nodeId)

namespace RunContext

variable (run : RunContext)

/-- The event re-created the resource the row describes. -/
def Recreates (row : StateNode) (event : Event) : Prop :=
  ∃ node old outputs landed, event = ⟨.rolling, node, .create old, .ok outputs, landed⟩ ∧
    row.outputs = sealOutputs run.env old.type outputs

/-- A row that a compensation dropped is there only if a later one re-created what it describes. -/
def NoResurrection (world : World) : Prop :=
  ∀ nodeId newer dropped older row, world.log = newer ++ dropped :: older → dropped.Drops nodeId →
    world.rows[nodeId]? = some row → ∃ event ∈ newer, run.Recreates row event

/-- Whenever a compensation marked the row of a node after an earlier one dropped it, its own write
of that row took effect. -/
def MarkedRowsWritten (world : World) : Prop :=
  ∀ nodeId later marked begun between dropped older,
    world.log = later ++ marked :: begun :: between ++ dropped :: older → dropped.Drops nodeId →
      begun.Begins nodeId → marked.Writes nodeId → ∃ written ∈ later, written.Writes nodeId

end RunContext

/-! ## One compensation -/

def Undo.IsCreate : Undo → Prop
  | .create _ => True
  | _ => False

def Undo.IsCbdCreate : Undo → Prop
  | .cbdCreate _ _ => True
  | _ => False

def Undo.IsDelete : Undo → Prop
  | .delete _ _ => True
  | _ => False

/-- The undo is one of the node's: it restores the node's row, if it restores any. -/
def Undo.Of (nodeId : String) : Undo → Prop
  | .create _ => True
  | .update _ prior _ | .replace _ _ prior | .delete _ prior | .cbdCreate _ prior
  | .restoreRow prior => prior.id = nodeId

/-- The request writes no row but the node's, and drops none. -/
def Request.Puts (nodeId : String) (request : Request) : Prop :=
  request.written nodeId ≠ some none ∧ ∀ other, other ≠ nodeId → request.written other = none

/-- What the compensation of a node may write: the node's row, which only the undo of a create
drops; and a create-before-destroy's drops the companion's. -/
def Undo.May (nodeId : String) (undo : Undo) (request : Request) : Prop :=
  (request.written nodeId = some none → undo.IsCreate) ∧
    ∀ other, other ≠ nodeId → request.written other = none ∨
      (request.written other = some none ∧ other = cbdCompanionId nodeId ∧ undo.IsCbdCreate)

section

variable {nodeId : String} {undo : Undo}

theorem Request.Puts.may {request : Request} (hputs : request.Puts nodeId) :
    undo.May nodeId request :=
  ⟨fun hdrop => (hputs.1 hdrop).elim, fun other hother => .inl (hputs.2 other hother)⟩

theorem puts_of_silent {request : Request} (hsilent : ∀ other, request.written other = none) :
    request.Puts nodeId :=
  ⟨fun hdrop => (nomatch (hsilent nodeId).symm.trans hdrop), fun other _ => hsilent other⟩

theorem puts_memory (update : MemoryUpdate) : (Step.memory update).Only (Request.Puts nodeId) :=
  Step.memory_only (puts_of_silent fun _ => rfl)

theorem puts_delete (res : Resource) : (Step.delete res).Only (Request.Puts nodeId) :=
  Step.delete_only (puts_of_silent fun _ => rfl)

theorem puts_create (res : Resource) : (Step.create res).Only (Request.Puts nodeId) :=
  Step.create_only (puts_of_silent fun _ => rfl)

theorem puts_update (prior : Dict String Value) (res : Resource) :
    (Step.update prior res).Only (Request.Puts nodeId) :=
  Step.update_only (puts_of_silent fun _ => rfl)

theorem puts_put {row : StateNode} (hrow : row.id = nodeId) :
    (Step.put row).Only (Request.Puts nodeId) := by
  refine Step.put_only ⟨fun hdrop => ?_, fun other hother => ?_⟩
  · rw [Request.written, if_pos hrow] at hdrop
    cases hdrop
  · rw [Request.written, if_neg (hrow ▸ hother.symm)]

theorem puts_markFrom {rows : Except Failure StateGraph}
    (hkeyed : ∀ read, rows = .ok read → read.Keyed) :
    (RunContext.markFrom rows nodeId).Only (Request.Puts nodeId) := by
  cases rows with
  | error failure => exact puts_memory _
  | ok rows =>
    rw [RunContext.markFrom, markStale_some]
    refine Prog.Only.catching ?_ fun failure => .ite (puts_memory _) trivial
    split
    · trivial
    next row hrow => exact puts_put (hkeyed rows rfl nodeId row hrow)

theorem may_drop {other : String} (hnode : other = nodeId → undo.IsCreate)
    (hother : other ≠ nodeId → other = cbdCompanionId nodeId ∧ undo.IsCbdCreate) :
    (Step.drop other).Only (undo.May nodeId) := by
  refine Step.drop_only ⟨fun hdrop => ?_, fun dropped hdropped => ?_⟩
  · by_contra hcreate
    rw [Request.written, if_neg fun h => hcreate (hnode h)] at hdrop
    cases hdrop
  · rw [Request.written]
    split
    next hsame => exact .inr ⟨rfl, hsame ▸ hother (hsame ▸ hdropped)⟩
    next => exact .inl rfl

theorem may_undo (run : RunContext) (hof : undo.Of nodeId) :
    (run.undo nodeId undo).Only (undo.May nodeId) := by
  have hmay : ∀ {α : Type} {step : Step α}, step.Only (Request.Puts nodeId) →
      step.Only (undo.May nodeId) := fun honly => honly.mono fun _ => Request.Puts.may
  cases undo with
  | create res =>
    exact (hmay (puts_delete res)).bind fun _ => may_drop (fun _ => trivial) fun h => (h rfl).elim
  | update old prior priorOutputs =>
    exact hmay ((puts_update _ old).bind fun _ => puts_put hof)
  | replace new old prior =>
    exact hmay ((puts_delete new).bind fun _ => (puts_create old).bind fun _ => puts_put hof)
  | delete old prior => exact hmay ((puts_create old).bind fun _ => puts_put hof)
  | restoreRow prior => exact hmay (puts_put hof)
  | cbdCreate new prior =>
    obtain rfl : prior.id = nodeId := hof
    refine (hmay (puts_delete new)).bind fun _ => (hmay (puts_put rfl)).bind fun _ => ?_
    exact may_drop (fun h => (companion_ne_self _ h).elim) fun _ => ⟨rfl, trivial⟩

theorem may_compensate (run : RunContext) {rows : Except Failure StateGraph}
    (hkeyed : ∀ read, rows = .ok read → read.Keyed) (hof : undo.Of nodeId) :
    (run.compensate rows nodeId undo).Only (undo.May nodeId) := by
  have hmay : ∀ {α : Type} {step : Step α}, step.Only (Request.Puts nodeId) →
      step.Only (undo.May nodeId) := fun honly => honly.mono fun _ => Request.Puts.may
  refine Prog.Only.bind (hmay ⟨puts_of_silent fun _ => rfl, fun _ => trivial⟩) fun lost =>
    .ite (hmay (puts_memory _)) ?_
  refine (hmay (puts_memory (.rolledBack nodeId))).bind fun _ =>
    (hmay (puts_markFrom hkeyed)).bind fun _ => ?_
  exact (may_undo run hof).catching fun failure => .ite (hmay (puts_memory _)) trivial

end

/-! ## What a compensation makes of its node's row -/

section

variable {nodeId : String} {events : List Event} {event : Event}

/-- Once the row is dropped it is not written again. -/
def DroppedLast (nodeId : String) (events : List Event) : Prop :=
  (∃ event ∈ events, event.written nodeId = some none) →
    ∀ start, rowAfter nodeId start events = none

theorem DroppedLast.of_none (hnone : ∀ event ∈ events, event.written nodeId ≠ some none) :
    DroppedLast nodeId events :=
  fun ⟨event, hmem, hdrop⟩ => (hnone event hmem hdrop).elim

theorem DroppedLast.drop (hdrop : event.written nodeId = some none) :
    DroppedLast nodeId (event :: events) := by
  intro _ start
  rw [rowAfter, hdrop]
  rfl

theorem DroppedLast.silent (hlast : DroppedLast nodeId events)
    (hsilent : event.written nodeId = none) : DroppedLast nodeId (event :: events) := by
  rintro ⟨dropped, hmem, hdrop⟩ start
  rw [rowAfter, hsilent]
  refine hlast ⟨dropped, ?_, hdrop⟩ start
  rcases List.mem_cons.mp hmem with rfl | hmem
  · rw [hsilent] at hdrop
    cases hdrop
  · exact hmem

/-- Compensations run in the saga's single task. -/
abbrev InSaga {α : Type} (program : Step α) (past : List Event)
    (post : List Event → Except Failure α → Prop) : Prop :=
  Along .rolling "" Event.Sound (fun _ => True) program past post

theorem InSaga.memory {update : MemoryUpdate} {post : List Event → Except Failure Unit → Prop}
    (hpost : ∀ landed, post (⟨.rolling, "", .memory update, (), landed⟩ :: events) (.ok ())) :
    InSaga (Step.memory update) events post :=
  Along.memory fun landed _ => ⟨trivial, hpost landed⟩

/-- A failure is handled by noting it, or passes. -/
theorem InSaga.noted {step : Step Unit} {update : MemoryUpdate}
    {holds : List Event → Prop} (hstep : InSaga step events fun past _ => holds past)
    (hnoted : ∀ past landed, holds past →
      holds (⟨.rolling, "", .memory update, (), landed⟩ :: past)) :
    InSaga (catchException step fun _ => Step.memory update) events fun past _ => holds past := by
  refine Along.catching (hstep.mono fun past outcome hholds => ?_)
  cases outcome with
  | ok value => exact hholds
  | error failure =>
    dsimp only
    split
    · exact InSaga.memory fun landed => hnoted past landed hholds
    · exact hholds

theorem written_eq_none {request : Request} {reply : request.Reply} {landed : Bool}
    (hsilent : request.written nodeId = none) :
    Event.written ⟨.rolling, "", request, reply, landed⟩ nodeId = none := by
  rw [Event.written]
  split
  · exact hsilent
  · rfl

/-- The mark drops nothing. -/
theorem InSaga.marks {rows : Except Failure StateGraph}
    (hkeyed : ∀ read, rows = .ok read → read.Keyed)
    (hpast : ∀ event ∈ events, event.written nodeId ≠ some none) :
    InSaga (RunContext.markFrom rows nodeId) events fun past _ =>
      ∀ event ∈ past, event.written nodeId ≠ some none := by
  refine Along.of_only (puts_markFrom hkeyed) (fun event past _ _ hputs _ hnone => ?_)
    (fun _ _ => trivial) hpast
  refine List.forall_mem_cons.mpr ⟨?_, hnone⟩
  rw [Event.written]
  split
  · exact hputs.1
  · rintro ⟨⟩

/-- The undo of a create drops the row last. -/
theorem compensate_create (run : RunContext) {rows : Except Failure StateGraph}
    (hkeyed : ∀ read, rows = .ok read → read.Keyed) (res : Resource) :
    InSaga (run.compensate rows nodeId (.create res)) [] fun past _ =>
      DroppedLast nodeId past := by
  have hnoted : ∀ (update : MemoryUpdate) past landed, DroppedLast nodeId past →
      DroppedLast nodeId (⟨.rolling, "", .memory update, (), landed⟩ :: past) :=
    fun update past landed hlast => hlast.silent (written_eq_none rfl)
  refine Along.bind (Along.leaseLost fun found landed _ => ⟨trivial, ?_⟩)
  dsimp only
  split
  · refine InSaga.memory fun landed' => hnoted _ _ landed' ?_
    exact DroppedLast.silent (.of_none (List.forall_mem_nil _)) (written_eq_none rfl)
  refine Along.bind (InSaga.memory fun landed' => ?_)
  refine Along.bind ((InSaga.marks hkeyed ?_).mono fun past outcome hnone => ?_)
  · refine List.forall_mem_cons.mpr ⟨?_, List.forall_mem_cons.mpr ⟨?_, List.forall_mem_nil _⟩⟩
    · exact ne_of_eq_of_ne (written_eq_none rfl) nofun
    · exact ne_of_eq_of_ne (written_eq_none rfl) nofun
  cases outcome with
  | error failure => exact .of_none hnone
  | ok value =>
    refine InSaga.noted ?_ (hnoted _)
    refine Along.bind (Along.delete fun reply landed _ => ⟨trivial, ?_⟩)
    have hdeleted : DroppedLast nodeId (⟨.rolling, "", .delete res, reply, landed⟩ :: past) :=
      (DroppedLast.of_none hnone).silent (written_eq_none rfl)
    cases reply with
    | error failure => exact hdeleted
    | ok value =>
      refine Along.drop fun reply landed' _ => ⟨trivial, ?_⟩
      cases hlanded : landed' with
      | true => exact .drop (by rw [Event.written, if_pos rfl, Request.written, if_pos rfl])
      | false => exact hdeleted.silent rfl

/-- The row was marked at the start of the node's compensation, and has not been written since. -/
def OnlyMarked (nodeId : String) (events : List Event) : Prop :=
  ∃ later marked begun between, events = later ++ marked :: begun :: between ∧
    marked.Writes nodeId ∧ begun.Begins nodeId ∧ ∀ event ∈ later, event.written nodeId = none

/-- The row is the one of a re-create. -/
def Recreated (run : RunContext) (nodeId : String) (events : List Event) : Prop :=
  ∃ row newer created older, events = newer ++ created :: older ∧ run.Recreates row created ∧
    ∀ start, rowAfter nodeId start events = some row

/-- The row has not been written. -/
def Unwritten (nodeId : String) (events : List Event) : Prop :=
  ∀ event ∈ events, event.written nodeId = none

/-- What the undo of a delete half may make of the row. -/
def Redone (run : RunContext) (nodeId : String) (events : List Event) : Prop :=
  Unwritten nodeId events ∨ OnlyMarked nodeId events ∨ Recreated run nodeId events

theorem Unwritten.nil : Unwritten nodeId [] := List.forall_mem_nil _

theorem Unwritten.silent (hunwritten : Unwritten nodeId events)
    (hsilent : event.written nodeId = none) : Unwritten nodeId (event :: events) :=
  List.forall_mem_cons.mpr ⟨hsilent, hunwritten⟩

theorem OnlyMarked.silent (hmarked : OnlyMarked nodeId events)
    (hsilent : event.written nodeId = none) : OnlyMarked nodeId (event :: events) := by
  obtain ⟨later, marked, begun, between, rfl, hwrites, hbegins, hlater⟩ := hmarked
  exact ⟨event :: later, marked, begun, between, rfl, hwrites, hbegins,
    List.forall_mem_cons.mpr ⟨hsilent, hlater⟩⟩

theorem Redone.silent {run : RunContext} (hredone : Redone run nodeId events)
    (hsilent : event.written nodeId = none) : Redone run nodeId (event :: events) := by
  rcases hredone with hnone | hmarked | ⟨row, newer, created, older, hevents, hcreated, hrow⟩
  · exact .inl (hnone.silent hsilent)
  · exact .inr (.inl (hmarked.silent hsilent))
  · refine .inr (.inr ⟨row, event :: newer, created, older, by rw [hevents]; rfl, hcreated, ?_⟩)
    intro start
    rw [rowAfter, hsilent]
    exact hrow start

/-- The mark of a compensation that has just begun. -/
theorem InSaga.marksOnly (run : RunContext) {rows : Except Failure StateGraph}
    (hkeyed : ∀ read, rows = .ok read → read.Keyed) {landed : Bool}
    (hpast : Unwritten nodeId events) :
    InSaga (RunContext.markFrom rows nodeId)
      (⟨.rolling, "", .memory (.rolledBack nodeId), (), landed⟩ :: events)
      fun past _ => Redone run nodeId past := by
  have hbegun : Redone run nodeId
      (⟨.rolling, "", .memory (.rolledBack nodeId), (), landed⟩ :: events) :=
    .inl (hpast.silent (written_eq_none rfl))
  cases rows with
  | error failure =>
    exact InSaga.memory fun landed' => hbegun.silent (written_eq_none rfl)
  | ok rows =>
    rw [RunContext.markFrom, markStale_some]
    refine InSaga.noted ?_ fun past landed' hredone => hredone.silent (written_eq_none rfl)
    split
    · exact hbegun
    next row hrow =>
      refine Along.put fun reply landed' _ => ⟨trivial, ?_⟩
      cases landed' with
      | false => exact hbegun.silent rfl
      | true =>
        refine .inr (.inl ⟨[], _, _, events, rfl, ⟨rfl, { row with inputHash := noInputHash }, ?_⟩,
          ⟨rfl, rfl⟩, List.forall_mem_nil _⟩)
        rw [Event.written, if_pos rfl, Request.written, if_pos (hkeyed rows rfl nodeId row hrow)]

/-- The undo of a delete half leaves the row unwritten, marked only, or re-created. -/
theorem compensate_delete (run : RunContext) {rows : Except Failure StateGraph}
    (hkeyed : ∀ read, rows = .ok read → read.Keyed) (old : Resource) {prior : StateNode}
    (hprior : prior.id = nodeId) :
    InSaga (run.compensate rows nodeId (.delete old prior)) [] fun past _ =>
      Redone run nodeId past := by
  refine Along.bind (Along.leaseLost fun found landed _ => ⟨trivial, ?_⟩)
  have hlook : Unwritten nodeId [⟨.rolling, "", .look, found, landed⟩] :=
    Unwritten.nil.silent (written_eq_none rfl)
  dsimp only
  split
  · exact InSaga.memory fun landed' => .inl (hlook.silent (written_eq_none rfl))
  refine Along.bind (InSaga.memory fun landed' => ?_)
  refine Along.bind ((InSaga.marksOnly run hkeyed hlook).mono fun past outcome hmarked => ?_)
  cases outcome with
  | error failure => exact hmarked
  | ok value =>
    refine InSaga.noted ?_ fun past landed' hredone => hredone.silent (written_eq_none rfl)
    refine Along.bind (Along.create fun reply landed _ => ⟨trivial, ?_⟩)
    have hcreated : Redone run nodeId (⟨.rolling, "", .create old, reply, landed⟩ :: past) :=
      hmarked.silent (written_eq_none rfl)
    cases reply with
    | error failure => exact hcreated
    | ok recreated =>
      refine Along.put fun reply landed' _ => ⟨trivial, ?_⟩
      cases landed' with
      | false => exact hcreated.silent rfl
      | true =>
        have hwritten : Event.written ⟨.rolling, "", .put (run.restored prior old recreated), reply,
            true⟩ nodeId = some (some (run.restored prior old recreated)) := by
          rw [Event.written, if_pos rfl, Request.written]
          exact if_pos hprior
        refine .inr (.inr ⟨run.restored prior old recreated, [_], _, past, rfl,
          ⟨"", old, recreated, landed, rfl, rfl⟩, fun start => ?_⟩)
        rw [rowAfter, hwritten]
        rfl

end

/-! ## The whole rollback -/

section

variable {run : RunContext} {nodeId : String} {start : Option StateNode}
variable {newer older events : List Event}

theorem rowAfter_append : rowAfter nodeId start (newer ++ older) =
    rowAfter nodeId (rowAfter nodeId start older) newer := by
  induction newer with
  | nil => rfl
  | cons event newer ih => rw [List.cons_append, rowAfter, rowAfter, ih]

theorem rowAfter_unwritten (hunwritten : Unwritten nodeId events) :
    rowAfter nodeId start events = start := by
  induction events with
  | nil => rfl
  | cons event events ih =>
    obtain ⟨hsilent, hrest⟩ := List.forall_mem_cons.mp hunwritten
    rw [rowAfter, hsilent]
    exact ih hrest

/-- A row that is dropped, and never put back, is gone. -/
theorem rowAfter_dropped
    (honly : ∀ event ∈ events, event.written nodeId = none ∨ event.written nodeId = some none)
    (hdrop : ∃ event ∈ events, event.written nodeId = some none) :
    rowAfter nodeId start events = none := by
  induction events with
  | nil => simp at hdrop
  | cons event events ih =>
    obtain ⟨hhere, hrest⟩ := List.forall_mem_cons.mp honly
    rw [rowAfter]
    rcases hhere with hsilent | hdropped
    · rw [hsilent]
      refine ih hrest ?_
      obtain ⟨dropped, hmem, hdropped⟩ := hdrop
      rcases List.mem_cons.mp hmem with rfl | hmem
      · rw [hsilent] at hdropped
        cases hdropped
      · exact ⟨dropped, hmem, hdropped⟩
    · rw [hdropped]
      rfl

/-- The row is the one of a create later than every drop of it. -/
def Renewed (run : RunContext) (nodeId : String) (start : Option StateNode) (events : List Event) :
    Prop :=
  ∃ row newer created older, events = newer ++ created :: older ∧ run.Recreates row created ∧
    (∀ event ∈ newer, event.written nodeId ≠ some none) ∧
    rowAfter nodeId start events = some row

/-- The row was marked after a drop of it, and has not been written since. -/
def MarkedAfterDrop (nodeId : String) (events : List Event) : Prop :=
  ∃ later marked begun between dropped older,
    events = later ++ marked :: begun :: between ++ dropped :: older ∧
      dropped.written nodeId = some none ∧ begun.Begins nodeId ∧ marked.Writes nodeId ∧
      Unwritten nodeId later

/-- What the compensations left to run are: those of one node, if there are two, end with that of
its delete half, and none is a companion's. -/
structure UndoShape (todo : List (String × Undo)) : Prop where
  pairs : todo.Pairwise fun later earlier =>
    later.1 = earlier.1 → ¬ later.2.IsDelete ∧ earlier.2.IsDelete
  undoOf : ∀ compensation ∈ todo, compensation.2.Of compensation.1
  named : ∀ compensation ∈ todo, '~' ∉ compensation.1.toList

/-- Where a dropped row stands while the compensations `todo` are left. -/
def Settled (run : RunContext) (rows : String → Option StateNode) (todo : List (String × Undo))
    (events : List Event) : Prop :=
  ∀ nodeId, (∃ event ∈ events, event.written nodeId = some none) →
    (∀ undo, (nodeId, undo) ∈ todo → undo.IsDelete) ∧
      (rowAfter nodeId (rows nodeId) events = none ∨
        (∀ undo, (nodeId, undo) ∉ todo) ∧
          (Renewed run nodeId (rows nodeId) events ∨ MarkedAfterDrop nodeId events))

end

section

variable {run : RunContext} {rows : String → Option StateNode} {nodeId : String} {undo : Undo}
variable {todo : List (String × Undo)} {newer past : List Event}

/-- One compensation settles its own node's row, and leaves the others as they stood. -/
theorem Settled.compensate (hsettled : Settled run rows ((nodeId, undo) :: todo) past)
    (hshape : UndoShape ((nodeId, undo) :: todo))
    (hmay : ∀ event ∈ newer, undo.May nodeId event.request)
    (hcreate : undo.IsCreate → DroppedLast nodeId newer)
    (hdelete : undo.IsDelete → Redone run nodeId newer) :
    Settled run rows todo (newer ++ past) := by
  have hpairs := (List.pairwise_cons.mp hshape.pairs).1
  have hnodrop : ¬ undo.IsCreate → ∀ event ∈ newer, event.written nodeId ≠ some none := by
    intro hother event hmem hdrop
    rw [Event.written] at hdrop
    split at hdrop
    · exact hother ((hmay event hmem).1 hdrop)
    · cases hdrop
  intro other hdropped
  by_cases hsame : other = nodeId
  · subst hsame
    have hpast : (∃ event ∈ past, event.written other = some none) → undo.IsDelete ∧
        rowAfter other (rows other) past = none := by
      intro hdropped
      obtain ⟨hdeletes, hrow⟩ := hsettled other hdropped
      refine ⟨hdeletes undo (List.mem_cons_self ..), hrow.resolve_right fun h => ?_⟩
      exact h.1 undo (List.mem_cons_self ..)
    by_cases hisCreate : undo.IsCreate
    · -- The row was there before, so it is this compensation that dropped it.
      have hnew : ∃ event ∈ newer, event.written other = some none := by
        obtain ⟨event, hmem, hdrop⟩ := hdropped
        rcases List.mem_append.mp hmem with hmem | hmem
        · exact ⟨event, hmem, hdrop⟩
        · obtain ⟨hisDelete, -⟩ := hpast ⟨event, hmem, hdrop⟩
          cases undo <;> first | exact hisCreate.elim | exact hisDelete.elim
      refine ⟨fun earlier hmem => (hpairs _ hmem rfl).2, .inl ?_⟩
      rw [rowAfter_append]
      exact hcreate hisCreate hnew _
    · -- The row was dropped before, and this is the undo of the node's delete half.
      obtain ⟨event, hmem, hdrop⟩ := hdropped
      have hold : event ∈ past := (List.mem_append.mp hmem).resolve_left fun hnew =>
        hnodrop hisCreate event hnew hdrop
      obtain ⟨hisDelete, hrow⟩ := hpast ⟨event, hold, hdrop⟩
      have hgone : ∀ earlier, (other, earlier) ∉ todo := fun earlier hmem =>
        (hpairs _ hmem rfl).1 hisDelete
      refine ⟨fun earlier hmem => (hgone earlier hmem).elim, ?_⟩
      rcases hdelete hisDelete with hunwritten | hmarked | hcreated
      · rw [rowAfter_append, rowAfter_unwritten hunwritten]
        exact .inl hrow
      · obtain ⟨later, marked, begun, between, rfl, hwrites, hbegins, hlater⟩ := hmarked
        obtain ⟨middle, older, rfl⟩ := List.append_of_mem hold
        exact .inr ⟨hgone, .inr ⟨later, marked, begun, between ++ middle, event, older, by simp,
          hdrop, hbegins, hwrites, hlater⟩⟩
      · obtain ⟨row, front, created, older, rfl, hcreated, hrestored⟩ := hcreated
        refine .inr ⟨hgone, .inl ⟨row, front, created, older ++ past, by simp, hcreated, ?_, ?_⟩⟩
        · exact fun event hmem => hnodrop hisCreate event (List.mem_append_left _ hmem)
        · rw [rowAfter_append]
          exact hrestored _
  · have honly : ∀ event ∈ newer, event.written other = none ∨
        (event.written other = some none ∧ other = cbdCompanionId nodeId) := by
      intro event hmem
      rw [Event.written]
      split
      · exact ((hmay event hmem).2 other hsame).imp_right fun h => ⟨h.1, h.2.1⟩
      · exact .inl rfl
    by_cases hnew : ∃ event ∈ newer, event.written other = some none
    · -- The companion's row: no compensation is its own.
      obtain ⟨event, hmem, hdrop⟩ := hnew
      obtain ⟨-, hcompanion⟩ := (honly event hmem).resolve_left
        fun hsilent => absurd (hsilent.symm.trans hdrop) (Option.some_ne_none _).symm
      refine ⟨fun earlier hearlier => ?_, .inl ?_⟩
      · exact absurd hcompanion.symm
          (companion_ne (hshape.named _ (List.mem_cons_of_mem _ hearlier)) nodeId)
      · rw [rowAfter_append]
        exact rowAfter_dropped (fun event hmem => (honly event hmem).imp_right (·.1))
          ⟨event, hmem, hdrop⟩
    · have hunwritten : Unwritten other newer := fun event hmem =>
        (honly event hmem).resolve_right fun h => hnew ⟨event, hmem, h.1⟩
      obtain ⟨event, hmem, hdrop⟩ := hdropped
      have hold : event ∈ past := (List.mem_append.mp hmem).resolve_left fun h =>
        hnew ⟨event, h, hdrop⟩
      obtain ⟨hdeletes, hrow⟩ := hsettled other ⟨event, hold, hdrop⟩
      refine ⟨fun earlier h => hdeletes earlier (List.mem_cons_of_mem _ h), ?_⟩
      rcases hrow with hrow | ⟨hgone, hrow⟩
      · rw [rowAfter_append, rowAfter_unwritten hunwritten]
        exact .inl hrow
      refine .inr ⟨fun earlier h => hgone earlier (List.mem_cons_of_mem _ h), ?_⟩
      rcases hrow with ⟨row, front, created, older, hpast, hcreated, hfront, hrow⟩ |
        ⟨later, marked, begun, between, dropped, older, hpast, hdropped, hbegins, hwrites, hlater⟩
      · refine .inl ⟨row, newer ++ front, created, older, by simp [hpast], hcreated, ?_, ?_⟩
        · intro event hmem
          rcases List.mem_append.mp hmem with hmem | hmem
          · rw [hunwritten event hmem]
            rintro ⟨⟩
          · exact hfront event hmem
        · rw [rowAfter_append, rowAfter_unwritten hunwritten]
          exact hrow
      · refine .inr ⟨newer ++ later, marked, begun, between, dropped, older, by simp [hpast],
          hdropped, hbegins, hwrites, ?_⟩
        intro event hmem
        rcases List.mem_append.mp hmem with hmem | hmem
        · exact hunwritten event hmem
        · exact hlater event hmem

/-- What one compensation does, whatever came before it. -/
theorem InSaga.compensate {read : Except Failure StateGraph}
    (hkeyed : ∀ found, read = .ok found → found.Keyed) (hof : undo.Of nodeId) :
    InSaga (run.compensate read nodeId undo) [] fun events _ =>
      (∀ event ∈ events, undo.May nodeId event.request) ∧
        (undo.IsCreate → DroppedLast nodeId events) ∧ (undo.IsDelete → Redone run nodeId events) := by
  have hmay : InSaga (run.compensate read nodeId undo) [] fun events _ =>
      ∀ event ∈ events, undo.May nodeId event.request :=
    Along.of_only (may_compensate run hkeyed hof)
      (fun _ _ _ _ hasked _ hpast => List.forall_mem_cons.mpr ⟨hasked, hpast⟩)
      (fun _ _ => trivial) (List.forall_mem_nil _)
  refine Along.and hmay (Along.and ?_ ?_)
  · cases undo with
    | create res => exact (compensate_create run hkeyed res).mono fun _ _ hlast _ => hlast
    | _ => exact hmay.mono fun _ _ _ hcreate => hcreate.elim
  · cases undo with
    | delete old prior => exact (compensate_delete run hkeyed old hof).mono fun _ _ hredone _ => hredone
    | _ => exact hmay.mono fun _ _ _ hdelete => hdelete.elim

theorem InSaga.compensateAll {read : Except Failure StateGraph}
    (hkeyed : ∀ found, read = .ok found → found.Keyed) (hshape : UndoShape todo)
    (hsettled : Settled run rows todo past) :
    InSaga (run.compensateAll read todo) past fun past outcome =>
      outcome = .ok () → Settled run rows [] past := by
  induction todo generalizing past with
  | nil => exact fun _ => hsettled
  | cons compensation todo ih =>
    obtain ⟨nodeId, undo⟩ := compensation
    have hrest : UndoShape todo := ⟨(List.pairwise_cons.mp hshape.pairs).2,
      fun other hmem => hshape.undoOf other (List.mem_cons_of_mem _ hmem),
      fun other hmem => hshape.named other (List.mem_cons_of_mem _ hmem)⟩
    have hone : InSaga (run.compensate read nodeId undo) ([] ++ past) fun after _ =>
        Settled run rows todo after := by
      refine Along.shift ((InSaga.compensate hkeyed (hshape.undoOf _ (List.mem_cons_self ..))).mono ?_)
      rintro events outcome ⟨hmay, hcreate, hdelete⟩
      exact hsettled.compensate hshape hmay hcreate hdelete
    refine Along.bind (hone.mono fun after outcome hafter => ?_)
    cases outcome with
    | ok value => exact ih hrest hafter
    | error failure => exact fun h => nomatch h

/-- The run's memory, when it is read, holds the undos. -/
def SeesUndos (undos : List (String × Undo)) : (request : Request) → request.Reply → Prop
  | .look, found => found.1.compensations = undos
  | _, _ => True

/-- **A rollback settles every row it drops.** -/
theorem rollBack_settled (hshape : UndoShape todo) :
    Along .rolling "" (fun event => event.Sound ∧ SeesUndos todo event.request event.reply)
      (fun _ => True) run.rollBack [] fun past outcome =>
        outcome = .ok () → Settled run rows [] past := by
  have hquiet : ∀ {events : List Event} {left : List (String × Undo)},
      (∀ event ∈ events, ∀ other, event.written other = none) → Settled run rows left events := by
    intro events left hsilent other ⟨event, hmem, hdrop⟩
    rw [hsilent event hmem other] at hdrop
    cases hdrop
  refine Along.bind (Along.leaseLost fun found landed _ => ⟨trivial, ?_⟩)
  have hfirst : ∀ event ∈ [(⟨.rolling, "", .look, found, landed⟩ : Event)],
      ∀ other, event.written other = none :=
    List.forall_mem_cons.mpr ⟨fun _ => written_eq_none rfl, List.forall_mem_nil _⟩
  dsimp only
  split
  · exact fun _ => hquiet hfirst
  refine Along.bind (Along.look fun memory landed' hassume => ⟨trivial, ?_⟩)
  have hsecond : ∀ event ∈ [(⟨.rolling, "", .look, memory, landed'⟩ : Event),
      ⟨.rolling, "", .look, found, landed⟩], ∀ other, event.written other = none :=
    List.forall_mem_cons.mpr ⟨fun _ => written_eq_none rfl, hfirst⟩
  have hundos : memory.1.compensations = todo := hassume.2
  dsimp only
  rw [hundos]
  have hafter : ∀ {read : Except Failure StateGraph} {events : List Event},
      (∀ found, read = .ok found → found.Keyed) →
      (∀ event ∈ events, ∀ other, event.written other = none) →
      Along .rolling "" (fun event => event.Sound ∧ SeesUndos todo event.request event.reply)
        (fun _ => True) (run.compensateAll read todo) events fun past outcome =>
          outcome = .ok () → Settled run rows [] past :=
    fun hkeyed hsilent => (InSaga.compensateAll hkeyed hshape (hquiet hsilent)).assuming
      fun _ hassume => hassume.1
  cases todo with
  | nil =>
    have hkeyed : ∀ found, (.ok ∅ : Except Failure StateGraph) = .ok found → found.Keyed := by
      intro found hfound nodeId row hrow
      cases hfound
      simp at hrow
    exact hafter hkeyed hsecond
  | cons compensation todo =>
    intro reply landed'' hassume'
    refine ⟨trivial, ?_⟩
    have hthird : ∀ event ∈ [(⟨.rolling, "", .load, reply, landed''⟩ : Event),
        ⟨.rolling, "", .look, memory, landed'⟩, ⟨.rolling, "", .look, found, landed⟩],
        ∀ other, event.written other = none :=
      List.forall_mem_cons.mpr ⟨fun _ => written_eq_none rfl, hsecond⟩
    cases reply with
    | error failure => exact hafter nofun hthird
    | ok found =>
      have hkeyed : ∀ other, (.ok found : Except Failure StateGraph) = .ok other → other.Keyed := by
        intro other hother
        cases hother
        exact hassume'.1.2
      exact hafter hkeyed hthird

end

/-! ## The rollbacks of a run -/

namespace RunContext

variable {run : RunContext} {cloud : Cloud} {state : RunState}

/-- What holds of each element and those after it holds pairwise. -/
theorem pairwise_of_splits {α : Type} {related : α → α → Prop} {items : List α}
    (hsplits : ∀ newer item older, items = newer ++ item :: older →
      ∀ other ∈ older, related item other) : items.Pairwise related := by
  induction items with
  | nil => exact .nil
  | cons item items ih =>
    refine List.pairwise_cons.mpr ⟨hsplits [] item items rfl, ih fun newer other older heq => ?_⟩
    exact hsplits (item :: newer) other older (by rw [heq]; rfl)

/-- What lies before an element of the list but not after it lies before any such split. -/
theorem mem_before {α : Type} {newer newer' older older' : List α} {first other : α}
    (hsplit : newer ++ first :: older = newer' ++ other :: older') (hother : other ∉ newer)
    (hne : first ≠ other) : first ∈ newer' := by
  rcases List.append_eq_append_iff.mp hsplit with ⟨middle, rfl, hrest⟩ | ⟨middle, rfl, hrest⟩
  · cases middle with
    | nil => exact absurd (List.cons.inj hrest).1 hne
    | cons head middle =>
      rw [(List.cons.inj hrest).1]
      simp
  · cases middle with
    | nil => exact absurd (List.cons.inj hrest).1.symm hne
    | cons head middle =>
      rw [(List.cons.inj hrest).1] at hother
      simp at hother

theorem Logged.undoShape (hlogged : run.Logged cloud state) :
    UndoShape (undosOf state.world.log) := by
  have hmember : ∀ compensation ∈ undosOf state.world.log,
      run.Recordable compensation.1 compensation.2 :=
    fun _ => hlogged.recordable fun _ => id
  refine ⟨pairwise_of_splits ?_, fun compensation hmem => ?_, fun compensation hmem => ?_⟩
  · rintro newer ⟨nodeId, undo⟩ older hundos ⟨other, earlier⟩ hearlier rfl
    obtain ⟨⟨-, hforward⟩, -, old, prior, rfl, -⟩ := hlogged.shape hundos hearlier
    refine ⟨fun hdelete => ?_, trivial⟩
    cases undo <;> first | exact hdelete.elim | exact hforward.elim
  · obtain ⟨nodeId, undo⟩ := compensation
    rcases hmember _ hmem with ⟨-, old, prior, rfl, hprior⟩ | ⟨-, hforward⟩
    · exact run.keyed nodeId prior hprior
    · cases undo with
      | create res => trivial
      | delete old prior => exact hforward.elim
      | update old prior priorOutputs => exact run.keyed nodeId prior hforward
      | cbdCreate new prior => exact run.keyed nodeId prior hforward
      | restoreRow prior => exact run.keyed nodeId prior hforward
      | replace new old row =>
        obtain ⟨prior, refDigests, hprior, rfl⟩ := hforward
        exact run.keyed nodeId prior hprior
  · exact run.named _ ((hmember _ hmem).elim (·.1) (·.1))

/-- The saga sees the undos the passes recorded. -/
theorem Logged.sees (hlogged : run.Logged cloud state) {newer older before : List Event}
    {event : Event} (hlog : state.world.log = newer ++ event :: older ++ before)
    (hsaga : ∀ other ∈ newer ++ event :: older, other.stage = .rolling) :
    SeesUndos (undosOf state.world.log) event.request event.reply := by
  obtain ⟨stage, node, request, reply, landed⟩ := event
  cases request with
  | look =>
    have hsplit : state.world.log = newer ++ ⟨stage, node, .look, reply, landed⟩ :: (older ++ before) := by
      simp [hlog]
    have hreply := hlogged.look hsplit
    have hnone : ∀ event ∈ state.world.log, event.stage = .rolling → event.recorded = none := by
      intro event hmem hstage
      by_contra hrecorded
      obtain ⟨⟨nodeId, undo⟩, hundo⟩ := Option.ne_none_iff_exists'.mp hrecorded
      obtain ⟨-, -, ⟨hother, -⟩ | ⟨hother, -⟩⟩ := hlogged.recorded hmem hundo
      all_goals
        rw [hstage] at hother
        cases hother
    have hquiet : ∀ events, (∀ event ∈ events, event ∈ state.world.log ∧ event.stage = .rolling) →
        undosOf events = [] := by
      intro events hevents
      refine List.filterMap_eq_nil_iff.mpr fun event hmem => ?_
      exact hnone event (hevents event hmem).1 (hevents event hmem).2
    have hundos : undosOf state.world.log = undosOf before := by
      rw [hlog, undosOf, List.filterMap_append]
      change undosOf _ ++ _ = _
      rw [hquiet _ fun event hmem => ⟨hlog ▸ List.mem_append_left _ hmem, hsaga event hmem⟩]
      rfl
    change reply.1.compensations = _
    rw [← hreply, replay_compensations, hundos, undosOf, List.filterMap_append]
    · change undosOf older ++ _ ++ [] = _
      rw [hquiet, List.nil_append, List.append_nil]
      · rfl
      · intro event hmem
        have hin : event ∈ newer ++ ⟨stage, node, .look, reply, landed⟩ :: older := by simp [hmem]
        exact ⟨hlog ▸ List.mem_append_left _ hin, hsaga event hin⟩
    · intro event hmem
      exact hlogged.sound event (hsplit ▸ by simp [List.mem_append.mp hmem])
  | _ => trivial

theorem Reaches.complete (hreach : run.Reaches cloud state) {nodeId : String} {stage : Stage}
    (hstage : state.stage = stage) (hdone : (state.tasks.tasks nodeId).done) :
    run.Complete stage nodeId state.world.log := by
  subst hstage
  have htask := hreach.logged.tasks nodeId
  rw [Schedule.done_iff.mp hdone] at htask
  exact htask

/-- **A rollback that is over resurrects no row**, as long as each compensation that marks a row
an earlier one dropped gets its own write of that row through. -/
theorem rollback_drops_rows (hreach : run.Reaches cloud state)
    (hover : run.Complete .rolling "" state.world.log)
    (hwritten : MarkedRowsWritten state.world) : run.NoResurrection state.world := by
  have hlogged := hreach.logged
  obtain ⟨before, hlog, hbefore⟩ := hlogged.rolling
  have hstage : ∀ event ∈ entries .rolling "" state.world.log, event.stage = .rolling :=
    fun event hmem => (mem_entries.mp hmem).2.1
  have hassume : ∀ event ∈ entries .rolling "" state.world.log,
      event.Sound ∧ SeesUndos (undosOf state.world.log) event.request event.reply := by
    intro event hmem
    obtain ⟨newer, older, hsplit⟩ := List.append_of_mem hmem
    refine ⟨hlogged.sound event (mem_entries.mp hmem).1, ?_⟩
    exact hlogged.sees (hsplit ▸ hlog) (hsplit ▸ hstage)
  have hsettled : Settled run
      (fun nodeId => rowAfter nodeId run.prior[nodeId]? before) []
      (entries .rolling "" state.world.log) :=
    ((rollBack_settled hlogged.undoShape).residual trivial hover hassume).2 rfl
  intro nodeId newer dropped older row hsplit hdrops hrow
  have hmem : dropped ∈ entries .rolling "" state.world.log := by
    have hin : dropped ∈ state.world.log := hsplit ▸ by simp
    rw [hlog] at hin
    exact (List.mem_append.mp hin).resolve_right fun h => hbefore dropped h hdrops.1
  obtain ⟨-, hcases⟩ := hsettled nodeId ⟨dropped, hmem, hdrops.2⟩
  rw [hlogged.rows, hlog, rowAfter_append] at hrow
  rcases hcases with hgone | ⟨-, ⟨found, front, created, back, hseg, hcreated, hfront, hfound⟩ |
    ⟨later, marked, begun, between, earlier, back, hseg, hearlier, hbegins, hwrites, hlater⟩⟩
  · exact nomatch hgone.symm.trans hrow
  · obtain rfl : found = row := Option.some.inj (hfound.symm.trans hrow)
    have hsame : front ++ created :: (back ++ before) = newer ++ dropped :: older := by
      rw [← hsplit]
      conv_rhs => rw [hlog, hseg]
      simp
    refine ⟨created, mem_before hsame (fun h => hfront dropped h hdrops.2) ?_, hcreated⟩
    intro hdropped
    subst hdropped
    obtain ⟨node, old, outputs, landed, rfl, -⟩ := hcreated
    have hdropped := hdrops.2
    cases landed <;> cases hdropped
  · obtain ⟨written, hin, hwrite⟩ := hwritten nodeId later marked begun between earlier
      (back ++ before) (by conv_lhs => rw [hlog, hseg]
                           simp)
      ⟨hstage earlier (hseg ▸ by simp), hearlier⟩ hbegins hwrites
    obtain ⟨-, written, hwrite⟩ := hwrite
    exact nomatch (hlater _ hin).symm.trans hwrite

/-! ### A failing second compensation -/

instance (row : StateNode) (event : Event) : Decidable (run.Recreates row event) :=
  match event with
  | ⟨.rolling, _, .create old, .ok outputs, _⟩ =>
    decidable_of_iff (row.outputs = sealOutputs run.env old.type outputs) (by simp [Recreates])
  | ⟨.rolling, _, .create _, .error _, _⟩ => .isFalse (by simp [Recreates])
  | ⟨.predelete, _, _, _, _⟩ | ⟨.forward, _, _, _, _⟩ | ⟨.destroy, _, _, _, _⟩
  | ⟨.ended, _, _, _, _⟩ => .isFalse (by simp [Recreates])
  | ⟨.rolling, _, .put _, _, _⟩ | ⟨.rolling, _, .drop _, _, _⟩ | ⟨.rolling, _, .erase _, _, _⟩
  | ⟨.rolling, _, .load, _, _⟩ | ⟨.rolling, _, .update _ _, _, _⟩ | ⟨.rolling, _, .delete _, _, _⟩
  | ⟨.rolling, _, .look, _, _⟩ | ⟨.rolling, _, .takeDelete _, _, _⟩
  | ⟨.rolling, _, .memory _, _, _⟩ => .isFalse (by rintro ⟨_, _, _, _, heq, -⟩; cases heq)

/-- Whether a dropped row of the node is there though nothing later re-created what it describes. -/
def resurrected (run : RunContext) (world : World) (nodeId : String) : Bool :=
  (List.range world.log.length).any fun index =>
    match world.log.drop index, world.rows[nodeId]? with
    | dropped :: _, some row =>
      decide (dropped.stage = .rolling ∧ dropped.written nodeId = some none) &&
        (world.log.take index).all fun event => !decide (run.Recreates row event)
    | _, _ => false

theorem not_noResurrection {world : World} {nodeId : String}
    (hrow : resurrected run world nodeId) : ¬ run.NoResurrection world := by
  intro hnone
  obtain ⟨index, -, hindex⟩ := List.any_eq_true.mp hrow
  split at hindex
  next dropped older row hdrop hfound =>
    simp only [Bool.and_eq_true, decide_eq_true_eq, List.all_eq_true, Bool.not_eq_true',
      decide_eq_false_iff_not] at hindex
    obtain ⟨event, hmem, hrecreates⟩ := hnone nodeId (world.log.take index) dropped older row
      (hdrop ▸ (List.take_append_drop index world.log).symm) hindex.1 hfound
    exact hindex.2 event hmem hrecreates
  next => cases hindex

/-- Whether each row marked after its drop was written again. -/
def marksWritten (world : World) : Bool :=
  (List.range world.log.length).all fun index =>
    match world.log.drop index with
    | ⟨_, _, .put row, _, _⟩ :: ⟨_, _, .memory (.rolledBack _), _, _⟩ :: older =>
      (older.all fun event => decide (event.written row.id ≠ some none)) ||
        (world.log.take index).any fun event =>
          decide (event.stage = .rolling ∧ (event.written row.id).any (·.isSome))
    | _ => true

theorem markedRowsWritten {world : World} (hmarks : marksWritten world) :
    MarkedRowsWritten world := by
  intro nodeId later marked begun between dropped older hlog hdrops hbegins hwrites
  have hindex := List.all_eq_true.mp hmarks later.length (by simp [hlog])
  have hdrop : world.log.drop later.length = marked :: begun :: (between ++ dropped :: older) := by
    rw [hlog, List.append_assoc, List.drop_left]
    rfl
  have htake : world.log.take later.length = later := by
    rw [hlog, List.append_assoc, List.take_left]
  obtain ⟨stage, node, request, reply, landed⟩ := marked
  obtain ⟨-, written, hwritten⟩ := hwrites
  rw [Event.written] at hwritten
  split at hwritten
  next =>
    obtain ⟨rfl, rfl⟩ := Request.written_some_iff.mp hwritten
    obtain ⟨begunStage, begunNode, begunRequest, begunReply, begunLanded⟩ := begun
    obtain ⟨-, hbegun⟩ := hbegins
    dsimp only at hbegun
    subst hbegun
    rw [hdrop, htake] at hindex
    simp only [Bool.or_eq_true, List.all_eq_true, List.any_eq_true, decide_eq_true_eq] at hindex
    rcases hindex with hnone | ⟨event, hmem, hstage, hevent⟩
    · exact absurd hdrops.2 (hnone dropped (by simp))
    · obtain ⟨found, hfound, hsome⟩ := (Option.any_eq_true _ _).mp hevent
      obtain ⟨row, rfl⟩ := Option.isSome_iff_exists.mp hsome
      exact ⟨event, hmem, hstage, row, hfound⟩
  next => cases hwritten

end RunContext

namespace Small

/-- `d` depends on `u`, and `f` on `d`, which only the config holds. -/
def chain : Desired := config [node "u" [], node "d" ["s:t:u"], node "f" ["s:t:d"]]

def chainState : StateGraph := rows [row (node "u" []) "old-u", row (node "d" ["s:t:u"]) "old-d"]

/-- Both recorded nodes are replaced, `d`'s delete half in phase 0. -/
def replaceBoth : RunContext :=
  .wire env chain (diff (diffInputs chain chainState) ["s:t:u", "s:t:d"]) chainState true
    (by decide +kernel) (diff_planned _ _)

def chainCloud : Cloud where
  resources := (∅ : Dict String Physical).insert "old-u" ⟨"t", ∅⟩ |>.insert "old-d" ⟨"t", ∅⟩
  next := 0

/-- `u` and `d` are replaced, `f` fails, and the saga undoes all but `d`'s delete half. -/
def undoneButLast : List RunAct :=
  goes "s:t:d" 5 ++ goes "s:t:u" 0 ++ [.next] ++ goes "s:t:u" 11 ++ goes "s:t:d" 7 ++
    goes "s:t:f" 3 ++ [fails "s:t:f", .next] ++ goes "" 17

end Small

/-- All of it undone, nothing is resurrected. -/
theorem rollback_drops_rows_undone : ∃ state, Small.replaceBoth.Reaches Small.chainCloud state ∧
    (∃ dropped ∈ state.world.log, dropped.Drops "s:t:d") ∧
    Small.replaceBoth.NoResurrection state.world := by
  have hrun : ((Small.replaceBoth.steps (Small.undoneButLast ++ Small.serves "" 2)
      (Small.replaceBoth.start Small.chainCloud)).any fun state =>
        decide (state.stage = .rolling) && (state.tasks.tasks "").done &&
          RunContext.marksWritten state.world && state.world.log.any fun event =>
            decide (event.stage = .rolling ∧ event.written "s:t:d" = some none)) = true := by
    decide +kernel
  obtain ⟨state, hsteps, hstate⟩ := (Option.any_eq_true _ _).mp hrun
  simp only [Bool.and_eq_true, decide_eq_true_eq, List.any_eq_true] at hstate
  obtain ⟨⟨⟨hstage, hdone⟩, hmarks⟩, hdropped⟩ := hstate
  have hreach : Small.replaceBoth.Reaches Small.chainCloud state := ⟨_, hsteps⟩
  exact ⟨state, hreach, hdropped, RunContext.rollback_drops_rows hreach
    (hreach.complete hstage hdone) (RunContext.markedRowsWritten hmarks)⟩

/-- `d`'s row is dropped with the replacement, and then written back from the rows that were read
before, while the re-create fails. -/
theorem rollback_resurrects_row : ¬ ∀ (run : RunContext) (cloud : Cloud) (state : RunState),
    run.Reaches cloud state → run.Complete .rolling "" state.world.log →
      run.NoResurrection state.world := by
  intro hall
  have hrun : ((Small.replaceBoth.steps (Small.undoneButLast ++ [Small.fails ""] ++
      Small.serves "" 1) (Small.replaceBoth.start Small.chainCloud)).any fun state =>
        decide (state.stage = .rolling) && (state.tasks.tasks "").done &&
          RunContext.resurrected Small.replaceBoth state.world "s:t:d") = true := by
    decide +kernel
  obtain ⟨state, hsteps, hstate⟩ := (Option.any_eq_true _ _).mp hrun
  simp only [Bool.and_eq_true, decide_eq_true_eq] at hstate
  have hreach : Small.replaceBoth.Reaches Small.chainCloud state := ⟨_, hsteps⟩
  exact RunContext.not_noResurrection hstate.2
    (hall _ _ state hreach (hreach.complete hstate.1.1 hstate.1.2))

end Atlantide.Executor
