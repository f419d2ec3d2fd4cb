import Atlantide.Executor.Edges
import Atlantide.Executor.Resurrection

/-! # The rows a run may write

Whatever its passes and its rollback do, a run writes and drops only the rows of the nodes its
changeset acts on, and those of the companions of its create-before-destroy REPLACEs. -/

namespace Atlantide.Executor

open Interleaving

namespace Residual

variable {stage : Stage} {nodeId : String} {α : Type} {program last : Step α}

/-- Where the program stood when it made a request. -/
theorem at_event {newer older : List Event} {event : Event}
    (hresidual : Residual stage nodeId program (newer ++ event :: older) last) :
    ∃ next, Residual stage nodeId program older (.ask event.request next) := by
  induction newer generalizing last with
  | nil =>
    rw [List.nil_append] at hresidual
    cases hresidual with
    | serve hrest reply landed => exact ⟨_, hrest⟩
  | cons head newer ih =>
    rw [List.cons_append] at hresidual
    cases hresidual with
    | serve hrest reply landed => exact ih hrest

/-- What a program meets, its residual meets, as long as it was answered as allowed. -/
theorem meets {answers : (request : Request) → request.Reply → Prop} {asks : Request → Prop}
    {goal : α → Prop} {events : List Event} (hresidual : Residual stage nodeId program events last)
    (hmeets : program.Meets answers asks goal)
    (hanswers : ∀ event ∈ events, answers event.request event.reply) :
    last.Meets answers asks goal := by
  induction hresidual with
  | start => exact hmeets
  | serve hrest reply landed ih =>
    obtain ⟨hhere, hbefore⟩ := List.forall_mem_cons.mp hanswers
    exact (ih hbefore).2 reply hhere

end Residual

/-- The update notes neither an undo nor a resource to clean up. -/
def MemoryUpdate.Plain : MemoryUpdate → Prop
  | .deferCleanup _ _ | .record _ _ => False
  | _ => True

namespace RunContext

variable (run : RunContext)

/-- The changeset has something to do for the node. -/
def Acts (nodeId : String) : Prop :=
  ∃ change, run.changes[nodeId]? = some change ∧ (change.action ≠ .noop ∨ change.stateOnly)

/-- The node's old row is to be copied to its companion's. -/
def Copies (nodeId : String) : Prop :=
  ∃ change, run.changes[nodeId]? = some change ∧ change.action = .replace ∧
    change.createBeforeDestroy

inductive Scope : String → Prop
  | own {nodeId : String} (hacts : run.Acts nodeId) : Scope nodeId
  | companion {nodeId : String} (hcopies : run.Copies nodeId) : Scope (cbdCompanionId nodeId)

/-- The passes may drop the row. -/
def Removes (nodeId : String) : Prop :=
  nodeId ∈ run.deleteIds ∨ ∃ other, run.Copies other ∧ cbdCompanionId other = nodeId

/-- The undo is one a pass may record for the node. -/
def Undoes (nodeId : String) (undo : Undo) : Prop :=
  run.Acts nodeId ∧ undo.Of nodeId ∧ (undo.IsCbdCreate → run.Copies nodeId)

/-- The request keeps to the scope, and what it notes leads to nothing outside. -/
def Proper : Request → Prop
  | .memory (.deferCleanup nodeId _) => run.Copies nodeId
  | .memory (.record nodeId undo) => run.Undoes nodeId undo
  | .erase nodeId => run.Removes nodeId
  | request => ∀ nodeId, request.written nodeId ≠ none → run.Scope nodeId

/-- What may be taken for granted of a reply, as long as the run's requests are proper. -/
def Answered : (request : Request) → request.Reply → Prop
  | .look, found => (∀ nodeId ∈ found.1.cbdDeferred, run.Copies nodeId) ∧
      ∀ compensation ∈ found.1.compensations, run.Undoes compensation.1 compensation.2
  | .takeDelete nodeId, taken => taken = true → nodeId ∈ run.deleteIds
  | .load, .ok rows => rows.Keyed
  | _, _ => True

/-- The program's requests are proper, whatever the replies. -/
abbrev Keeps {α : Type} (program : Step α) : Prop :=
  program.Meets run.Answered run.Proper fun _ => True

end RunContext

namespace RunContext

variable {run : RunContext} {α β : Type} {nodeId : String}

theorem Keeps.bind {program : Step α} {next : α → Step β} (hkeeps : run.Keeps program)
    (hnext : ∀ value, run.Keeps (next value)) : run.Keeps (program.bind next) :=
  Prog.Meets.bind hkeeps fun value _ => hnext value

theorem Keeps.compute {computed : Except Fault α} {next : α → Step β}
    (hnext : ∀ value, computed = .ok value → run.Keeps (next value)) :
    run.Keeps ((Step.compute computed).bind next) := by
  cases computed with
  | ok value => exact hnext value rfl
  | error fault => trivial

theorem Keeps.catchException {program : Step α} {handler : Failure → Step α}
    (hkeeps : run.Keeps program) (hhandler : ∀ failure, run.Keeps (handler failure)) :
    run.Keeps (catchException program handler) :=
  Prog.Meets.catching hkeeps fun failure => .ite (hhandler failure) trivial

theorem keeps_put {row : StateNode} (hscope : run.Scope row.id) : run.Keeps (Step.put row) := by
  refine .of_only (Step.put_only fun other hwritten => ?_)
  rw [Request.written] at hwritten
  split at hwritten
  next hid => exact hid ▸ hscope
  next => exact (hwritten rfl).elim

theorem keeps_drop (hscope : run.Scope nodeId) : run.Keeps (Step.drop nodeId) := by
  refine .of_only (Step.drop_only fun other hwritten => ?_)
  rw [Request.written] at hwritten
  split at hwritten
  next hid => exact hid ▸ hscope
  next => exact (hwritten rfl).elim

theorem keeps_erase (hremoves : run.Removes nodeId) : run.Keeps (Step.erase nodeId) :=
  .of_only (Step.erase_only hremoves)

theorem keeps_delete {res : Resource} : run.Keeps (Step.delete res) :=
  .of_only (Step.delete_only fun _ hwritten => (hwritten rfl).elim)

theorem keeps_create {res : Resource} : run.Keeps (Step.create res) :=
  .of_only (Step.create_only fun _ hwritten => (hwritten rfl).elim)

theorem keeps_update {prior : Dict String Value} {res : Resource} :
    run.Keeps (Step.update prior res) :=
  .of_only (Step.update_only fun _ hwritten => (hwritten rfl).elim)

theorem keeps_look : run.Keeps Step.look :=
  .of_only (Step.look_only fun _ hwritten => (hwritten rfl).elim)

theorem keeps_leaseLost : run.Keeps Step.leaseLost :=
  .of_only (Step.leaseLost_only fun _ hwritten => (hwritten rfl).elim)

theorem keeps_memory {update : MemoryUpdate} (hproper : run.Proper (.memory update)) :
    run.Keeps (Step.memory update) :=
  .of_only (Step.memory_only hproper)

theorem keeps_note {update : MemoryUpdate} (hplain : update.Plain) :
    run.Keeps (Step.memory update) := by
  refine keeps_memory ?_
  cases update with
  | deferCleanup other old => exact hplain.elim
  | record other undo => exact hplain.elim
  | _ => exact fun _ hwritten => (hwritten rfl).elim

theorem keeps_record {undo : Undo} (hundoes : run.Undoes nodeId undo) :
    run.Keeps (run.record nodeId undo) :=
  .ite (keeps_memory hundoes) trivial

/-- The row that is marked is the one read under its own id. -/
theorem keeps_markRow {rows : StateGraph} (hkeyed : rows.Keyed) (hscope : run.Scope nodeId) :
    run.Keeps (match rows[nodeId]? with
      | none => .ret ()
      | some row => Step.put { row with inputHash := noInputHash }) := by
  split
  · trivial
  next row hrow =>
    obtain rfl : row.id = nodeId := hkeyed nodeId row hrow
    exact keeps_put hscope

theorem keeps_markStale (hscope : run.Scope nodeId) : run.Keeps (markStale nodeId none) := by
  refine Keeps.catchException ?_ fun _ => keeps_note trivial
  refine ⟨fun _ hwritten => (hwritten rfl).elim, fun reply hreply => ?_⟩
  cases reply with
  | error failure => trivial
  | ok rows => exact keeps_markRow hreply hscope

/-! ## Destroys -/

theorem acts_of_deleteIds (hdelete : nodeId ∈ run.deleteIds) : run.Acts nodeId := by
  obtain ⟨change, hchange, rfl⟩ := List.mem_map.mp hdelete
  obtain ⟨hmem, haction⟩ := List.mem_filter.mp hchange
  refine ⟨change, run.changes_eq_some.mpr ⟨hmem, rfl⟩, .inl ?_⟩
  rw [of_decide_eq_true haction]
  exact nofun

theorem Copies.acts (hcopies : run.Copies nodeId) : run.Acts nodeId := by
  obtain ⟨change, hchange, haction, -⟩ := hcopies
  refine ⟨change, hchange, .inl ?_⟩
  rw [haction]
  exact nofun

theorem Removes.scope (hremoves : run.Removes nodeId) : run.Scope nodeId := by
  rcases hremoves with hdelete | ⟨other, hcopies, rfl⟩
  · exact .own (acts_of_deleteIds hdelete)
  · exact .companion hcopies

theorem keeps_forget (hremoves : run.Removes nodeId) : run.Keeps (forget nodeId) :=
  Keeps.catchException (keeps_erase hremoves) fun _ =>
    (keeps_markStale hremoves.scope).bind fun _ => trivial

theorem acts_of_predeleted (hmem : nodeId ∈ run.predeleted) : run.Acts nodeId := by
  obtain ⟨change, hchange, hdestroyed⟩ := destroyed_of_predeleted hmem
  refine ⟨change, hchange, .inl fun hnoop => ?_⟩
  simp [destroyed, destroyBeforeCreate, hnoop] at hdestroyed

/-- A delete is taken only if it was planned. -/
theorem keeps_deleteNode : run.Keeps (run.deleteNode nodeId) := by
  refine ⟨fun _ hwritten => (hwritten rfl).elim, fun taken htaken => ?_⟩
  change run.Keeps (if taken then _ else _)
  split
  next htrue =>
    have hremoves : run.Removes nodeId := .inl (htaken htrue)
    split
    · trivial
    · refine Keeps.bind keeps_look fun memory => Keeps.compute fun res _ => .ite ?_ ?_
      · exact keeps_forget hremoves
      · exact Keeps.compute fun _ _ => Keeps.bind keeps_delete fun _ => keeps_forget hremoves
  next => trivial

theorem keeps_writeAhead {res : Resource} (hacts : run.Acts nodeId) :
    run.Keeps (run.writeAhead nodeId res) := by
  refine Keeps.bind keeps_look fun memory => Keeps.compute fun row hrow => ?_
  exact keeps_put ((declares_of_stateNode hrow).1 ▸ .own hacts)

theorem keeps_persist {res : Resource} (hacts : run.Acts nodeId) :
    run.Keeps (run.persist nodeId res) := by
  refine Keeps.bind keeps_look fun memory => Keeps.compute fun row hrow => ?_
  exact keeps_put ((declares_of_stateNode hrow).1 ▸ .own hacts)

theorem keeps_predeleteNode : run.Keeps (run.predeleteNode nodeId) := by
  unfold predeleteNode
  split_ifs with hmem hdelete
  · exact keeps_deleteNode
  · unfold predestroy
    split
    · trivial
    next prior hprior =>
      have hacts := acts_of_predeleted hmem
      refine Keeps.bind keeps_look fun memory => ?_
      refine Keeps.compute fun old _ => Keeps.compute fun _ _ => Keeps.compute fun res _ => ?_
      refine (keeps_writeAhead hacts).bind fun _ => keeps_delete.bind fun _ => ?_
      exact keeps_record ⟨hacts, run.keyed nodeId prior hprior, fun hcbd => hcbd.elim⟩
  · trivial

/-! ## The forward pass -/

theorem keeps_createNode {res : Resource} (hacts : run.Acts nodeId) :
    run.Keeps (run.create nodeId res) := by
  refine (keeps_writeAhead hacts).bind fun _ => keeps_create.bind fun created => ?_
  refine Keeps.bind (keeps_note trivial) fun _ => ?_
  exact keeps_record ⟨hacts, trivial, fun hcbd => hcbd.elim⟩

theorem keeps_updateNode {res : Resource} (hacts : run.Acts nodeId) :
    run.Keeps (run.update nodeId res) := by
  refine Keeps.bind keeps_look fun memory => keeps_update.bind fun updated => ?_
  refine Keeps.bind (keeps_note trivial) fun _ => ?_
  split
  · trivial
  next prior hprior =>
    refine Keeps.compute fun old _ => Keeps.compute fun outputs _ => ?_
    exact keeps_record ⟨hacts, run.keyed nodeId prior hprior, fun hcbd => hcbd.elim⟩

theorem keeps_replaceCbd {res old : Resource} {prior : StateNode} (hcopies : run.Copies nodeId)
    (hprior : run.prior[nodeId]? = some prior) :
    run.Keeps (run.replaceCbd nodeId res old prior) := by
  refine Keeps.bind ?_ fun _ => ?_
  · refine Keeps.bind keeps_look fun memory => .ite keeps_deleteNode (.ite trivial trivial)
  refine (keeps_put (.companion hcopies)).bind fun _ => ?_
  refine (keeps_writeAhead hcopies.acts).bind fun _ => keeps_create.bind fun created => ?_
  refine Keeps.bind (keeps_note trivial) fun _ => ?_
  refine Keeps.bind (keeps_memory (show run.Copies nodeId from hcopies)) fun _ => ?_
  exact keeps_record ⟨hcopies.acts, run.keyed nodeId prior hprior, fun _ => hcopies⟩

theorem keeps_replaceDbc {res old : Resource} {prior : Option StateNode} (hacts : run.Acts nodeId)
    (hprior : ∀ row ∈ prior, run.prior[nodeId]? = some row) :
    run.Keeps (run.replaceDbc nodeId res old prior) := by
  refine Keeps.bind ?_ fun _ => keeps_create.bind fun created => ?_
  · exact .ite trivial ((keeps_writeAhead hacts).bind fun _ => keeps_delete)
  refine Keeps.bind (keeps_note trivial) fun _ => ?_
  unfold recordReplaced
  split
  · exact keeps_record ⟨hacts, trivial, fun hcbd => hcbd.elim⟩
  · split
    · trivial
    next row =>
      refine Keeps.bind keeps_look fun memory => ?_
      exact keeps_record ⟨hacts, run.keyed nodeId row (hprior row rfl), fun hcbd => hcbd.elim⟩

theorem keeps_replace {change : Change} {res : Resource} (hacts : run.Acts nodeId)
    (hcopies : change.createBeforeDestroy → run.Copies nodeId) :
    run.Keeps (run.replace nodeId change res) := by
  unfold replace
  split
  · exact keeps_replaceDbc hacts nofun
  next prior hprior =>
    refine Keeps.bind keeps_look fun memory => Keeps.compute fun old _ => ?_
    split
    next hcbd => exact keeps_replaceCbd (hcopies hcbd) hprior
    next =>
      refine keeps_replaceDbc hacts fun row hrow => ?_
      cases hrow
      exact hprior

theorem keeps_rewriteRow {prior row : StateNode} (hacts : run.Acts nodeId)
    (hprior : prior.id = nodeId) (hrow : row.id = nodeId) :
    run.Keeps (run.rewriteRow prior row) := by
  subst hprior
  have hundoes : run.Undoes prior.id (.restoreRow prior) := ⟨hacts, rfl, fun hcbd => hcbd.elim⟩
  refine (keeps_record hundoes).bind fun _ => ?_
  exact keeps_put (hrow ▸ .own hacts)

theorem keeps_applyOne {change : Change} (hacts : run.Acts nodeId)
    (hcopies : change.action = .replace → change.createBeforeDestroy → run.Copies nodeId) :
    run.Keeps (run.applyOne nodeId change) := by
  unfold applyOne recordStateOnly recordCollapsed
  split
  · split
    · split
      next prior desired hprior hdesired =>
        exact keeps_rewriteRow hacts (run.keyed nodeId prior hprior) (run.keyed nodeId prior hprior)
      next => trivial
    · split
      · trivial
      next prior hprior =>
        refine Keeps.bind keeps_look fun memory => Keeps.compute fun row hrow => ?_
        have hid := run.keyed nodeId prior hprior
        exact keeps_rewriteRow hacts hid ((declares_of_collapsedRow hrow).1.trans hid)
  · refine Keeps.compute fun wanted _ => Keeps.bind keeps_look fun memory => ?_
    refine Keeps.compute fun res _ => Keeps.compute fun _ _ => ?_
    refine Keeps.bind ?_ fun _ => keeps_persist hacts
    unfold applyChange
    split
    · exact keeps_createNode hacts
    · exact keeps_updateNode hacts
    next haction => exact keeps_replace hacts (hcopies haction)
    all_goals trivial

/-- A conditional REPLACE is what it was, or one that neither deletes nor copies any more. -/
theorem confirmed_cases {live : LiveOutputs} {change effective : Change}
    (hconfirmed : run.confirmed live nodeId change = .ok effective) :
    effective = change ∨ effective.action ≠ .replace ∧ effective.action ≠ .delete ∧
      effective.createBeforeDestroy = false := by
  unfold confirmed at hconfirmed
  split at hconfirmed
  · split at hconfirmed
    · split at hconfirmed
      · cases hconfirmed
      · dsimp only at hconfirmed
        split at hconfirmed
        · cases hconfirmed
        · cases hconfirmed
          unfold reclassify
          dsimp only
          split
          · exact .inl rfl
          · right
            dsimp only
            split <;> exact ⟨by rintro ⟨⟩, by rintro ⟨⟩, rfl⟩
    · cases hconfirmed
    · cases hconfirmed
  · cases hconfirmed

theorem keeps_applyNode : run.Keeps (run.applyNode nodeId) := by
  unfold applyNode
  split
  · trivial
  next change hchange =>
    split
    · trivial
    next hplain =>
      have hacts : run.Acts nodeId := by
        refine ⟨change, hchange, ?_⟩
        by_cases hnoop : change.action = .noop
        · by_cases honly : change.stateOnly
          · exact .inr honly
          · exact (hplain ⟨hnoop, by simp [honly]⟩).elim
        · exact .inl hnoop
      split
      · refine Keeps.bind keeps_look fun memory => ?_
        split
        next effective hconfirmed =>
          refine keeps_applyOne hacts fun haction hcbd => ?_
          rcases confirmed_cases hconfirmed with rfl | ⟨hother, -⟩
          · exact ⟨effective, hchange, haction, hcbd⟩
          · exact (hother haction).elim
        next => trivial
      · exact keeps_applyOne hacts fun haction hcbd => ⟨change, hchange, haction, hcbd⟩

theorem keeps_destroyNode : run.Keeps (run.destroyNode nodeId) := by
  refine ⟨fun _ hwritten => (hwritten rfl).elim, fun found hfound => ?_⟩
  change run.Keeps (run.destroyLooked nodeId found.1)
  unfold destroyLooked
  split
  next old hold =>
    have hcopies := hfound.1 nodeId (Std.ExtTreeMap.mem_iff_isSome_getElem?.mpr (by rw [hold]; rfl))
    refine Keeps.bind (Keeps.catchException ?_ fun failure => ?_) fun _ =>
      keeps_erase (.inr ⟨nodeId, hcopies, rfl⟩)
    · exact Keeps.compute fun _ _ => keeps_delete
    · exact Keeps.bind (keeps_note trivial) fun _ => trivial
  next => exact keeps_deleteNode

/-! ## The saga -/

theorem keeps_undo {undo : Undo} (hundoes : run.Undoes nodeId undo) :
    run.Keeps (run.undo nodeId undo) := by
  obtain ⟨hacts, hof, hcopies⟩ := hundoes
  cases undo with
  | create res => exact keeps_delete.bind fun _ => keeps_drop (.own hacts)
  | update old prior priorOutputs =>
    obtain rfl : prior.id = nodeId := hof
    exact keeps_update.bind fun _ => keeps_put (.own hacts)
  | replace new old prior =>
    obtain rfl : prior.id = nodeId := hof
    exact keeps_delete.bind fun _ => keeps_create.bind fun _ => keeps_put (.own hacts)
  | delete old prior =>
    obtain rfl : prior.id = nodeId := hof
    exact keeps_create.bind fun _ => keeps_put (.own hacts)
  | cbdCreate new prior =>
    obtain rfl : prior.id = nodeId := hof
    exact keeps_delete.bind fun _ => (keeps_put (.own hacts)).bind fun _ =>
      keeps_drop (.companion (hcopies trivial))
  | restoreRow prior =>
    obtain rfl : prior.id = nodeId := hof
    exact keeps_put (.own hacts)

theorem keeps_compensateAll {rows : Except Failure StateGraph}
    (hkeyed : ∀ found, rows = .ok found → found.Keyed) {compensations : List (String × Undo)}
    (hundoes : ∀ compensation ∈ compensations, run.Undoes compensation.1 compensation.2) :
    run.Keeps (run.compensateAll rows compensations) := by
  induction compensations with
  | nil => trivial
  | cons compensation compensations ih =>
    obtain ⟨nodeId, undo⟩ := compensation
    rw [List.forall_mem_cons] at hundoes
    refine Keeps.bind (Keeps.bind keeps_leaseLost fun lost => .ite (keeps_note trivial) ?_)
      fun _ => ih hundoes.2
    refine Keeps.bind (keeps_note trivial) fun _ => Keeps.bind ?_ fun _ =>
      Keeps.catchException (keeps_undo hundoes.1) fun _ => keeps_note trivial
    cases rows with
    | error failure => exact keeps_note trivial
    | ok rows =>
      rw [markFrom, markStale_some]
      exact Keeps.catchException (keeps_markRow (hkeyed rows rfl) (.own hundoes.1.1)) fun _ =>
        keeps_note trivial

theorem keeps_rollBack : run.Keeps run.rollBack := by
  refine Keeps.bind keeps_leaseLost fun lost => .ite trivial ?_
  refine ⟨fun _ hwritten => (hwritten rfl).elim, fun found hfound => ?_⟩
  obtain ⟨-, hundoes⟩ := hfound
  change run.Keeps ((rollbackRows found.1.compensations).bind fun rows =>
    run.compensateAll rows found.1.compensations)
  generalize found.1.compensations = compensations at hundoes
  cases compensations with
  | nil => trivial
  | cons compensation compensations =>
    refine ⟨fun _ hwritten => (hwritten rfl).elim, fun reply hreply => ?_⟩
    cases reply with
    | error failure => exact keeps_compensateAll (fun _ hfound => by cases hfound) hundoes
    | ok rows =>
      refine keeps_compensateAll (fun found hfound => ?_) hundoes
      cases hfound
      exact hreply

/-! ## Whole runs -/

theorem Proper.written {request : Request} (hproper : run.Proper request)
    (hwritten : request.written nodeId ≠ none) : run.Scope nodeId := by
  cases request with
  | memory update => exact (hwritten rfl).elim
  | erase other =>
    rw [Request.written] at hwritten
    split at hwritten
    next hid => exact hid ▸ Removes.scope hproper
    next => exact (hwritten rfl).elim
  | _ => exact hproper nodeId hwritten

variable {types : Types} {start : World} {log : List Event}

/-- A resource waits for its cleanup because a request said so. -/
theorem replay_cbdDeferred (hstart : start.memory.cbdDeferred = ∅)
    (hdeferred : nodeId ∈ (replay types start log).memory.cbdDeferred) :
    ∃ event ∈ log, ∃ old, event.request = .memory (.deferCleanup nodeId old) := by
  induction log with
  | nil =>
    rw [replay, hstart] at hdeferred
    exact (Std.ExtTreeMap.not_mem_empty hdeferred).elim
  | cons event older ih =>
    have hrest : nodeId ∈ (replay types start older).memory.cbdDeferred →
        ∃ event' ∈ event :: older, ∃ old, event'.request = .memory (.deferCleanup nodeId old) := by
      intro hmem
      obtain ⟨event', hmem', hrequest⟩ := ih hmem
      exact ⟨event', List.mem_cons_of_mem _ hmem', hrequest⟩
    rw [replay] at hdeferred
    split at hdeferred
    · cases hrequest : event.request with
      | memory update =>
        rw [hrequest] at hdeferred
        cases update with
        | deferCleanup other old =>
          by_cases hsame : other = nodeId
          · subst hsame
            exact ⟨event, List.mem_cons_self .., old, hrequest⟩
          · refine hrest ?_
            rcases Std.ExtTreeMap.mem_insert.mp hdeferred with heq | hmem
            · exact (hsame (Std.LawfulEqOrd.eq_of_compare heq)).elim
            · exact hmem
        | _ =>
          refine hrest ?_
          exact hdeferred
      | create res => rw [hrequest, World.effect] at hdeferred; split at hdeferred <;> exact hrest hdeferred
      | update prior res => rw [hrequest, World.effect] at hdeferred; split at hdeferred <;> exact hrest hdeferred
      | delete res => rw [hrequest, World.effect] at hdeferred; split at hdeferred <;> exact hrest hdeferred
      | _ => rw [hrequest] at hdeferred; exact hrest hdeferred
    · exact hrest hdeferred

/-- What is left of the planned deletes. -/
theorem mem_of_replay_deleteIds (hdelete : nodeId ∈ (replay types start log).memory.deleteIds) :
    nodeId ∈ start.memory.deleteIds := by
  induction log with
  | nil => exact hdelete
  | cons event older ih =>
    rw [replay] at hdelete
    split at hdelete
    · refine ih ?_
      cases hrequest : event.request with
      | takeDelete other =>
        rw [hrequest] at hdelete
        exact (List.mem_filter.mp hdelete).1
      | memory update => rw [hrequest] at hdelete; cases update <;> exact hdelete
      | create res => rw [hrequest, World.effect] at hdelete; split at hdelete <;> exact hdelete
      | update prior res => rw [hrequest, World.effect] at hdelete; split at hdelete <;> exact hdelete
      | delete res => rw [hrequest, World.effect] at hdelete; split at hdelete <;> exact hdelete
      | _ => rw [hrequest] at hdelete; exact hdelete
    · exact ih hdelete

variable {cloud : Cloud} {state : RunState} {stage : Stage}

theorem keeps_workOf : run.Keeps (run.workOf stage nodeId) := by
  cases stage with
  | predelete => exact keeps_predeleteNode
  | forward => exact keeps_applyNode
  | destroy => exact keeps_destroyNode
  | rolling => exact keeps_rollBack
  | ended => trivial

/-- As long as the requests were proper, what they were answered is as expected. -/
theorem Logged.answered (hlogged : run.Logged cloud state) {newer older : List Event}
    {event : Event} (hlog : state.world.log = newer ++ event :: older)
    (holder : ∀ earlier ∈ older, run.Proper earlier.request) :
    run.Answered event.request event.reply := by
  have hfits := hlogged.fits newer event older hlog
  have hsound := hlogged.sound event (by rw [hlog]; simp)
  obtain ⟨stage, other, request, reply, landed⟩ := event
  cases request with
  | look =>
    have hmemory := hlogged.look hlog
    refine ⟨fun nodeId hdeferred => ?_, fun compensation hcompensation => ?_⟩
    · rw [← hmemory] at hdeferred
      obtain ⟨earlier, hearlier, old, hrequest⟩ := replay_cbdDeferred rfl hdeferred
      have hproper := holder earlier hearlier
      rw [hrequest] at hproper
      exact hproper
    · have hsame := @replay_compensations run.env.types (run.startWorld cloud) older
        fun earlier (hearlier : earlier ∈ older) => hlogged.sound earlier (by rw [hlog]; simp [hearlier])
      rw [← hmemory, hsame] at hcompensation
      rcases List.mem_append.mp hcompensation with hundo | hnone
      · obtain ⟨earlier, hearlier, hrecorded⟩ := List.mem_filterMap.mp hundo
        have hproper := holder earlier hearlier
        unfold Event.recorded at hrecorded
        split at hrecorded
        next nodeId undo hrequest =>
          cases hrecorded
          rw [hrequest] at hproper
          exact hproper
        next => cases hrecorded
      · cases hnone
  | takeDelete nodeId =>
    intro htaken
    obtain ⟨choice, lost, log, after, hanswer⟩ := hfits
    have hreply : decide (nodeId ∈ (replay run.env.types (run.startWorld cloud) older).memory.deleteIds)
        = reply := congrArg Prod.fst hanswer
    exact mem_of_replay_deleteIds (of_decide_eq_true (hreply.trans htaken))
  | load =>
    cases reply with
    | error failure => trivial
    | ok rows => exact hsound.2
  | _ => trivial

/-- **Every request of a run keeps to its scope.** -/
theorem Logged.proper (hlogged : run.Logged cloud state) :
    ∀ event ∈ state.world.log, run.Proper event.request := by
  suffices hall : ∀ older, older <:+ state.world.log → ∀ event ∈ older,
      run.Answered event.request event.reply ∧ run.Proper event.request by
    exact fun event hmem => (hall _ (List.suffix_refl _) event hmem).2
  intro older
  induction older with
  | nil => exact fun _ event hmem => by cases hmem
  | cons event older ih =>
    intro hsuffix
    have holder := ih ((List.suffix_cons event older).trans hsuffix)
    obtain ⟨newer, hlog⟩ := hsuffix
    refine List.forall_mem_cons.mpr ⟨⟨?_, ?_⟩, holder⟩
    · exact hlogged.answered hlog.symm fun earlier hearlier => (holder earlier hearlier).2
    · obtain ⟨last, hresidual⟩ := hlogged.residual event.stage event.node
      rw [← hlog, entries_append, entries_cons_self ⟨rfl, rfl⟩] at hresidual
      obtain ⟨next, hhere⟩ := hresidual.at_event
      have hwork : run.Keeps ((run.schedule event.stage).work event.node) := by
        change run.Keeps (if _ then _ else _)
        exact .ite keeps_workOf trivial
      exact (hhere.meets hwork fun earlier hearlier =>
        (holder earlier (mem_entries.mp hearlier).1).1).1

/-- **A run leaves every row outside its scope as it was.** -/
theorem Logged.frame (hlogged : run.Logged cloud state) (hscope : ¬ run.Scope nodeId) :
    state.world.rows[nodeId]? = run.prior[nodeId]? := by
  rw [hlogged.rows]
  refine rowAfter_unwritten fun event hmem => ?_
  rw [Event.written]
  split
  · by_contra hwritten
    exact hscope ((hlogged.proper event hmem).written hwritten)
  · rfl

end RunContext

end Atlantide.Executor
