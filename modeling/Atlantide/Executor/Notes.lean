import Atlantide.Executor.Leftovers

/-! # What the work of a node calls its provider for

Which calls a node's work makes is told by its change, by what a conditional REPLACE turns out to be,
and by which planned delete it takes. Each part of the work is given the notes it leaves if it ends
well, the latest first. -/

namespace Atlantide.Executor

open Interleaving

inductive ProviderCall
  | create
  | update
  | delete
  deriving DecidableEq

def Request.call : Request → Option ProviderCall
  | .create _ => some .create
  | .update _ _ => some .update
  | .delete _ => some .delete
  | _ => none

/-- What is kept of an event: the call, the planned delete it takes, or the node whose old resource
is left to the cleanup. -/
inductive Note
  | called (call : ProviderCall)
  | took (nodeId : String)
  | deferred (nodeId : String)
  deriving DecidableEq

def Event.note : Event → Option Note
  | ⟨_, _, .create _, _, _⟩ => some (.called .create)
  | ⟨_, _, .update _ _, _, _⟩ => some (.called .update)
  | ⟨_, _, .delete _, _, _⟩ => some (.called .delete)
  | ⟨_, _, .takeDelete nodeId, taken, _⟩ => if taken = true then some (.took nodeId) else none
  | ⟨_, _, .memory (.deferCleanup nodeId _), _, _⟩ => some (.deferred nodeId)
  | _ => none

def notes (events : List Event) : List Note := events.filterMap Event.note

/-- Nothing is noted of the request. -/
def Request.Silent : Request → Prop
  | .create _ | .update _ _ | .delete _ | .takeDelete _ | .memory (.deferCleanup _ _) => False
  | _ => True

theorem Request.Silent.note {event : Event} (hsilent : event.request.Silent) :
    event.note = none := by
  obtain ⟨stage, node, request, reply, landed⟩ := event
  cases request with
  | memory update =>
    cases update with
    | deferCleanup other old => exact hsilent.elim
    | _ => rfl
  | create res => exact hsilent.elim
  | update prior res => exact hsilent.elim
  | delete res => exact hsilent.elim
  | takeDelete other => exact hsilent.elim
  | _ => rfl

section

variable {stage : Stage} {nodeId : String} {α β : Type} {told told' : List Note → Prop}

/-- If the program ends well, what is noted of it is as told. -/
def Makes (stage : Stage) (nodeId : String) (told : List Note → Prop) (program : Step α) : Prop :=
  ∀ past, Along stage nodeId Event.Sound (fun _ => True) program past fun past' outcome =>
    (∃ value, outcome = .ok value) → ∃ new, told new ∧ notes past' = new ++ notes past

theorem Makes.mono {program : Step α} (hmakes : Makes stage nodeId told program)
    (htold : ∀ new, told new → told' new) : Makes stage nodeId told' program := by
  intro past
  refine (hmakes past).mono fun past' outcome hpast' hok => ?_
  obtain ⟨new, hnew, heq⟩ := hpast' hok
  exact ⟨new, htold new hnew, heq⟩

theorem Makes.silent {program : Step α} (honly : program.Only Request.Silent) :
    Makes stage nodeId (· = []) program := by
  intro past
  refine (@Along.of_only stage nodeId _ _ _ _ _ (fun past' => notes past' = notes past) _ honly
    (fun event before _ _ hsilent _ hbefore => ?_) (fun _ _ => trivial) rfl).mono
      fun past' outcome hsame _ => ⟨[], rfl, hsame⟩
  rw [notes, List.filterMap_cons_none hsilent.note]
  exact hbefore

theorem Makes.bind {program : Step α} {next : α → Step β} (hmakes : Makes stage nodeId told program)
    (hnext : ∀ value, Makes stage nodeId told' (next value)) :
    Makes stage nodeId (fun new => ∃ older newer, told older ∧ told' newer ∧ new = newer ++ older)
      (program.bind next) := by
  intro past
  refine Along.bind ((hmakes past).mono fun past' outcome hpast' => ?_)
  cases outcome with
  | ok value =>
    obtain ⟨older, holder, heq⟩ := hpast' ⟨value, rfl⟩
    refine (hnext value past').mono fun last outcome hlast hok => ?_
    obtain ⟨newer, hnewer, heq'⟩ := hlast hok
    exact ⟨newer ++ older, ⟨older, newer, holder, hnewer, rfl⟩, by rw [heq', heq, List.append_assoc]⟩
  | error failure => exact not_ok_error

theorem Makes.after {program : Step α} {next : α → Step β} (honly : program.Only Request.Silent)
    (hnext : ∀ value, Makes stage nodeId told (next value)) :
    Makes stage nodeId told (program.bind next) := by
  refine (Makes.bind (.silent honly) hnext).mono ?_
  rintro new ⟨older, newer, rfl, hnewer, rfl⟩
  rwa [List.append_nil]

theorem Makes.before {program : Step α} {next : α → Step β} (hmakes : Makes stage nodeId told program)
    (honly : ∀ value, (next value).Only Request.Silent) :
    Makes stage nodeId told (program.bind next) := by
  refine (Makes.bind hmakes fun value => .silent (honly value)).mono ?_
  rintro new ⟨older, newer, holder, rfl, rfl⟩
  exact holder

theorem Makes.raise {failure : Failure} :
    Makes stage nodeId told (.raise failure : Step α) :=
  fun _ => not_ok_error

theorem Makes.compute {computed : Except Fault α} {next : α → Step β}
    (hnext : ∀ value, computed = .ok value → Makes stage nodeId told (next value)) :
    Makes stage nodeId told ((Step.compute computed).bind next) := by
  cases computed with
  | ok value => exact hnext value rfl
  | error fault => exact Makes.raise

theorem makes_create (res : Resource) :
    Makes stage nodeId (· = [.called .create]) (Step.create res) :=
  fun _ => Along.create fun _ _ _ => ⟨trivial, fun _ => ⟨_, rfl, rfl⟩⟩

theorem makes_update (prior : Dict String Value) (res : Resource) :
    Makes stage nodeId (· = [.called .update]) (Step.update prior res) := by
  intro past reply landed _
  refine ⟨trivial, ?_⟩
  cases reply with
  | error failure => exact not_ok_error
  | ok value => exact fun _ => ⟨_, rfl, rfl⟩

theorem makes_delete (res : Resource) :
    Makes stage nodeId (· = [.called .delete]) (Step.delete res) :=
  fun _ => Along.delete fun _ _ _ => ⟨trivial, fun _ => ⟨_, rfl, rfl⟩⟩

theorem makes_deferCleanup (node : String) (old : Resource) :
    Makes stage nodeId (· = [.deferred node]) (Step.memory (.deferCleanup node old)) :=
  fun _ => Along.memory fun _ _ => ⟨trivial, fun _ => ⟨_, rfl, rfl⟩⟩

end

namespace RunContext

variable (run : RunContext)

/-- The calls that destroy what a row describes: none where it is of a lookup. -/
def destroyCalls (nodeId : String) : List ProviderCall :=
  if (run.prior[nodeId]?).any fun row => isData run.env.types row.type then [] else [.delete]

/-- A planned delete, if it was still to be taken. -/
def Deletes (nodeId : String) (new : List Note) : Prop :=
  new = [] ∨ new = (run.destroyCalls nodeId).map .called ++ [.took nodeId]

/-- What the work of a change to be applied leaves. -/
def Applies (nodeId : String) (change : Change) (new : List Note) : Prop :=
  match change.action with
  | .create => new = [.called .create]
  | .update => new = [.called .update]
  | .replace =>
    if change.createBeforeDestroy then
      ∃ cleared, run.Deletes (cbdCompanionId nodeId) cleared ∧
        new = .deferred nodeId :: .called .create :: cleared
    else
      new = .called .create :: (if nodeId ∈ run.predeleted then [] else [.called .delete])
  | .delete => False
  | .noop => new = []

variable {run} {stage : Stage} {nodeId other : String} {res old : Resource}

theorem silent_forget : (forget nodeId).Only Request.Silent :=
  forget_only trivial trivial (fun _ => trivial) trivial

theorem silent_writeAhead : (run.writeAhead nodeId res).Only Request.Silent :=
  run.writeAhead_only trivial fun _ => trivial

theorem silent_record {undo : Undo} : (run.record nodeId undo).Only Request.Silent :=
  run.record_only trivial

theorem makes_deleteNode : Makes stage other (run.Deletes nodeId) (run.deleteNode nodeId) := by
  intro past taken landed _
  refine ⟨trivial, ?_⟩
  cases taken with
  | false => exact fun _ => ⟨[], .inl rfl, rfl⟩
  | true =>
    have hrest : Makes stage other (· = (run.destroyCalls nodeId).map .called)
        (run.deleteTaken nodeId) := by
      unfold destroyCalls deleteTaken
      cases run.prior[nodeId]? with
      | none => exact Makes.raise
      | some prior =>
        rw [Option.any_some]
        refine Makes.after (Step.look_only trivial) fun memory => Makes.compute fun res _ => ?_
        split
        · exact .silent silent_forget
        · exact Makes.compute fun _ _ => .before (makes_delete res) fun _ => silent_forget
    refine (hrest _).mono fun past' outcome hpast' hok => ?_
    obtain ⟨new, rfl, heq⟩ := hpast' hok
    exact ⟨_, .inr rfl, by rw [heq]; simp [notes, Event.note]⟩

theorem makes_predestroy : Makes stage nodeId (· = [.called .delete]) (run.predestroy nodeId) := by
  unfold predestroy
  split
  · exact .raise
  · refine .after (Step.look_only trivial) fun memory => .compute fun old _ => .compute fun _ _ =>
      .compute fun res _ => .after silent_writeAhead fun _ => ?_
    exact .before (makes_delete old) fun _ => silent_record

theorem makes_predeleteNode :
    Makes stage nodeId (fun new =>
      if nodeId ∉ run.predeleted then new = []
      else if nodeId ∈ run.deleteIds then run.Deletes nodeId new else new = [.called .delete])
      (run.predeleteNode nodeId) := by
  unfold predeleteNode
  split
  · exact .silent trivial
  · split
    · exact makes_deleteNode
    · exact makes_predestroy

theorem makes_clearCompanion :
    Makes stage other (run.Deletes nodeId) (run.clearCompanion nodeId) := by
  refine .after (Step.look_only trivial) fun memory => ?_
  split
  · exact makes_deleteNode
  · split
    · exact Makes.raise
    · have hnothing : (Prog.ret () : Step Unit).Only Request.Silent := trivial
      exact (Makes.silent hnothing).mono fun _ => .inl

theorem makes_replaceCbd {prior : StateNode} :
    Makes stage nodeId (fun new => ∃ cleared, run.Deletes (cbdCompanionId nodeId) cleared ∧
      new = .deferred nodeId :: .called .create :: cleared)
      (run.replaceCbd nodeId res old prior) := by
  have hlive (created : Dict String Value) :
      (Step.memory (.live nodeId created)).Only Request.Silent := Step.memory_only trivial
  refine (Makes.bind makes_clearCompanion fun _ => .after (Step.put_only trivial) fun _ =>
    .after silent_writeAhead fun _ => Makes.bind (makes_create res) fun created =>
      .after (hlive created) fun _ =>
        .before (makes_deferCleanup nodeId old) fun _ => silent_record).mono ?_
  rintro new ⟨cleared, newer, hcleared, ⟨older, latest, rfl, rfl, rfl⟩, rfl⟩
  exact ⟨cleared, hcleared, rfl⟩

theorem makes_replaceDbc {prior : Option StateNode} :
    Makes stage nodeId
      (· = .called .create :: (if nodeId ∈ run.predeleted then [] else [.called .delete]))
      (run.replaceDbc nodeId res old prior) := by
  have hold : Makes stage nodeId (· = if nodeId ∈ run.predeleted then [] else [.called .delete])
      (run.destroyOld nodeId res old) := by
    unfold destroyOld
    split
    · exact .silent trivial
    · exact .after silent_writeAhead fun _ => makes_delete old
  have hrecord (new : Resource) : (run.recordReplaced nodeId new old prior).Only Request.Silent := by
    unfold recordReplaced
    split
    · exact silent_record
    · split
      · trivial
      · exact (Step.look_only trivial).bind fun _ => silent_record
  have hlive (created : Dict String Value) :
      (Step.memory (.live nodeId created)).Only Request.Silent := Step.memory_only trivial
  refine (Makes.bind hold fun _ => .before (makes_create res) fun created =>
    (hlive created).bind fun _ => hrecord _).mono ?_
  rintro new ⟨older, newer, rfl, rfl, rfl⟩
  rfl

/-- A node whose change is settled. -/
theorem makes_applyOne {change : Change} (hprior : change.action = .replace → nodeId ∈ run.prior) :
    Makes stage nodeId (run.Applies nodeId change) (run.applyOne nodeId change) := by
  have hrewrite (prior row : StateNode) : (run.rewriteRow prior row).Only Request.Silent :=
    silent_record.bind fun _ => Step.put_only trivial
  have hlive (created : Dict String Value) :
      (Step.memory (.live nodeId created)).Only Request.Silent := Step.memory_only trivial
  unfold applyOne
  split
  next hnoop =>
    have hquiet : (if change.stateOnly then run.recordStateOnly nodeId change
        else run.recordCollapsed nodeId).Only Request.Silent := by
      refine .ite ?_ ?_
      · unfold recordStateOnly
        split
        · exact hrewrite ..
        · trivial
      · unfold recordCollapsed
        split
        · trivial
        · exact (Step.look_only trivial).bind fun _ => (Step.compute_only _).bind fun _ =>
            hrewrite ..
    refine (Makes.silent hquiet).mono fun new hnew => ?_
    unfold Applies
    rw [hnoop]
    exact hnew
  next hacts =>
    refine Makes.compute fun wanted _ => Makes.after (Step.look_only trivial) fun memory =>
      Makes.compute fun res _ => Makes.compute fun _ _ => Makes.before ?_ fun _ =>
        run.persist_only trivial fun _ => trivial
    unfold applyChange Applies
    cases haction : change.action with
    | create =>
      exact .after silent_writeAhead fun _ => .before (makes_create res) fun created =>
        (hlive created).bind fun _ => silent_record
    | update =>
      refine .after (Step.look_only trivial) fun memory => .before (makes_update _ res)
        fun updated => (hlive updated).bind fun _ => ?_
      split
      · trivial
      · exact (Step.compute_only _).bind fun _ => (Step.compute_only _).bind fun _ => silent_record
    | replace =>
      have hmem := hprior haction
      dsimp only
      unfold replace
      cases hrow : run.prior[nodeId]? with
      | none =>
        rw [Std.ExtTreeMap.mem_iff_isSome_getElem?, hrow] at hmem
        cases hmem
      | some prior =>
        refine Makes.after (Step.look_only trivial) fun memory => Makes.compute fun old _ => ?_
        split
        · exact makes_replaceCbd
        · exact makes_replaceDbc
    | delete => exact Makes.raise
    | noop => exact Makes.raise

/-! ## Whole turns -/

/-- What the change of a node turned out to be: a conditional REPLACE is confirmed over the outputs
that the first look of the node's work finds. -/
def TurnsOut (run : RunContext) (nodeId : String) (change : Change) (past : List Event)
    (effective : Change) : Prop :=
  if change.conditional then ∃ found landed later,
    past = later ++ [⟨.forward, nodeId, .look, found, landed⟩] ∧
      run.confirmed found.1.live nodeId change = .ok effective
  else effective = change

theorem change_of_predeleted {change : Change} (hmem : nodeId ∈ run.predeleted)
    (hchange : run.changes[nodeId]? = some change) : run.destroyed change := by
  obtain ⟨found, hfound, hdestroyed⟩ := destroyed_of_predeleted hmem
  rw [hchange, Option.some.injEq] at hfound
  exact hfound ▸ hdestroyed

theorem along_applyNode_notes :
    Along .forward nodeId Event.Sound (fun _ => True) (run.applyNode nodeId) [] fun past outcome =>
      (∃ value, outcome = .ok value) → ∃ change effective,
        run.changes[nodeId]? = some change ∧ run.TurnsOut nodeId change past effective ∧
          run.Applies nodeId effective (notes past) := by
  unfold applyNode
  split
  next => exact not_ok_error
  next change hchange =>
    obtain ⟨hmem, hid⟩ := run.changes_eq_some.mp hchange
    have hplanned := run.planned.each change hmem
    have hrecorded (hreplace : change.action = .replace) : nodeId ∈ run.prior :=
      hid ▸ hplanned.recorded (.inr hreplace)
    split
    next hnoop =>
      refine fun _ => ⟨change, change, hchange, ?_, ?_⟩
      · have hplain : ¬ change.conditional = true := fun hconditional => by
          have hreplace := hplanned.conditional hconditional
          rw [hnoop.1] at hreplace
          cases hreplace
        exact (if_neg hplain).mpr rfl
      · unfold Applies
        rw [hnoop.1]
        rfl
    next =>
      split
      next hconditional =>
        intro found landed _
        refine ⟨trivial, ?_⟩
        change Along _ _ _ _ (run.applyLooked nodeId change found.1) _ _
        unfold applyLooked
        split
        next effective hconfirmed =>
          refine ((makes_applyOne (fun _ => hrecorded (hplanned.conditional hconditional.1)) _).and
            Along.suffix).mono fun past outcome hpast hok => ?_
          obtain ⟨⟨new, hnew, heq⟩, later, rfl⟩ := And.imp (fun h => h hok) id hpast
          refine ⟨change, effective, hchange, ?_, ?_⟩
          · exact (if_pos hconditional.1).mpr ⟨found, landed, later, rfl, hconfirmed⟩
          · have hlook : notes [⟨.forward, nodeId, .look, found, landed⟩] = [] := rfl
            rw [hlook, List.append_nil] at heq
            rwa [heq]
        next => exact not_ok_error
      next hsettled =>
        refine (makes_applyOne hrecorded _).mono fun past outcome hpast hok => ?_
        obtain ⟨new, hnew, heq⟩ := hpast hok
        refine ⟨change, change, hchange, ?_, ?_⟩
        · have hplain : ¬ change.conditional = true := by
            intro hconditional
            have hgone := not_not.mp fun hkept => hsettled ⟨hconditional, hkept⟩
            have hdestroyed := change_of_predeleted hgone hchange
            rw [destroyed, hplanned.conditional hconditional, hconditional] at hdestroyed
            simp at hdestroyed
          exact (if_neg hplain).mpr rfl
        · rw [heq]
          simpa [notes] using hnew

theorem along_destroyNode_notes :
    Along .destroy nodeId Event.Sound (fun _ => True) (run.destroyNode nodeId) [] fun past outcome =>
      (∃ value, outcome = .ok value) → ∃ found landed later,
        past = later ++ [⟨.destroy, nodeId, .look, found, landed⟩] ∧
          if nodeId ∈ found.1.cbdDeferred then notes past = [.called .delete]
          else run.Deletes nodeId (notes past) := by
  intro found landed _
  refine ⟨trivial, ?_⟩
  have hlook : notes [⟨.destroy, nodeId, .look, found, landed⟩] = [] := rfl
  change Along _ _ _ _ (run.destroyLooked nodeId found.1) _ _
  unfold destroyLooked
  split
  next old hold =>
    have hdeferred : nodeId ∈ found.1.cbdDeferred :=
      Std.ExtTreeMap.mem_iff_isSome_getElem?.mpr (by rw [hold]; rfl)
    have hmakes : Makes .destroy nodeId (· = [.called .delete]) (run.cbdCleanup nodeId old) := by
      refine .before (fun past => ?_) fun _ => Step.erase_only trivial
      have hinner : Makes .destroy nodeId (· = [.called .delete]) (do
          Step.compute (providerFor run.env old.provider)
          Step.delete old) :=
        .compute fun _ _ => makes_delete old
      refine Along.catching ((hinner past).mono fun past' outcome hpast' => ?_)
      cases outcome with
      | ok value => exact hpast'
      | error failure =>
        dsimp only
        split
        · exact Along.bind (Along.memory fun _ _ => ⟨trivial, not_ok_error⟩)
        · exact not_ok_error
    refine ((hmakes _).and Along.suffix).mono fun past outcome hpast hok => ?_
    obtain ⟨⟨new, rfl, heq⟩, later, rfl⟩ := And.imp (fun h => h hok) id hpast
    refine ⟨found, landed, later, rfl, ?_⟩
    rw [if_pos hdeferred, heq, hlook, List.append_nil]
  next hnone =>
    have hdeferred : nodeId ∉ found.1.cbdDeferred := by
      rw [Std.ExtTreeMap.mem_iff_isSome_getElem?, hnone]
      exact Bool.false_ne_true
    refine ((makes_deleteNode _).and Along.suffix).mono fun past outcome hpast hok => ?_
    obtain ⟨⟨new, hnew, heq⟩, later, rfl⟩ := And.imp (fun h => h hok) id hpast
    refine ⟨found, landed, later, rfl, ?_⟩
    rw [hlook, List.append_nil] at heq
    rwa [if_neg hdeferred, heq]

/-! ## A run that has ended well -/

variable {cloud : Cloud} {state : RunState}

/-- What a turn leaves if it ends well holds of the node's entries. -/
theorem Succeeded.turn (hreach : run.Reaches cloud state) (hdone : run.Succeeded state)
    (hpass : stage.rank ≤ Stage.destroy.rank) (hnode : nodeId ∈ run.nodesOf stage)
    {post : List Event → Except Failure Unit → Prop}
    (halong : Along stage nodeId Event.Sound (fun _ => True) (run.workOf stage nodeId) [] post) :
    post (entries stage nodeId state.world.log) (.ok ()) := by
  have hcomplete := hdone.complete hreach hpass hnode
  have hwork : (run.schedule stage).work nodeId = run.workOf stage nodeId := if_pos hnode
  unfold Complete at hcomplete
  rw [hwork] at hcomplete
  exact (halong.residual trivial hcomplete fun event hevent =>
    hreach.logged.sound event (mem_entries.mp hevent).1).2

theorem Logged.entries_nil (hlogged : run.Logged cloud state) (hnode : nodeId ∉ run.nodesOf stage) :
    entries stage nodeId state.world.log = [] := by
  refine List.eq_nil_iff_forall_not_mem.mpr fun event hevent => ?_
  obtain ⟨hmem, rfl, rfl⟩ := mem_entries.mp hevent
  exact hnode (hlogged.mem_nodesOf hmem)

section

variable (hreach : run.Reaches cloud state) (hdone : run.Succeeded state)

include hreach hdone

theorem Succeeded.predelete_notes (nodeId : String) :
    if nodeId ∉ run.predeleted then notes (entries .predelete nodeId state.world.log) = []
    else if nodeId ∈ run.deleteIds then
      run.Deletes nodeId (notes (entries .predelete nodeId state.world.log))
    else notes (entries .predelete nodeId state.world.log) = [.called .delete] := by
  by_cases hnode : nodeId ∈ run.nodesOf .predelete
  · obtain ⟨new, hnew, heq⟩ := hdone.turn hreach (by decide) hnode (makes_predeleteNode []) ⟨(), rfl⟩
    have hsame : notes (entries .predelete nodeId state.world.log) = new := by
      rw [heq]
      exact List.append_nil new
    rwa [hsame]
  · have hkept : nodeId ∉ run.predeleted := fun hgone =>
      hnode (run.mem_priorGraph.mpr (run.mem_prior_of_predeleted hgone))
    rw [if_pos hkept, hreach.logged.entries_nil hnode]
    rfl

theorem Succeeded.forward_notes (hnode : nodeId ∈ run.nodesOf .forward) : ∃ change effective,
    run.changes[nodeId]? = some change ∧
      run.TurnsOut nodeId change (entries .forward nodeId state.world.log) effective ∧
        run.Applies nodeId effective (notes (entries .forward nodeId state.world.log)) :=
  hdone.turn hreach (by decide) hnode along_applyNode_notes ⟨(), rfl⟩

theorem Succeeded.destroy_notes (hnode : nodeId ∈ run.nodesOf .destroy) : ∃ found landed later,
    entries .destroy nodeId state.world.log =
        later ++ [⟨.destroy, nodeId, .look, found, landed⟩] ∧
      if nodeId ∈ found.1.cbdDeferred then
        notes (entries .destroy nodeId state.world.log) = [.called .delete]
      else run.Deletes nodeId (notes (entries .destroy nodeId state.world.log)) :=
  hdone.turn hreach (le_refl _) hnode along_destroyNode_notes ⟨(), rfl⟩

end

theorem mem_notes {note : Note} {log : List Event} : note ∈ notes (entries stage nodeId log) ↔
    ∃ event ∈ log, event.stage = stage ∧ event.node = nodeId ∧ event.note = some note := by
  rw [notes, List.mem_filterMap]
  constructor
  · rintro ⟨event, hevent, hnote⟩
    obtain ⟨hmem, hstage, hnode⟩ := mem_entries.mp hevent
    exact ⟨event, hmem, hstage, hnode, hnote⟩
  · rintro ⟨event, hmem, hstage, hnode, hnote⟩
    exact ⟨event, mem_entries.mpr ⟨hmem, hstage, hnode⟩, hnote⟩

theorem not_deferred_of_deletes {new : List Note} (hdeletes : run.Deletes nodeId new) :
    .deferred other ∉ new := by
  rcases hdeletes with rfl | rfl
  · exact List.not_mem_nil
  · simp

theorem deferred_iff_of_applies {change : Change} {new : List Note}
    (happlies : run.Applies nodeId change new) : .deferred other ∈ new ↔
      other = nodeId ∧ change.action = .replace ∧ change.createBeforeDestroy := by
  unfold Applies at happlies
  cases haction : change.action with
  | create => simp_all
  | update => simp_all
  | delete => simp_all
  | noop => simp_all
  | replace =>
    rw [haction] at happlies
    dsimp only at happlies
    split at happlies
    next hcbd =>
      obtain ⟨cleared, hcleared, rfl⟩ := happlies
      simp [hcbd, not_deferred_of_deletes hcleared]
    next hcbd =>
      subst happlies
      simp only [Bool.not_eq_true] at hcbd
      split <;> simp [hcbd]

theorem Succeeded.deferred (hreach : run.Reaches cloud state) (hdone : run.Succeeded state)
    {event : Event} (hmem : event ∈ state.world.log) (hnote : event.note = some (.deferred nodeId)) :
    event.stage = .forward ∧ event.node = nodeId := by
  have hin : .deferred nodeId ∈ notes (entries event.stage event.node state.world.log) :=
    mem_notes.mpr ⟨event, hmem, rfl, rfl, hnote⟩
  have hnode := hreach.logged.mem_nodesOf hmem
  have hrank := hreach.logged.ranked event hmem
  rw [hdone.1] at hrank
  cases hstage : event.stage with
  | predelete =>
    rw [hstage] at hin
    have hnotes := hdone.predelete_notes hreach event.node
    split at hnotes
    · rw [hnotes] at hin
      cases hin
    · split at hnotes
      · exact (not_deferred_of_deletes hnotes hin).elim
      · rw [hnotes] at hin
        simp at hin
  | forward =>
    rw [hstage] at hin hnode
    obtain ⟨change, effective, -, -, happlies⟩ := hdone.forward_notes hreach hnode
    exact ⟨rfl, ((deferred_iff_of_applies happlies).mp hin).1.symm⟩
  | destroy =>
    rw [hstage] at hin hnode
    obtain ⟨found, landed, later, -, hnotes⟩ := hdone.destroy_notes hreach hnode
    split at hnotes
    · rw [hnotes] at hin
      simp at hin
    · exact (not_deferred_of_deletes hnotes hin).elim
  | rolling => rw [hstage] at hrank; exact absurd hrank (by decide)
  | ended => rw [hstage] at hrank; exact absurd hrank (by decide)

theorem Succeeded.deferred_iff (hreach : run.Reaches cloud state) (hdone : run.Succeeded state)
    {found : RunMemory × Bool} {landed : Bool} {later : List Event}
    (hentries : entries .destroy nodeId state.world.log =
      later ++ [⟨.destroy, nodeId, .look, found, landed⟩]) :
    nodeId ∈ found.1.cbdDeferred ↔
      .deferred nodeId ∈ notes (entries .forward nodeId state.world.log) := by
  obtain ⟨newer, older, hlog, -, -⟩ := entries_split hentries
  rw [← hreach.logged.look hlog]
  have holder : ∀ event ∈ older, event ∈ state.world.log := fun event hmem => by
    rw [hlog]
    simp [hmem]
  constructor
  · intro hdeferred
    obtain ⟨event, hmem, old, hrequest⟩ := replay_cbdDeferred rfl hdeferred
    have hnote : event.note = some (.deferred nodeId) := by
      obtain ⟨stage, node, request, reply, landed⟩ := event
      cases hrequest
      rfl
    obtain ⟨hstage, hnode⟩ := hdone.deferred hreach (holder event hmem) hnote
    exact mem_notes.mpr ⟨event, holder event hmem, hstage, hnode, hnote⟩
  · intro hnoted
    obtain ⟨event, hmem, hstage, hnode, hnote⟩ := mem_notes.mp hnoted
    obtain ⟨old, hrequest⟩ : ∃ old, event.request = .memory (.deferCleanup nodeId old) := by
      obtain ⟨stage, node, request, reply, landed⟩ := event
      cases request with
      | memory update =>
        cases update with
        | deferCleanup other old => cases hnote; exact ⟨old, rfl⟩
        | _ => cases hnote
      | takeDelete other =>
        change (if reply = true then _ else _) = _ at hnote
        split at hnote <;> cases hnote
      | _ => cases hnote
    have hlanded : event.landed = true := by
      have hsound := (hreach.logged.sound event hmem).1
      obtain ⟨stage, node, request, reply, landed⟩ := event
      cases hrequest
      exact hsound
    refine mem_deferred_of_replay ?_ hlanded hrequest
    refine hreach.logged.mem_older hlog hmem ?_
    rw [hstage]
    change Stage.forward.rank < Stage.destroy.rank
    decide

end RunContext

end Atlantide.Executor
