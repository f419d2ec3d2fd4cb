import Atlantide.Executor.Notes

/-! # The provider calls of a run that ends well

Each pass's calls are told apart by the node they are on. What is called on a declared node is told by
what its change turned out to be, and a planned delete is called for once, by whichever work takes
it. -/

namespace Atlantide.Executor

def Note.call : Note → Option ProviderCall
  | .called call => some call
  | _ => none

theorem filterMap_call (events : List Event) :
    events.filterMap (fun event => event.request.call) = (notes events).filterMap Note.call := by
  rw [notes, List.filterMap_filterMap]
  refine List.filterMap_congr fun event _ => ?_
  obtain ⟨stage, node, request, reply, landed⟩ := event
  cases request with
  | memory update => cases update <;> rfl
  | takeDelete other =>
    change none = (if reply = true then some (Note.took other) else none).bind Note.call
    split <;> rfl
  | _ => rfl

theorem note_eq_took {event : Event} {nodeId : String} :
    event.note = some (.took nodeId) ↔ event.Takes nodeId := by
  obtain ⟨stage, node, request, reply, landed⟩ := event
  cases request with
  | takeDelete other =>
    change (if reply = true then some (Note.took other) else none) = _ ↔ other = nodeId ∧ reply = true
    split
    next htaken => simp [htaken]
    next hleft => simp [hleft]
  | memory update => cases update <;> exact ⟨nofun, False.elim⟩
  | _ => exact ⟨nofun, False.elim⟩

theorem cbdCompanionId_inj {nodeId other : String}
    (heq : cbdCompanionId nodeId = cbdCompanionId other) : nodeId = other := by
  have hchars := congrArg String.toList heq
  rw [cbdCompanionId, cbdCompanionId, String.toList_append, String.toList_append] at hchars
  exact String.toList_inj.mp (List.append_cancel_right hchars)

namespace RunContext

variable {run : RunContext} {cloud : Cloud} {state : RunState} {stage : Stage}
  {nodeId other : String}

/-- Whether the node is replaced create-before-destroy. -/
def copies (run : RunContext) (nodeId : String) : Bool :=
  (run.changes[nodeId]?).any fun change => change.action = .replace && change.createBeforeDestroy

/-- The node a call is on: the one at work, but for the delete of a create-before-destroy REPLACE in
the forward pass, which is on its companion. -/
def target (run : RunContext) (event : Event) : String :=
  if event.stage = .forward ∧ event.request.call = some .delete ∧ run.copies event.node then
    cbdCompanionId event.node
  else event.node

/-- A pass's calls on a node, the earliest first. -/
def callsIn (run : RunContext) (log : List Event) (stage : Stage) (nodeId : String) :
    List ProviderCall :=
  ((log.filter fun event => event.stage = stage && run.target event = nodeId).filterMap
    fun event => event.request.call).reverse

/-- The calls on a node, pass after pass. -/
def calls (run : RunContext) (log : List Event) (nodeId : String) : List ProviderCall :=
  [Stage.predelete, .forward, .destroy].flatMap fun stage => run.callsIn log stage nodeId

/-- The calls on a declared node whose change turned out so. -/
def settledCalls (effective : Change) : List ProviderCall :=
  match effective.action with
  | .create => [.create]
  | .update => [.update]
  | .replace => if effective.createBeforeDestroy then [.create, .delete] else [.delete, .create]
  | .delete | .noop => []

variable {log : List Event}

theorem callsIn_of_ne (hstage : stage ≠ .forward) :
    run.callsIn log stage nodeId = ((notes (entries stage nodeId log)).filterMap Note.call).reverse := by
  rw [callsIn, filterMap_call, entries]
  congr 4
  funext event
  by_cases hsame : event.stage = stage
  · have htarget : run.target event = event.node :=
      if_neg fun hforward => hstage (hsame ▸ hforward.1)
    rw [htarget]
  · simp [hsame]

theorem callsIn_forward (hplain : '~' ∉ nodeId.toList) :
    run.callsIn log .forward nodeId =
      (((notes (entries .forward nodeId log)).filterMap Note.call).filter fun call =>
        !(call = .delete && run.copies nodeId)).reverse := by
  rw [callsIn, ← filterMap_call, entries, List.filter_filterMap, List.filterMap_filter,
    List.filterMap_filter]
  congr 1
  refine List.filterMap_congr fun event _ => ?_
  by_cases hstage : event.stage = .forward
  · by_cases hmoved : event.request.call = some .delete ∧ run.copies event.node
    · have htarget : run.target event = cbdCompanionId event.node := if_pos ⟨hstage, hmoved⟩
      have hother : cbdCompanionId event.node ≠ nodeId := by
        rintro rfl
        exact hplain (mem_companion event.node)
      by_cases hnode : event.node = nodeId
      · subst hnode
        simp [htarget, hother, hstage, hmoved.1, hmoved.2, Option.filter]
      · simp [htarget, hother, hnode]
    · have htarget : run.target event = event.node := if_neg fun hforward => hmoved hforward.2
      rw [htarget]
      by_cases hnode : event.node = nodeId
      · subst hnode
        cases hcall : event.request.call with
        | none => simp [hstage]
        | some call =>
          rw [hcall] at hmoved
          by_cases hdelete : call = .delete
          · subst hdelete
            have hcopies : run.copies event.node = false := by simpa using hmoved
            simp [hstage, hcopies, Option.filter]
          · simp [hstage, hdelete, Option.filter]
      · simp [hnode]
  · simp [hstage]

theorem callsIn_companion (hnone : ∀ event ∈ log, event.stage = .forward →
    event.node ≠ cbdCompanionId nodeId) :
    run.callsIn log .forward (cbdCompanionId nodeId) =
      (((notes (entries .forward nodeId log)).filterMap Note.call).filter fun call =>
        call = .delete && run.copies nodeId).reverse := by
  rw [callsIn, ← filterMap_call, entries, List.filter_filterMap, List.filterMap_filter,
    List.filterMap_filter]
  congr 1
  refine List.filterMap_congr fun event hmem => ?_
  by_cases hstage : event.stage = .forward
  · by_cases hmoved : event.request.call = some .delete ∧ run.copies event.node
    · have htarget : run.target event = cbdCompanionId event.node := if_pos ⟨hstage, hmoved⟩
      by_cases hnode : event.node = nodeId
      · subst hnode
        simp [htarget, hstage, hmoved.1, hmoved.2, Option.filter]
      · have hother : cbdCompanionId event.node ≠ cbdCompanionId nodeId :=
          fun heq => hnode (cbdCompanionId_inj heq)
        simp [htarget, hother, hnode]
    · have htarget : run.target event = event.node := if_neg fun hforward => hmoved hforward.2
      have hother := hnone event hmem hstage
      by_cases hnode : event.node = nodeId
      · subst hnode
        cases hcall : event.request.call with
        | none => simp [htarget, hother]
        | some call =>
          rw [hcall] at hmoved
          by_cases hdelete : call = .delete
          · subst hdelete
            have hcopies : run.copies event.node = false := by simpa using hmoved
            simp [htarget, hother, hcopies, Option.filter]
          · simp [htarget, hother, hdelete, Option.filter]
      · simp [htarget, hother, hnode]
  · simp [hstage]

theorem callsIn_nil (hnone : ∀ event ∈ log, event.stage = .forward → run.target event ≠ nodeId) :
    run.callsIn log .forward nodeId = [] := by
  rw [callsIn, List.reverse_eq_nil_iff, List.filterMap_eq_nil_iff]
  intro event hmem
  obtain ⟨hmem, htest⟩ := List.mem_filter.mp hmem
  simp only [Bool.and_eq_true, decide_eq_true_eq] at htest
  exact (hnone event hmem htest.1 htest.2).elim

/-! ### Who takes a planned delete -/

theorem calls_of_deletes {new : List Note} (hdeletes : run.Deletes nodeId new) :
    new.filterMap Note.call = if .took nodeId ∈ new then run.destroyCalls nodeId else [] := by
  rcases hdeletes with rfl | rfl
  · rfl
  · rw [if_pos (List.mem_append_right _ (List.mem_singleton_self _)), List.filterMap_append,
      List.filterMap_map]
    have hcalls : (Note.call ∘ Note.called) = some := rfl
    rw [hcalls, List.filterMap_some]
    exact List.append_nil _

theorem took_of_deletes {new : List Note} (hdeletes : run.Deletes nodeId new)
    (htook : .took other ∈ new) : other = nodeId := by
  rcases hdeletes with rfl | rfl
  · cases htook
  · simpa using htook

theorem TurnsOut.replace {change effective : Change} {past : List Event}
    (hturns : run.TurnsOut nodeId change past effective) (hreplace : effective.action = .replace) :
    effective = change := by
  unfold TurnsOut at hturns
  split at hturns
  · obtain ⟨found, landed, later, -, hconfirmed⟩ := hturns
    rcases confirmed_cases hconfirmed with heq | ⟨hne, -⟩
    · exact heq
    · exact (hne hreplace).elim
  · exact hturns

theorem copies_of_replace {change : Change} (hchange : run.changes[nodeId]? = some change)
    (hreplace : change.action = .replace) :
    run.copies nodeId = change.createBeforeDestroy := by
  simp [copies, hchange, hreplace]

section

variable (hreach : run.Reaches cloud state) (hdone : run.Succeeded state)

include hreach

theorem not_took (hkept : nodeId ∉ run.deleteIds) :
    .took nodeId ∉ notes (entries stage other state.world.log) := by
  intro htook
  obtain ⟨event, hmem, -, -, hnote⟩ := mem_notes.mp htook
  have hanswered := (hreach.logged.allAnswered event hmem).2
  have htakes := note_eq_took.mp hnote
  obtain ⟨stage, node, request, reply, landed⟩ := event
  cases request with
  | takeDelete taken =>
    obtain ⟨rfl, rfl⟩ := htakes
    exact hkept (hanswered rfl)
  | _ => exact htakes.elim

theorem nil_of_deletes (hkept : nodeId ∉ run.deleteIds)
    (hdeletes : run.Deletes nodeId (notes (entries stage other state.world.log))) :
    notes (entries stage other state.world.log) = [] := by
  rcases hdeletes with hnone | hsome
  · exact hnone
  · have htook : .took nodeId ∈ notes (entries stage other state.world.log) := by
      rw [hsome]
      exact List.mem_append_right _ (List.mem_singleton_self _)
    exact (not_took hreach hkept htook).elim

include hdone

theorem Succeeded.destroy_calls (nodeId : String) :
    if .deferred nodeId ∈ notes (entries .forward nodeId state.world.log) ∧ nodeId ∈ run.prior then
      notes (entries .destroy nodeId state.world.log) = [.called .delete]
    else run.Deletes nodeId (notes (entries .destroy nodeId state.world.log)) := by
  by_cases hprior : nodeId ∈ run.prior
  · obtain ⟨found, landed, later, hentries, hnotes⟩ :=
      hdone.destroy_notes hreach (run.mem_priorGraph.mpr hprior)
    rw [if_congr (hdone.deferred_iff hreach hentries) rfl rfl] at hnotes
    rwa [if_congr (and_iff_left hprior) rfl rfl]
  · have hnode : nodeId ∉ run.nodesOf .destroy := fun hmem => hprior (run.mem_priorGraph.mp hmem)
    rw [if_neg fun hboth => hprior hboth.2, hreach.logged.entries_nil hnode]
    exact .inl rfl

/-- **The calls on a declared node.** -/
theorem Succeeded.calls_declared (hdeclared : nodeId ∈ run.desired.ir.byId) :
    ∃ change effective, run.changes[nodeId]? = some change ∧
      run.TurnsOut nodeId change (entries .forward nodeId state.world.log) effective ∧
        run.calls state.world.log nodeId = settledCalls effective := by
  obtain ⟨change, effective, hchange, hturns, happlies⟩ :=
    hdone.forward_notes hreach (Std.ExtTreeMap.mem_keys.mpr hdeclared)
  refine ⟨change, effective, hchange, hturns, ?_⟩
  obtain ⟨hmem, hid⟩ := run.changes_eq_some.mp hchange
  have hplanned := run.planned.each change hmem
  have hkept : nodeId ∉ run.deleteIds := by
    intro hdelete
    obtain ⟨planned, hin, hsame⟩ := List.mem_map.mp hdelete
    obtain ⟨hin, haction⟩ := List.mem_filter.mp hin
    have hnot := (run.planned.each planned hin).undeclared (of_decide_eq_true haction)
    exact hnot (hsame ▸ hdeclared)
  have hpredelete := hdone.predelete_notes hreach nodeId
  have hdestroy := hdone.destroy_calls hreach nodeId
  rw [if_neg hkept] at hpredelete
  rw [calls, List.flatMap_cons, List.flatMap_cons, List.flatMap_singleton,
    @callsIn_of_ne run .predelete nodeId _ (by decide),
    @callsIn_of_ne run .destroy nodeId _ (by decide), callsIn_forward (run.named nodeId hdeclared)]
  by_cases hreplace : effective.action = .replace
  · obtain rfl := hturns.replace hreplace
    have hprior : nodeId ∈ run.prior := hid ▸ hplanned.recorded (.inr hreplace)
    rw [copies_of_replace hchange hreplace]
    have hdeferred := @deferred_iff_of_applies _ _ nodeId _ _ happlies
    unfold Applies at happlies
    rw [hreplace] at happlies
    dsimp only at happlies
    unfold settledCalls
    rw [hreplace]
    dsimp only
    by_cases hcbd : effective.createBeforeDestroy = true
    · have hgone : nodeId ∉ run.predeleted := by
        intro hgone
        have hdestroyed := change_of_predeleted hgone hchange
        simp [RunContext.destroyed, destroyBeforeCreate, hreplace, hcbd] at hdestroyed
      rw [if_pos ⟨hdeferred.mpr ⟨rfl, hreplace, hcbd⟩, hprior⟩] at hdestroy
      rw [if_pos hgone] at hpredelete
      rw [if_pos hcbd] at happlies
      obtain ⟨cleared, hcleared, hnotes⟩ := happlies
      have hnone : ((cleared.filterMap Note.call).filter fun call => !(call = .delete && true)) = [] := by
        rw [calls_of_deletes hcleared, destroyCalls]
        split_ifs <;> rfl
      rw [hpredelete, hdestroy, hnotes, if_pos hcbd, hcbd]
      simp only [List.filterMap_cons, Note.call, List.filter_cons, List.filterMap_nil]
      rw [hnone]
      rfl
    · rw [if_neg fun hboth => hcbd (hdeferred.mp hboth.1).2.2] at hdestroy
      rw [if_neg hcbd] at happlies
      have hfalse : effective.createBeforeDestroy = false := Bool.not_eq_true _ ▸ hcbd
      rw [nil_of_deletes hreach hkept hdestroy, happlies, if_neg hcbd, hfalse]
      by_cases hgone : nodeId ∈ run.predeleted
      · rw [if_neg (not_not.mpr hgone)] at hpredelete
        rw [hpredelete, if_pos hgone]
        rfl
      · rw [if_pos hgone] at hpredelete
        rw [hpredelete, if_neg hgone]
        rfl
  · have hgone : nodeId ∉ run.predeleted := by
      intro hgone
      have hdestroyed := change_of_predeleted hgone hchange
      have hplain : ¬ change.conditional = true := fun hconditional => by
        simp [RunContext.destroyed, hplanned.conditional hconditional, hconditional] at hdestroyed
      have heq : effective = change := (if_neg hplain).mp hturns
      subst heq
      have hdelete : effective.action ≠ .delete := fun hdelete =>
        hplanned.undeclared hdelete (hid ▸ hdeclared)
      simp [RunContext.destroyed, destroyBeforeCreate, hreplace, hdelete] at hdestroyed
    rw [if_pos hgone] at hpredelete
    rw [if_neg fun hboth => hreplace ((deferred_iff_of_applies happlies).mp hboth.1).2.1] at hdestroy
    rw [hpredelete, nil_of_deletes hreach hkept hdestroy]
    unfold Applies at happlies
    unfold settledCalls
    cases haction : effective.action with
    | replace => exact (hreplace haction).elim
    | delete => rw [haction] at happlies; exact happlies.elim
    | _ =>
      rw [haction] at happlies
      rw [happlies]
      rfl

end

/-! ### The calls on a node that is not declared -/

theorem took_of_applies {change : Change} {new : List Note} (happlies : run.Applies nodeId change new)
    (htook : .took other ∈ new) :
    other = cbdCompanionId nodeId ∧ change.action = .replace ∧ change.createBeforeDestroy := by
  unfold Applies at happlies
  cases haction : change.action with
  | create => simp_all
  | update => simp_all
  | delete => simp_all
  | noop => simp_all
  | replace =>
    rw [haction] at happlies
    dsimp only at happlies
    split at happlies
    next hcbd =>
      obtain ⟨cleared, hcleared, rfl⟩ := happlies
      have hin : .took other ∈ cleared := by simpa using htook
      exact ⟨took_of_deletes hcleared hin, rfl, hcbd⟩
    next hcbd =>
      subst happlies
      split at htook <;> simp at htook

section

variable (hreach : run.Reaches cloud state) (hdone : run.Succeeded state)

include hreach hdone

/-- The work that takes a planned delete is the node's own, or brings its companion's forward. -/
theorem Succeeded.taker {event : Event} (hmem : event ∈ state.world.log)
    (hnote : event.note = some (.took nodeId)) :
    (event.stage = .predelete ∧ event.node = nodeId) ∨
      (event.stage = .forward ∧ event.node ∈ run.desired.ir.byId ∧
        cbdCompanionId event.node = nodeId) ∨
      (event.stage = .destroy ∧ event.node = nodeId) := by
  have hin : .took nodeId ∈ notes (entries event.stage event.node state.world.log) :=
    mem_notes.mpr ⟨event, hmem, rfl, rfl, hnote⟩
  have hnode := hreach.logged.mem_nodesOf hmem
  have hrank := hreach.logged.ranked event hmem
  rw [hdone.1] at hrank
  cases hstage : event.stage with
  | predelete =>
    rw [hstage] at hin
    have hnotes := hdone.predelete_notes hreach event.node
    split at hnotes
    · rw [hnotes] at hin
      cases hin
    · split at hnotes
      · exact .inl ⟨rfl, (took_of_deletes hnotes hin).symm⟩
      · rw [hnotes] at hin
        simp at hin
  | forward =>
    rw [hstage] at hin hnode
    obtain ⟨change, effective, -, -, happlies⟩ := hdone.forward_notes hreach hnode
    exact .inr (.inl ⟨rfl, Std.ExtTreeMap.mem_keys.mp hnode, (took_of_applies happlies hin).1.symm⟩)
  | destroy =>
    rw [hstage] at hin hnode
    obtain ⟨found, landed, later, -, hnotes⟩ := hdone.destroy_notes hreach hnode
    split at hnotes
    · rw [hnotes] at hin
      simp at hin
    · exact .inr (.inr ⟨rfl, (took_of_deletes hnotes hin).symm⟩)
  | rolling => rw [hstage] at hrank; exact absurd hrank (by decide)
  | ended => rw [hstage] at hrank; exact absurd hrank (by decide)

theorem Succeeded.took (hdelete : nodeId ∈ run.deleteIds) (hprior : nodeId ∈ run.prior) :
    ∃ event ∈ state.world.log, event.Takes nodeId := by
  obtain ⟨newer, found, landed, older, hlog, -, htakes⟩ := hdone.destroyed hreach hprior
  refine hreach.logged.taken hdelete ?_
  refine htakes fun hdeferred => not_copies_of_delete hdelete ?_
  have hmem : ⟨.destroy, nodeId, .look, found, landed⟩ ∈ state.world.log := by
    rw [hlog]
    simp
  exact (hreach.logged.allAnswered _ hmem).2.1 nodeId hdeferred

theorem Succeeded.forward_calls (hother : nodeId ∉ run.desired.ir.byId) :
    run.callsIn state.world.log .forward nodeId =
      if ∃ event ∈ state.world.log, event.stage = .forward ∧ event.note = some (.took nodeId) then
        run.destroyCalls nodeId
      else [] := by
  have hworkers : ∀ event ∈ state.world.log, event.stage = .forward →
      event.node ∈ run.desired.ir.byId := by
    intro event hmem hstage
    have hnode := hreach.logged.mem_nodesOf hmem
    rw [hstage] at hnode
    exact Std.ExtTreeMap.mem_keys.mp hnode
  by_cases hcompanion : ∃ owner ∈ run.desired.ir.byId, cbdCompanionId owner = nodeId
  · obtain ⟨owner, howner, rfl⟩ := hcompanion
    have hnode : ∀ event ∈ state.world.log, event.stage = .forward →
        event.node ≠ cbdCompanionId owner :=
      fun event hmem hstage heq => hother (heq ▸ hworkers event hmem hstage)
    have htaken : (∃ event ∈ state.world.log, event.stage = .forward ∧
        event.note = some (.took (cbdCompanionId owner))) ↔
          .took (cbdCompanionId owner) ∈ notes (entries .forward owner state.world.log) := by
      rw [mem_notes]
      constructor
      · rintro ⟨event, hmem, hstage, hnote⟩
        rcases hdone.taker hreach hmem hnote with ⟨hwrong, -⟩ | ⟨-, -, heq⟩ | ⟨hwrong, -⟩
        · rw [hstage] at hwrong
          cases hwrong
        · exact ⟨event, hmem, hstage, cbdCompanionId_inj heq, hnote⟩
        · rw [hstage] at hwrong
          cases hwrong
      · rintro ⟨event, hmem, hstage, -, hnote⟩
        exact ⟨event, hmem, hstage, hnote⟩
    rw [callsIn_companion hnode, if_congr htaken rfl rfl]
    obtain ⟨change, effective, hchange, hturns, happlies⟩ :=
      hdone.forward_notes hreach (Std.ExtTreeMap.mem_keys.mpr howner)
    have hnone (haction : ¬ (effective.action = .replace ∧ effective.createBeforeDestroy)) :
        .took (cbdCompanionId owner) ∉ notes (entries .forward owner state.world.log) :=
      fun htook => haction (took_of_applies happlies htook).2
    by_cases hreplace : effective.action = .replace
    · obtain rfl := hturns.replace hreplace
      rw [copies_of_replace hchange hreplace]
      by_cases hcbd : effective.createBeforeDestroy = true
      · unfold Applies at happlies
        rw [hreplace] at happlies
        dsimp only at happlies
        rw [if_pos hcbd] at happlies
        obtain ⟨cleared, hcleared, hnotes⟩ := happlies
        rw [hnotes, hcbd]
        simp only [List.filterMap_cons, Note.call, List.filter_cons, List.mem_cons, reduceCtorEq,
          false_or, decide_false, Bool.false_and, Bool.false_eq_true, if_false]
        rw [calls_of_deletes hcleared, destroyCalls]
        split_ifs <;> rfl
      · rw [if_neg (hnone fun hboth => hcbd hboth.2)]
        have hfalse : effective.createBeforeDestroy = false := Bool.not_eq_true _ ▸ hcbd
        rw [hfalse]
        simp
    · rw [if_neg (hnone fun hboth => hreplace hboth.1)]
      unfold Applies at happlies
      cases haction : effective.action with
      | replace => exact (hreplace haction).elim
      | delete => rw [haction] at happlies; exact happlies.elim
      | _ =>
        rw [haction] at happlies
        rw [happlies]
        rfl
  · rw [if_neg]
    · refine callsIn_nil fun event hmem hstage heq => ?_
      have hnode := hworkers event hmem hstage
      unfold target at heq
      split at heq
      · exact hcompanion ⟨event.node, hnode, heq⟩
      · exact hother (heq ▸ hnode)
    · rintro ⟨event, hmem, hstage, hnote⟩
      rcases hdone.taker hreach hmem hnote with ⟨hwrong, -⟩ | ⟨-, hnode, heq⟩ | ⟨hwrong, -⟩
      · rw [hstage] at hwrong
        cases hwrong
      · exact hcompanion ⟨event.node, hnode, heq⟩
      · rw [hstage] at hwrong
        cases hwrong

/-- **The calls on a node that is not declared**: a planned delete is made once. -/
theorem Succeeded.calls_undeclared (hother : nodeId ∉ run.desired.ir.byId)
    (hrecorded : nodeId ∈ run.deleteIds → nodeId ∈ run.prior) :
    run.calls state.world.log nodeId =
      if nodeId ∈ run.deleteIds then run.destroyCalls nodeId else [] := by
  have hidle : nodeId ∉ run.nodesOf .forward := fun hmem =>
    hother (Std.ExtTreeMap.mem_keys.mp hmem)
  have hpredelete : run.Deletes nodeId (notes (entries .predelete nodeId state.world.log)) := by
    have hnotes := hdone.predelete_notes hreach nodeId
    split at hnotes
    · exact .inl hnotes
    next hgone =>
      split at hnotes
      · exact hnotes
      next hkept =>
        have hgone := not_not.mp hgone
        obtain ⟨change, hchange, hdestroyed⟩ := destroyed_of_predeleted hgone
        obtain ⟨hmem, hid⟩ := run.changes_eq_some.mp hchange
        have hplanned := run.planned.each change hmem
        have hdelete : change.action ≠ .delete := fun hdelete => hkept
          (List.mem_map.mpr ⟨change, List.mem_filter.mpr ⟨hmem, decide_eq_true hdelete⟩, hid⟩)
        have hreplace : change.action ≠ .replace := fun hreplace =>
          hother (hid ▸ hplanned.declared (.inr (.inr hreplace)))
        simp [RunContext.destroyed, destroyBeforeCreate, hdelete, hreplace] at hdestroyed
  have hdestroy : run.Deletes nodeId (notes (entries .destroy nodeId state.world.log)) := by
    have hnotes := hdone.destroy_calls hreach nodeId
    split at hnotes
    next hdeferred =>
      rw [hreach.logged.entries_nil hidle] at hdeferred
      cases hdeferred.1
    next => exact hnotes
  have hsame : (run.destroyCalls nodeId).reverse = run.destroyCalls nodeId := by
    unfold destroyCalls
    split <;> rfl
  rw [calls, List.flatMap_cons, List.flatMap_cons, List.flatMap_singleton,
    @callsIn_of_ne run .predelete nodeId _ (by decide),
    @callsIn_of_ne run .destroy nodeId _ (by decide), calls_of_deletes hpredelete,
    calls_of_deletes hdestroy, hdone.forward_calls hreach hother]
  by_cases hdelete : nodeId ∈ run.deleteIds
  · obtain ⟨event, hmem, htakes⟩ := hdone.took hreach hdelete (hrecorded hdelete)
    have hnote := note_eq_took.mpr htakes
    have honly (later : Event) (hlater : later ∈ state.world.log)
        (hlaterNote : later.note = some (.took nodeId)) : later = event :=
      hreach.logged.takes_same hmem hlater htakes (note_eq_took.mp hlaterNote)
    have hown (stage : Stage) (hnode : event.stage = stage → event.node = nodeId) :
        .took nodeId ∈ notes (entries stage nodeId state.world.log) ↔ event.stage = stage := by
      rw [mem_notes]
      constructor
      · rintro ⟨later, hlater, hstage, -, hlaterNote⟩
        rw [← honly later hlater hlaterNote, hstage]
      · exact fun hstage => ⟨event, hmem, hstage, hnode hstage, hnote⟩
    have hforward : (∃ event ∈ state.world.log, event.stage = .forward ∧
        event.note = some (.took nodeId)) ↔ event.stage = .forward := by
      constructor
      · rintro ⟨later, hlater, hstage, hlaterNote⟩
        rw [← honly later hlater hlaterNote, hstage]
      · exact fun hstage => ⟨event, hmem, hstage, hnote⟩
    have hnode (stage : Stage) (hne : stage ≠ .forward) (hstage : event.stage = stage) :
        event.node = nodeId := by
      rcases hdone.taker hreach hmem hnote with ⟨-, hnode⟩ | ⟨hforward, -⟩ | ⟨-, hnode⟩
      · exact hnode
      · exact (hne (hstage.symm.trans hforward)).elim
      · exact hnode
    rw [if_congr (hown .predelete (hnode _ (by decide))) rfl rfl, if_congr hforward rfl rfl,
      if_congr (hown .destroy (hnode _ (by decide))) rfl rfl, if_pos hdelete]
    rcases hdone.taker hreach hmem hnote with ⟨hstage, -⟩ | ⟨hstage, -⟩ | ⟨hstage, -⟩ <;>
      simp [hstage, hsame]
  · have hnone (stage : Stage) (other : String) :
        .took nodeId ∉ notes (entries stage other state.world.log) := not_took hreach hdelete
    rw [if_neg (hnone _ _), if_neg (hnone _ _), if_neg hdelete, if_neg]
    · rfl
    · rintro ⟨event, hmem, -, hnote⟩
      exact hnone event.stage event.node (mem_notes.mpr ⟨event, hmem, rfl, rfl, hnote⟩)

end

/-! ### What a run may delete -/

theorem copies_eq_true : run.copies nodeId = true ↔ run.Copies nodeId := by
  simp [copies, Copies, Option.any_eq_true]

/-- The node's change does away with what the node was. -/
def Destructive (run : RunContext) (nodeId : String) : Prop :=
  ∃ change, run.changes[nodeId]? = some change ∧
    (change.action = .delete ∨ change.action = .replace)

theorem Copies.destructive (hcopies : run.Copies nodeId) : run.Destructive nodeId := by
  obtain ⟨change, hchange, hreplace, -⟩ := hcopies
  exact ⟨change, hchange, .inr hreplace⟩

theorem destructive_of_delete (hdelete : nodeId ∈ run.deleteIds) : run.Destructive nodeId := by
  obtain ⟨change, hmem, hid⟩ := List.mem_map.mp hdelete
  obtain ⟨hin, haction⟩ := List.mem_filter.mp hmem
  exact ⟨change, run.changes_eq_some.mpr ⟨hin, hid⟩, .inl (of_decide_eq_true haction)⟩

theorem destructive_of_predeleted (hgone : nodeId ∈ run.predeleted) : run.Destructive nodeId := by
  obtain ⟨change, hchange, hdestroyed⟩ := destroyed_of_predeleted hgone
  refine ⟨change, hchange, ?_⟩
  simp only [RunContext.destroyed, destroyBeforeCreate, Bool.or_eq_true, Bool.and_eq_true,
    decide_eq_true_eq] at hdestroyed
  exact hdestroyed.imp_right fun hreplace => hreplace.1.1.1

theorem sparing_applyNode (hkept : ¬ run.Destructive nodeId) :
    (run.applyNode nodeId).Only Sparing := by
  unfold applyNode
  split
  · trivial
  next change hchange =>
    have hmem := (run.changes_eq_some.mp hchange).1
    have hother : change.action ≠ .replace := fun hreplace => hkept ⟨change, hchange, .inr hreplace⟩
    split
    · trivial
    · split
      next hconditional =>
        exact (hother ((run.planned.each change hmem).conditional hconditional.1)).elim
      · exact sparing_applyOne hother

/-- Work that earns its deletes has taken a planned one for whatever it deletes. -/
theorem Logged.earned (hlogged : run.Logged cloud state) {event : Event}
    (hmem : event ∈ state.world.log) (hcall : event.request.call = some .delete)
    (hearns : run.Earns event.stage event.node nodeId (run.workOf event.stage event.node)) :
    nodeId ∈ run.deleteIds := by
  have hnothing : Earned nodeId [] := fun hsome => by simp at hsome
  have hearned : Earned nodeId (entries event.stage event.node state.world.log) :=
    hlogged.always (fun _ => hearns [] hnothing) hnothing fun other hother =>
      hlogged.allAnswered other (mem_entries.mp hother).1
  have hrequest : ∃ res, event.request = .delete res := by
    cases hrequest : event.request with
    | delete res => exact ⟨res, rfl⟩
    | _ => rw [hrequest] at hcall; cases hcall
  obtain ⟨res, hrequest⟩ := hrequest
  obtain ⟨taken, htaken, htakes⟩ := hearned ⟨event, mem_entries.mpr ⟨hmem, rfl, rfl⟩, res, hrequest⟩
  have hanswered := (hlogged.allAnswered taken (mem_entries.mp htaken).1).2
  obtain ⟨stage, node, request, reply, landed⟩ := taken
  cases request with
  | takeDelete other =>
    obtain ⟨rfl, rfl⟩ := htakes
    exact hanswered rfl
  | _ => exact htakes.elim

/-- **A rollback apart, a run deletes only what its changes do away with.** -/
theorem Logged.destructive (hlogged : run.Logged cloud state) {event : Event}
    (hmem : event ∈ state.world.log) (hforth : event.stage ≠ .rolling)
    (hcall : event.request.call = some .delete) : run.Destructive (run.target event) := by
  have hnode := hlogged.mem_nodesOf hmem
  have htarget (hstage : event.stage ≠ .forward) : run.target event = event.node :=
    if_neg fun hforward => hstage hforward.1
  cases hstage : event.stage with
  | predelete =>
    rw [htarget (by rw [hstage]; exact nofun)]
    exact destructive_of_predeleted (hlogged.predeleted hmem hstage)
  | forward =>
    by_cases hcopies : run.Copies event.node
    · have hmoved : run.target event = cbdCompanionId event.node :=
        if_pos ⟨hstage, hcall, copies_eq_true.mpr hcopies⟩
      rw [hmoved]
      refine destructive_of_delete (hlogged.earned hmem hcall ?_)
      rw [hstage]
      exact earns_applyNode hcopies
    · have hown : run.target event = event.node :=
        if_neg fun hforward => hcopies (copies_eq_true.mp hforward.2.2)
      rw [hown]
      by_contra hkept
      -- Work that deletes nothing earns any delete, also one of a node that has none.
      have hdelete : event.node ∈ run.deleteIds := by
        refine hlogged.earned hmem hcall ?_
        rw [hstage]
        exact Earns.sparing (sparing_applyNode hkept)
      exact hkept (destructive_of_delete hdelete)
  | destroy =>
    rw [htarget (by rw [hstage]; exact nofun)]
    by_cases hcopies : run.Copies event.node
    · exact hcopies.destructive
    · refine destructive_of_delete (hlogged.earned hmem hcall ?_)
      rw [hstage]
      exact earns_destroyNode hcopies
  | rolling => exact (hforth hstage).elim
  | ended =>
    rw [hstage] at hnode
    cases hnode

end RunContext

end Atlantide.Executor
