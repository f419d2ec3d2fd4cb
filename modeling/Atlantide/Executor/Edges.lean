import Atlantide.Executor.Rows

/-! # The graph the rows record

A row has the edges of the config it was last written for, so the rows of one state mix those of
several configs. What a run can mix is decided before it starts, by its config, its changeset and
the rows it starts from. -/

namespace Atlantide.Executor

open Interleaving

namespace RunContext

section

variable (run : RunContext)

/-- The edges the config gives the node. -/
def declaredEdges (nodeId : String) : List String := run.desired.ir.edgesOf nodeId

/-- The edges the node's row had before the run. -/
def recordedEdges (nodeId : String) : List String :=
  ((run.prior[nodeId]?).map (·.edges)).getD []

/-- The run is to write the node's row with other edges than it had. -/
def Rewired (nodeId : String) : Prop :=
  nodeId ∈ run.desired.ir.byId ∧ run.kept nodeId = false ∧
    (nodeId ∈ run.prior →
      ∃ dep, ¬ (dep ∈ run.declaredEdges nodeId ↔ dep ∈ run.recordedEdges nodeId))

/-- Which rows can have the config's edges while others still have those they were recorded with. -/
structure Mixture (declared recorded : String → Prop) : Prop where
  rewired : ∀ nodeId, declared nodeId → run.Rewired nodeId ∧ ¬ recorded nodeId
  /-- The forward pass writes a node after its dependencies. -/
  settled : run.rollback = false → ∀ nodeId, declared nodeId → nodeId ∉ run.predeleted →
    ∀ dep ∈ run.declaredEdges nodeId, run.Rewired dep → ¬ recorded dep
  /-- The forward pass comes after phase 0. -/
  cleared : run.rollback = false → ∀ nodeId, declared nodeId → nodeId ∉ run.predeleted →
    ∀ other ∈ run.predeleted, run.Rewired other ∨ other ∈ run.deleteIds → ¬ recorded other

/-- An edge of the graph a mixture makes. -/
def MixedEdge (declared recorded : String → Prop) (nodeId dep : String) : Prop :=
  (declared nodeId ∧ dep ∈ run.declaredEdges nodeId) ∨
    (recorded nodeId ∧ dep ∈ run.recordedEdges nodeId)

/-- No mixture of the config's edges with the recorded ones closes a cycle. -/
def MixesAcyclically : Prop :=
  ∀ declared recorded, run.Mixture declared recorded →
    ∀ nodeId, ¬ Relation.TransGen (run.MixedEdge declared recorded) nodeId nodeId

/-- The row has the edges the config gives the node. -/
def Declares (nodeId : String) (row : StateNode) : Prop :=
  ∃ node, run.desired.ir.byId[nodeId]? = some node ∧
    row.edges = node.dependencies ++ node.dependsOn

/-- The row has the edges the node's row had before the run. -/
def Recalls (nodeId : String) (row : StateNode) : Prop :=
  ∃ prior, run.prior[nodeId]? = some prior ∧ row.edges = prior.edges

/-- The node's row was written in a pass, by the log. -/
def Rewrote (nodeId : String) (log : List Event) : Prop :=
  run.kept nodeId = false ∧ ∃ newer event older, log = newer ++ event :: older ∧
    event.node = nodeId ∧
    (event.stage = .predelete ∧ nodeId ∈ run.predeleted ∨ event.stage = .forward)

/-- Where the edges of a row come from. -/
def EdgesFrom (log : List Event) (row : StateNode) : Prop :=
  run.Recalls row.id row ∨
    (run.Declares row.id row ∧ run.Rewrote row.id log) ∨
      ('~' ∈ row.id.toList ∧ ∃ other, run.Recalls other row)

end

section

variable {run : RunContext} {nodeId : String} {row : StateNode} {stage : Stage}

theorem Declares.mem (hrow : run.Declares nodeId row) (dep : String) :
    dep ∈ row.edges ↔ dep ∈ run.declaredEdges nodeId := by
  obtain ⟨node, hnode, hedges⟩ := hrow
  rw [hedges, declaredEdges, IRGraph.edgesOf, hnode]
  exact mem_sortedSet.symm

theorem Recalls.mem (hrow : run.Recalls nodeId row) (dep : String) :
    dep ∈ row.edges ↔ dep ∈ run.recordedEdges nodeId := by
  obtain ⟨prior, hprior, hedges⟩ := hrow
  rw [hedges, recordedEdges, hprior]
  rfl

theorem declares_of_stateNode {live : LiveOutputs} {res : Resource} {outputs : Dict String Value}
    {status : NodeStatus} (hbuilt : run.stateNode live nodeId res outputs status = .ok row) :
    row.id = nodeId ∧ run.Declares nodeId row := by
  unfold stateNode irNode at hbuilt
  cases hnode : run.desired.ir.byId[nodeId]? with
  | none =>
    rw [hnode] at hbuilt
    cases hbuilt
  | some node =>
    rw [hnode] at hbuilt
    cases hdigests : secretDigests run.env res nodeId with
    | error fault =>
      rw [hdigests] at hbuilt
      cases hbuilt
    | ok digests =>
      rw [hdigests] at hbuilt
      cases hbuilt
      exact ⟨rfl, node, hnode, rfl⟩

theorem declares_of_collapsedRow {live : LiveOutputs} {prior : StateNode}
    (hbuilt : run.collapsedRow live prior = .ok row) :
    row.id = prior.id ∧ run.Declares prior.id row := by
  unfold collapsedRow irNode at hbuilt
  cases hnode : run.desired.ir.byId[prior.id]? with
  | none =>
    rw [hnode] at hbuilt
    cases hbuilt
  | some node =>
    rw [hnode] at hbuilt
    cases hbuilt
    exact ⟨rfl, node, hnode, rfl⟩

/-- What a source says of the edges. -/
theorem Source.edges (hsource : run.Source stage nodeId row) :
    (row.id = nodeId ∧ run.Declares nodeId row ∧ run.kept nodeId = false ∧
      (stage = .predelete ∧ nodeId ∈ run.predeleted ∨ stage = .forward)) ∨
    (run.Recalls row.id row ∧ (stage = .rolling ∨ run.kept row.id)) ∨
    (row.id = cbdCompanionId nodeId ∧ run.Recalls nodeId row) := by
  cases hsource with
  | built hpass hkept hbuilt =>
    obtain ⟨hid, hdeclares⟩ := declares_of_stateNode hbuilt
    exact .inl ⟨hid, hdeclares, hkept, hpass⟩
  | collapsed hpass hkept hprior hbuilt =>
    obtain ⟨hid, hdeclares⟩ := declares_of_collapsedRow hbuilt
    obtain rfl := run.keyed nodeId _ hprior
    exact .inl ⟨hid, hdeclares, hkept, .inr hpass⟩
  | @guarded prior flag hpass hkept hprior =>
    obtain rfl := run.keyed nodeId prior hprior
    exact .inr (.inl ⟨⟨prior, hprior, rfl⟩, .inr hkept⟩)
  | @companion prior hpass hprior =>
    exact .inr (.inr ⟨rfl, prior, hprior, rfl⟩)
  | @restored other prior outputs refDigests hsaga hprior =>
    obtain rfl := run.keyed other prior hprior
    exact .inr (.inl ⟨⟨prior, hprior, rfl⟩, .inl hsaga⟩)

variable {cloud : Cloud} {state : RunState}

theorem Logged.edgesFrom (hlogged : run.Logged cloud state) :
    ∀ (nodeId : String) (row : StateNode), state.world.rows[nodeId]? = some row →
      run.EdgesFrom state.world.log row := by
  refine hlogged.each_row (fun nodeId row hrow => .inl ?_) (fun newer event older row hlog _ _ hsource => ?_)
    fun row hrow => hrow
  · obtain rfl := run.keyed nodeId row hrow
    exact ⟨row, hrow, rfl⟩
  · rcases hsource.edges with ⟨hid, hdeclares, hkept, hpass⟩ | ⟨hrecalls, -⟩ | ⟨hid, hrecalls⟩
    · rw [← hid] at hdeclares hkept hpass
      exact .inr (.inl ⟨hdeclares, hkept, newer, event, older, hlog, hid.symm, hpass⟩)
    · exact .inl hrecalls
    · refine .inr (.inr ⟨?_, event.node, hrecalls⟩)
      rw [hid]
      simp [cbdCompanionId]

/-! ## Rows the forward pass has written -/

/-- If the node has a row, it has the config's edges. -/
def Settles (run : RunContext) (nodeId : String) (log : List Event) : Prop :=
  ∀ row, rowAfter nodeId run.prior[nodeId]? log = some row → run.Declares nodeId row

/-- Without a rollback, a row that has the config's edges keeps them while it is there. -/
theorem Logged.settles (hlogged : run.Logged cloud state) (hrollback : run.rollback = false)
    (hname : '~' ∉ nodeId.toList) (hkept : run.kept nodeId = false) {newer older : List Event}
    (hlog : state.world.log = newer ++ older)
    (holder : ∀ event ∈ older, event.stage.rank ≤ Stage.forward.rank)
    (hnewer : ∀ event ∈ newer, event.stage = .predelete → event.node = nodeId → event.request.Mute)
    (hsettles : run.Settles nodeId older) : run.Settles nodeId state.world.log := by
  suffices hall : ∀ middle, middle <:+ newer → ∀ back, back <:+ middle →
      run.Settles nodeId (back ++ older) by
    rw [hlog]
    exact hall _ (List.suffix_refl _) _ (List.suffix_refl _)
  intro middle
  induction middle with
  | nil =>
    intro _ back hback
    rw [List.suffix_nil.mp hback]
    exact hsettles
  | cons event middle ih =>
    intro hmiddle back hback
    have hrest := ih ((List.suffix_cons event middle).trans hmiddle)
    rcases List.suffix_cons_iff.mp hback with rfl | hback
    · intro row hrow
      rw [List.cons_append, rowAfter] at hrow
      cases hwritten : event.written nodeId with
      | none =>
        rw [hwritten] at hrow
        exact hrest middle (List.suffix_refl _) row hrow
      | some written =>
        rw [hwritten] at hrow
        obtain rfl : written = some row := hrow
        obtain ⟨-, hput, rfl⟩ := Event.of_written hwritten
        obtain ⟨front, rfl⟩ := hmiddle
        have hsplit : state.world.log = front ++ event :: (middle ++ older) := by
          rw [hlog, List.append_assoc]
          rfl
        have hnosaga : event.stage ≠ .rolling := by
          intro hsaga
          have hrolled := hlogged.rolled event (hsplit ▸ by simp) hsaga
          exact Bool.noConfusion (hrollback.symm.trans hrolled)
        rcases hlogged.source hsplit hput with hfresh |
          ⟨rows, landed, read, hload, hread, rfl, hnode⟩
        · rcases hfresh.edges with ⟨hid, hdeclares, -⟩ | ⟨-, hsaga | hkept'⟩ | ⟨hid, -⟩
          · rw [hid]
            exact hdeclares
          · exact (hnosaga hsaga).elim
          · exact Bool.noConfusion (hkept.symm.trans hkept')
          · exact (companion_ne hname _ hid.symm).elim
        · rcases hnode with hsaga | ⟨hpass, hid⟩ | hid
          · exact (hnosaga hsaga).elim
          · -- The row was read in phase 2, after the passes that wrote it.
            have hstage : event.stage = .destroy := by
              have hlow := hnewer event (by simp)
              rw [hput] at hlow
              have hwork := hlogged.mem_nodesOf (hsplit ▸ List.mem_append_right _ (List.mem_cons_self ..))
              cases hcase : event.stage with
              | predelete => exact (hlow hcase hid.symm).elim
              | forward => exact (hpass hcase).elim
              | destroy => rfl
              | rolling => exact (hnosaga hcase).elim
              | ended =>
                rw [hcase] at hwork
                cases hwork
            obtain ⟨hmem, -, -⟩ := mem_entries.mp hload
            rcases List.mem_append.mp hmem with hmem | hmem
            · obtain ⟨before, after, rfl⟩ := List.append_of_mem hmem
              have hwhole : state.world.log = (front ++ event :: before) ++
                  ⟨event.stage, event.node, .load, .ok rows, landed⟩ :: (after ++ older) := by
                rw [hsplit]
                simp
              rw [hlogged.load hwhole] at hread
              have hafter : after <:+ before ++
                  ⟨event.stage, event.node, .load, .ok rows, landed⟩ :: after :=
                (List.suffix_cons ..).trans (List.suffix_append ..)
              exact hrest after hafter read hread
            · have hrank := holder _ hmem
              rw [hstage] at hrank
              exact absurd hrank (by decide)
          · exact (companion_ne hname _ hid.symm).elim
    · exact hrest back hback

end

/-! ## Work that ends well -/

section

variable {run : RunContext} {nodeId : String} {stage : Stage}

/-- The event wrote the node's row with the config's edges. -/
def WroteDeclared (run : RunContext) (nodeId : String) (event : Event) : Prop :=
  ∃ row, event.written nodeId = some (some row) ∧ run.Declares nodeId row

theorem ends_put {row : StateNode} (hid : row.id = nodeId) (hdeclares : run.Declares nodeId row) :
    Ends stage nodeId (run.WroteDeclared nodeId) (Step.put row) := by
  refine Ends.put fun reply landed hlanded => ⟨row, ?_, hdeclares⟩
  rw [Event.written, if_pos hlanded, Request.written, if_pos hid]

theorem ends_applyOne {change : Change} (honly : change.stateOnly = false) :
    Ends stage nodeId (run.WroteDeclared nodeId) (run.applyOne nodeId change) := by
  unfold applyOne recordCollapsed
  split
  · rw [honly]
    simp only [Bool.false_eq_true, if_false]
    split
    · exact Ends.raise
    next prior hprior =>
      refine Ends.bind fun memory => Ends.compute fun row hrow => ?_
      obtain ⟨hid, hdeclares⟩ := declares_of_collapsedRow hrow
      obtain rfl := run.keyed nodeId prior hprior
      exact Ends.bind fun _ => ends_put hid hdeclares
  · refine Ends.bind fun wanted => Ends.bind fun memory =>
      Ends.bind fun res => Ends.bind fun _ => Ends.bind fun _ => ?_
    refine Ends.bind fun memory => Ends.compute fun row hrow => ?_
    obtain ⟨hid, hdeclares⟩ := declares_of_stateNode hrow
    exact ends_put hid hdeclares

theorem ends_applyNode (hkept : run.kept nodeId = false) :
    Ends stage nodeId (run.WroteDeclared nodeId) (run.applyNode nodeId) := by
  unfold applyNode
  split
  · exact Ends.raise
  next change hchange =>
    obtain ⟨hmem, -⟩ := run.changes_eq_some.mp hchange
    have haction : change.action ≠ .noop := by
      rw [kept, hchange, Option.any_some] at hkept
      exact of_decide_eq_false hkept
    have honly : change.stateOnly = false := by
      rw [← Bool.not_eq_true]
      exact fun h => haction ((run.planned.each change hmem).stateOnly h)
    split
    next hplain => exact (haction hplain.1).elim
    · split
      · refine Ends.bind fun memory => ?_
        split
        next effective hconfirmed =>
          exact ends_applyOne ((confirmed_stateOnly hconfirmed).trans honly)
        · exact Ends.raise
      · exact ends_applyOne honly

variable {cloud : Cloud} {state : RunState}

/-- A split of a node's entries comes from a split of the log. -/
theorem entries_split {log later earlier : List Event} {event : Event}
    (hentries : entries stage nodeId log = later ++ event :: earlier) :
    ∃ newer older, log = newer ++ event :: older ∧ entries stage nodeId newer = later ∧
      entries stage nodeId older = earlier := by
  obtain ⟨first, rest, rfl, hlater, hrest⟩ := List.filter_eq_append_iff.mp hentries
  obtain ⟨skipped, older, rfl, hskipped, -, holder⟩ := List.filter_eq_cons_iff.mp hrest
  refine ⟨first ++ skipped, older, by simp, ?_, holder⟩
  rw [entries_append]
  change entries stage nodeId first = later at hlater
  rw [hlater, show entries stage nodeId skipped = [] from ?_, List.append_nil]
  exact List.filter_eq_nil_iff.mpr fun other hmem => hskipped other hmem

/-- The latest entry of a node. -/
theorem entries_head {log earlier : List Event} {event : Event}
    (hentries : entries stage nodeId log = event :: earlier) :
    ∃ newer older, log = newer ++ event :: older ∧ entries stage nodeId newer = [] ∧
      entries stage nodeId older = earlier := by
  have hsplit : entries stage nodeId log = [] ++ event :: earlier := hentries
  exact entries_split hsplit

/-- A node the forward pass is done with has its row's edges from the config. -/
theorem Logged.settles_of_forward (hlogged : run.Logged cloud state)
    (hrollback : run.rollback = false) (hname : '~' ∉ nodeId.toList)
    (hkept : run.kept nodeId = false) (hmem : nodeId ∈ run.desired.ir.byId)
    {newer older : List Event} (hlog : state.world.log = newer ++ older)
    (holder : ∀ event ∈ older, event.stage.rank ≤ Stage.forward.rank)
    (hcomplete : run.Complete .forward nodeId older) : run.Settles nodeId state.world.log := by
  have hnode : nodeId ∈ run.nodesOf .forward := Std.ExtTreeMap.mem_keys.mpr hmem
  have hwork : (run.schedule .forward).work nodeId = run.applyNode nodeId := if_pos hnode
  unfold Complete at hcomplete
  rw [hwork] at hcomplete
  have hsound : ∀ event ∈ entries .forward nodeId older, event.Sound := by
    intro event hevent
    refine hlogged.sound event ?_
    rw [hlog]
    exact List.mem_append_right _ (mem_entries.mp hevent).1
  obtain ⟨event, earlier, hentries, row, hwritten, hdeclares⟩ :=
    ((ends_applyNode hkept []).residual trivial hcomplete hsound).2 ⟨(), rfl⟩
  obtain ⟨between, before, rfl, hbetween, -⟩ := entries_head hentries
  have hforward : event.stage = .forward := by
    have hmem : event ∈ entries .forward nodeId (between ++ event :: before) := by
      rw [hentries]
      exact List.mem_cons_self ..
    exact (mem_entries.mp hmem).2.1
  rw [← List.append_assoc] at hlog
  refine hlogged.settles hrollback hname hkept hlog (fun other hmem => ?_) (fun other hmem => ?_) ?_
  · exact holder other (List.mem_append_right _ hmem)
  · -- What came after a request of the forward pass is not of phase 0.
    intro hstage
    have hsorted := hlogged.sorted
    rw [hlog, List.pairwise_append] at hsorted
    have hrank := hsorted.2.2 other hmem event (List.mem_cons_self ..)
    rw [hstage, hforward] at hrank
    exact absurd hrank (by decide)
  · intro found hfound
    rw [rowAfter, hwritten] at hfound
    cases hfound
    exact hdeclares

/-! ### Phase 0 -/

/-- The request takes no delete but the node's. -/
def TakesOnly (nodeId : String) : Request → Prop
  | .takeDelete other => other = nodeId
  | _ => True

theorem takesOnly_predeleteNode : (run.predeleteNode nodeId).Only (TakesOnly nodeId) :=
  run.predeleteNode_only rfl trivial (fun _ => trivial) (fun _ => trivial)
    (forget_only trivial trivial (fun _ => trivial) trivial) fun _ => trivial

/-- A planned delete is left until it is taken. -/
theorem replay_deleteIds {types : Types} {start : World} {log : List Event}
    (hstart : nodeId ∈ start.memory.deleteIds)
    (hlog : ∀ event ∈ log, event.request ≠ .takeDelete nodeId) :
    nodeId ∈ (replay types start log).memory.deleteIds := by
  induction log with
  | nil => exact hstart
  | cons event older ih =>
    obtain ⟨hhere, holder⟩ := List.forall_mem_cons.mp hlog
    have hrest := ih holder
    rw [replay]
    split
    · cases hrequest : event.request with
      | takeDelete other =>
        have hne : nodeId ≠ other := by
          rintro rfl
          exact hhere hrequest
        exact List.mem_filter.mpr ⟨hrest, decide_eq_true hne⟩
      | memory update => cases update <;> exact hrest
      | create res => rw [World.effect]; split <;> exact hrest
      | update prior res => rw [World.effect]; split <;> exact hrest
      | delete res => rw [World.effect]; split <;> exact hrest
      | _ => exact hrest
    · exact hrest

theorem ends_forget : Ends stage nodeId (fun event => event.written nodeId = some none)
    (forget nodeId) := by
  refine Ends.catchException (Ends.erase fun reply landed hlanded => ?_) fun _ =>
    Ends.bind fun _ => Ends.raise
  rw [Event.written, if_pos hlanded, Request.written, if_pos rfl]

/-- A node's own delete, if it was left to it. -/
theorem along_deleteNode (past : List Event) :
    Along stage nodeId Event.Sound (fun _ => True) (run.deleteNode nodeId) past
      fun past' outcome => outcome = .ok () →
        (∃ landed, past' = ⟨stage, nodeId, .takeDelete nodeId, false, landed⟩ :: past) ∨
          ∃ event earlier, past' = event :: earlier ∧ event.written nodeId = some none := by
  intro taken landed _
  refine ⟨trivial, ?_⟩
  cases taken with
  | false => exact fun _ => .inl ⟨landed, rfl⟩
  | true =>
    have hends : Ends stage nodeId (fun event => event.written nodeId = some none)
        (run.deleteTaken nodeId) := by
      unfold deleteTaken
      split
      · exact Ends.raise
      · refine Ends.bind fun memory => Ends.bind fun res => ?_
        split
        · exact ends_forget
        · exact Ends.bind fun _ => Ends.bind fun _ => ends_forget
    refine (hends _).mono fun past' outcome hpast' hok => .inr (hpast' ⟨(), hok⟩)

/-- The delete half of a replace leaves the config's row. -/
theorem along_predestroy (past : List Event) :
    Along stage nodeId Event.Sound (fun _ => True) (run.predestroy nodeId) past
      fun past' outcome => outcome = .ok () → ∃ later event earlier,
        past' = later ++ event :: earlier ∧ (∀ other ∈ later, other.request.Mute) ∧
          run.WroteDeclared nodeId event := by
  unfold predestroy
  split
  · exact fun h => nomatch h
  next prior hprior =>
    refine Along.bind (Along.anything.mono fun looked outcome _ => ?_)
    cases outcome with
    | error failure => exact fun h => nomatch h
    | ok memory =>
      refine Along.bind (Along.compute (fun old _ => ?_) fun _ _ h => nomatch h)
      refine Along.bind (Along.compute (fun _ _ => ?_) fun _ _ h => nomatch h)
      refine Along.bind (Along.compute (fun res _ => ?_) fun _ _ h => nomatch h)
      have hahead : Ends stage nodeId (run.WroteDeclared nodeId) (run.writeAhead nodeId res) := by
        refine Ends.bind fun memory => Ends.compute fun row hrow => ?_
        obtain ⟨hid, hdeclares⟩ := declares_of_stateNode hrow
        exact ends_put hid hdeclares
      refine Along.bind ((hahead looked).mono fun written outcome hwritten => ?_)
      cases outcome with
      | error failure => exact fun h => nomatch h
      | ok value =>
        obtain ⟨event, earlier, rfl, hevent⟩ := hwritten ⟨(), rfl⟩
        have hrest : (Prog.bind (Step.delete old) fun _ =>
            run.record nodeId (.delete old prior)).Only Request.Mute :=
          (Step.delete_only trivial).bind fun _ => run.record_only trivial
        have hkeeps : Along stage nodeId Event.Sound (fun _ => True) (Prog.bind (Step.delete old)
            fun _ => run.record nodeId (.delete old prior)) (event :: earlier) fun past' _ =>
              ∃ later, past' = later ++ event :: earlier ∧ ∀ other ∈ later, other.request.Mute := by
          refine Along.of_only hrest (fun other past' _ _ hmute _ hpast' => ?_) (fun _ _ => trivial)
            ⟨[], rfl, List.forall_mem_nil _⟩
          obtain ⟨later, rfl, hlater⟩ := hpast'
          exact ⟨other :: later, rfl, List.forall_mem_cons.mpr ⟨hmute, hlater⟩⟩
        refine hkeeps.mono fun past' _ hpast' _ => ?_
        obtain ⟨later, rfl, hlater⟩ := hpast'
        exact ⟨later, event, earlier, rfl, hlater, hevent⟩

variable {cloud : Cloud} {state : RunState}

/-- In phase 0 a node's delete is taken by the node's own work only, which then has it. -/
theorem Logged.took_delete (hlogged : run.Logged cloud state) (hdelete : nodeId ∈ run.deleteIds)
    {newer older : List Event} {taken landed : Bool}
    (hlog : state.world.log = newer ++
      ⟨.predelete, nodeId, .takeDelete nodeId, taken, landed⟩ :: older)
    (hfirst : entries .predelete nodeId older = []) : taken = true := by
  have hnone : ∀ event ∈ older, event.request ≠ .takeDelete nodeId := by
    intro event hmem htake
    have hin : event ∈ state.world.log := by
      rw [hlog]
      simp [hmem]
    have hstage : event.stage = .predelete := by
      have hsorted := hlogged.sorted
      rw [hlog, List.pairwise_append] at hsorted
      have hrank := (List.pairwise_cons.mp hsorted.2.1).1 event hmem
      revert hrank
      cases event.stage <;> simp [Stage.rank]
    have halong : Along .predelete event.node Event.Sound
        (fun past => ∀ other ∈ past, TakesOnly event.node other.request)
        (run.predeleteNode event.node) [] fun past _ =>
          ∀ other ∈ past, TakesOnly event.node other.request :=
      Along.of_only takesOnly_predeleteNode
        (fun _ _ _ _ hask _ hpast => List.forall_mem_cons.mpr ⟨hask, hpast⟩) (fun _ h => h)
        (List.forall_mem_nil _)
    have htakes := hlogged.always (fun _ => halong) (List.forall_mem_nil _) fun other hother =>
      hlogged.sound other (mem_entries.mp hother).1
    have hown := htakes event (mem_entries.mpr ⟨hin, hstage, rfl⟩)
    rw [htake] at hown
    have hentry : event ∈ entries .predelete nodeId older :=
      mem_entries.mpr ⟨hmem, hstage, Eq.symm hown⟩
    rw [hfirst] at hentry
    cases hentry
  obtain ⟨choice, lost, log, after, hanswer⟩ := hlogged.fits _ _ _ hlog
  have htaken : decide (nodeId ∈ (replay run.env.types (run.startWorld cloud) older).memory.deleteIds) =
      taken := congrArg Prod.fst hanswer
  rw [← htaken, decide_eq_true_eq]
  exact replay_deleteIds hdelete hnone

/-- A node phase 0 is done with has its row gone, or its edges from the config. -/
theorem Logged.settles_of_predeleted (hlogged : run.Logged cloud state)
    (hrollback : run.rollback = false) (hname : '~' ∉ nodeId.toList)
    (hmem : nodeId ∈ run.predeleted) {newer older : List Event}
    (hlog : state.world.log = newer ++ older)
    (hnewer : ∀ event ∈ newer, event.stage ≠ .predelete)
    (holder : ∀ event ∈ older, event.stage.rank ≤ Stage.forward.rank)
    (hcomplete : run.Complete .predelete nodeId older) : run.Settles nodeId state.world.log := by
  have hkept := kept_of_predeleted hmem
  have hnode : nodeId ∈ run.nodesOf .predelete :=
    run.mem_priorGraph.mpr (run.mem_prior_of_predeleted hmem)
  have hwork : (run.schedule .predelete).work nodeId = run.predeleteNode nodeId := if_pos hnode
  unfold Complete at hcomplete
  rw [hwork, predeleteNode, if_neg (not_not.mpr hmem)] at hcomplete
  have hsound : ∀ event ∈ entries .predelete nodeId older, event.Sound := by
    intro event hevent
    refine hlogged.sound event ?_
    rw [hlog]
    exact List.mem_append_right _ (mem_entries.mp hevent).1
  -- The request after which the row is settled, and what the node's work still asked for.
  obtain ⟨later, event, earlier, hentries, hlater, hsettled⟩ : ∃ later event earlier,
      entries .predelete nodeId older = later ++ event :: earlier ∧
        (∀ other ∈ later, other.request.Mute) ∧
          (event.written nodeId = some none ∨ run.WroteDeclared nodeId event) := by
    split at hcomplete
    next hdelete =>
      rcases ((along_deleteNode []).residual trivial hcomplete hsound).2 rfl with
        ⟨landed, hentries⟩ | ⟨event, earlier, hentries, hevent⟩
      · obtain ⟨between, before, rfl, -, hfirst⟩ := entries_head hentries
        rw [← List.append_assoc] at hlog
        cases hlogged.took_delete hdelete hlog hfirst
      · exact ⟨[], event, earlier, hentries, List.forall_mem_nil _, .inl hevent⟩
    next hdelete =>
      obtain ⟨later, event, earlier, hentries, hlater, hevent⟩ :=
        ((along_predestroy []).residual trivial hcomplete hsound).2 rfl
      exact ⟨later, event, earlier, hentries, hlater, .inr hevent⟩
  obtain ⟨between, before, rfl, hbetween, -⟩ := entries_split hentries
  rw [← List.append_assoc] at hlog
  refine hlogged.settles hrollback hname hkept hlog (fun other hother => ?_)
    (fun other hother hstage hself => ?_) ?_
  · exact holder other (List.mem_append_right _ hother)
  · rcases List.mem_append.mp hother with hother | hother
    · exact (hnewer other hother hstage).elim
    · exact hlater other (hbetween ▸ mem_entries.mpr ⟨hother, hstage, hself⟩)
  · intro row hrow
    rw [rowAfter] at hrow
    rcases hsettled with hgone | ⟨found, hwritten, hdeclares⟩
    · rw [hgone] at hrow
      cases hrow
    · rw [hwritten] at hrow
      cases hrow
      exact hdeclares

/-! ## The mixtures of a run -/

/-- The node's row is there with the edges it had before the run. A companion's does not count:
nothing depends on it. -/
def IsRecorded (run : RunContext) (rows : StateGraph) (nodeId : String) : Prop :=
  '~' ∉ nodeId.toList ∧ nodeId ∈ run.prior ∧ ∃ row, rows[nodeId]? = some row ∧
    ∀ dep, dep ∈ row.edges ↔ dep ∈ run.recordedEdges nodeId

/-- The node's row is there with the other edges the config gives it. -/
def IsDeclared (run : RunContext) (rows : StateGraph) (nodeId : String) : Prop :=
  run.Rewired nodeId ∧ ∃ row, rows[nodeId]? = some row ∧
    ∀ dep, dep ∈ row.edges ↔ dep ∈ run.declaredEdges nodeId

/-- A row cannot have both. -/
theorem IsDeclared.not_isRecorded {rows : StateGraph} (hdeclared : run.IsDeclared rows nodeId) :
    ¬ run.IsRecorded rows nodeId := by
  rintro ⟨-, hmem, row, hrow, hrecorded⟩
  obtain ⟨⟨-, -, hdiffers⟩, found, hfound, hdeclared⟩ := hdeclared
  obtain rfl : row = found := Option.some.inj (hrow.symm.trans hfound)
  obtain ⟨dep, hdep⟩ := hdiffers hmem
  exact hdep ((hdeclared dep).symm.trans (hrecorded dep))

theorem not_isRecorded_of_settles (hlogged : run.Logged cloud state)
    (hsettles : run.Settles nodeId state.world.log)
    (hwhich : run.Rewired nodeId ∨ nodeId ∈ run.deleteIds) :
    ¬ run.IsRecorded state.world.rows nodeId := by
  rintro ⟨hname, hmem, row, hrow, hrecorded⟩
  have hdeclares := hsettles row (by rw [← hlogged.rows]; exact hrow)
  rcases hwhich with hrewired | hdelete
  · exact IsDeclared.not_isRecorded ⟨hrewired, row, hrow, hdeclares.mem⟩
      ⟨hname, hmem, row, hrow, hrecorded⟩
  · obtain ⟨change, hchange, rfl⟩ := List.mem_map.mp hdelete
    obtain ⟨hin, haction⟩ := List.mem_filter.mp hchange
    obtain ⟨node, hnode, -⟩ := hdeclares
    refine (run.planned.each change hin).undeclared (of_decide_eq_true haction) ?_
    rw [Std.ExtTreeMap.mem_iff_isSome_getElem?, hnode]
    rfl

/-- **The rows of a run are a mixture of the config's edges and the recorded ones.** -/
theorem Logged.mixture (hlogged : run.Logged cloud state) :
    run.Mixture (run.IsDeclared state.world.rows) (run.IsRecorded state.world.rows) := by
  have hforward : ∀ nodeId, run.IsDeclared state.world.rows nodeId → nodeId ∉ run.predeleted →
      ∃ newer event older, state.world.log = newer ++ event :: older ∧ event.node = nodeId ∧
        event.stage = .forward := by
    rintro nodeId ⟨hrewired, row, hrow, hdeclared⟩ hlater
    obtain rfl : row.id = nodeId := by
      have hkeyed := @replay_keyed run.env.types (run.startWorld cloud) run.keyed
        state.world.log
      refine hkeyed nodeId row ?_
      rw [replay_rows]
      exact (hlogged.rows nodeId).symm.trans hrow
    rcases hlogged.edgesFrom _ row hrow with hrecalls | ⟨-, hwrote⟩ | ⟨hcompanion, -⟩
    · have hmem : row.id ∈ run.prior := by
        obtain ⟨prior, hprior, -⟩ := hrecalls
        exact StateGraph.mem_of_row hprior
      exact (IsDeclared.not_isRecorded ⟨hrewired, row, hrow, hdeclared⟩
        ⟨run.named row.id hrewired.1, hmem, row, hrow, hrecalls.mem⟩).elim
    · obtain ⟨-, newer, event, older, hlog, hnode, ⟨-, hpre⟩ | hstage⟩ := hwrote
      · exact (hlater hpre).elim
      · exact ⟨newer, event, older, hlog, hnode, hstage⟩
    · exact (run.named row.id hrewired.1 hcompanion).elim
  have hsorted : ∀ newer event older, state.world.log = newer ++ event :: older →
      event.stage = .forward → (∀ other ∈ newer ++ [event], other.stage ≠ .predelete) ∧
        ∀ other ∈ older, other.stage.rank ≤ Stage.forward.rank := by
    intro newer event older hlog hstage
    have hsorted := hlogged.sorted
    rw [hlog, List.pairwise_append] at hsorted
    refine ⟨fun other hmem hpre => ?_, fun other hmem => ?_⟩
    · rcases List.mem_append.mp hmem with hmem | hmem
      · have hrank := hsorted.2.2 other hmem event (List.mem_cons_self ..)
        rw [hstage, hpre] at hrank
        exact absurd hrank (by decide)
      · rw [List.mem_singleton.mp hmem, hstage] at hpre
        cases hpre
    · rw [← hstage]
      exact (List.pairwise_cons.mp hsorted.2.1).1 other hmem
  refine ⟨fun nodeId hdeclared => ⟨hdeclared.1, hdeclared.not_isRecorded⟩, ?_, ?_⟩
  · intro hrollback nodeId hdeclared hlater dep hdep hrewired
    obtain ⟨newer, event, older, hlog, rfl, hstage⟩ := hforward nodeId hdeclared hlater
    obtain ⟨-, holder⟩ := hsorted newer event older hlog hstage
    obtain ⟨hcomplete, -⟩ := hlogged.ordered newer event older hlog dep (by rw [hstage]; exact hdep)
    rw [hstage] at hcomplete
    rw [List.append_cons] at hlog
    exact not_isRecorded_of_settles hlogged (hlogged.settles_of_forward hrollback
      (run.named dep hrewired.1) hrewired.2.1 hrewired.1 hlog holder hcomplete) (.inl hrewired)
  · intro hrollback nodeId hdeclared hlater other hother hwhich
    obtain ⟨newer, event, older, hlog, rfl, hstage⟩ := hforward nodeId hdeclared hlater
    obtain ⟨hnewer, holder⟩ := hsorted newer event older hlog hstage
    have hcomplete : run.Complete .predelete other older := by
      refine hlogged.staged newer event older hlog ?_ .predelete ?_ other ?_
      · rw [hstage]
        decide
      · rw [hstage]
        decide
      · exact run.mem_priorGraph.mpr (run.mem_prior_of_predeleted hother)
    rw [List.append_cons] at hlog
    intro hrecorded
    exact not_isRecorded_of_settles hlogged (hlogged.settles_of_predeleted hrollback hrecorded.1
      hother hlog hnewer holder hcomplete) hwhich hrecorded

/-! ## Apply after apply -/

/-- No row depends on a companion. -/
def Tidy (rows : StateGraph) : Prop :=
  ∀ (nodeId : String) (row : StateNode), rows[nodeId]? = some row →
    ∀ dep ∈ row.edges, '~' ∉ dep.toList

theorem Logged.keyed (hlogged : run.Logged cloud state) : state.world.rows.Keyed := by
  intro nodeId row hrow
  refine @replay_keyed run.env.types (run.startWorld cloud) run.keyed
    state.world.log nodeId row ?_
  rw [replay_rows]
  exact (hlogged.rows nodeId).symm.trans hrow

theorem Logged.tidy (hlogged : run.Logged cloud state)
    (hgraph : ∃ graph, buildGraph run.desired.ir = .ok graph) (hprior : Tidy run.prior) :
    Tidy state.world.rows := by
  have hrecalls : ∀ nodeId row, run.Recalls nodeId row → ∀ dep ∈ row.edges, '~' ∉ dep.toList := by
    rintro nodeId row ⟨prior, hrow, hedges⟩ dep hdep
    rw [hedges] at hdep
    exact hprior nodeId prior hrow dep hdep
  intro nodeId row hrow dep hdep
  rcases hlogged.edgesFrom nodeId row hrow with hrow | ⟨hrow, -⟩ | ⟨-, other, hrow⟩
  · exact hrecalls row.id row hrow dep hdep
  · obtain ⟨graph, hgraph⟩ := hgraph
    refine run.named dep ((buildGraph_eq_ok.mp hgraph).2.1 row.id dep ?_)
    exact (hrow.mem dep).mp hdep
  · exact hrecalls other row hrow dep hdep

/-- **A run that mixes acyclically leaves an acyclic state, wherever it stops.** -/
theorem Logged.acyclic (hlogged : run.Logged cloud state)
    (hgraph : ∃ graph, buildGraph run.desired.ir = .ok graph) (htidy : Tidy run.prior)
    (hmixes : run.MixesAcyclically) : (irFromState state.world.rows).Acyclic := by
  intro start hcycle
  have hstep : ∀ nodeId dep, Closure.Step (irFromState state.world.rows).edgesOf nodeId dep →
      '~' ∉ dep.toList ∧ ('~' ∉ nodeId.toList →
        run.MixedEdge (run.IsDeclared state.world.rows) (run.IsRecorded state.world.rows)
          nodeId dep) := by
    intro nodeId dep hedge
    obtain ⟨row, hrow, hdep, -⟩ := (mem_edgesOf_irFromState hlogged.keyed).mp hedge
    refine ⟨hlogged.tidy hgraph htidy nodeId row hrow dep hdep, fun hname => ?_⟩
    obtain rfl : row.id = nodeId := hlogged.keyed nodeId row hrow
    rcases hlogged.edgesFrom _ row hrow with hrecalls | ⟨hdeclares, hwrote⟩ | ⟨hcompanion, -⟩
    · obtain ⟨prior, hprior, -⟩ := id hrecalls
      exact .inr ⟨⟨hname, StateGraph.mem_of_row hprior, row, hrow, hrecalls.mem⟩,
        (hrecalls.mem dep).mp hdep⟩
    · by_cases hrewired : run.Rewired row.id
      · exact .inl ⟨⟨hrewired, row, hrow, hdeclares.mem⟩, (hdeclares.mem dep).mp hdep⟩
      · -- The config's edges are those it was recorded with.
        have hsame : row.id ∈ run.prior ∧ ∀ dep, dep ∈ run.declaredEdges row.id ↔
            dep ∈ run.recordedEdges row.id := by
          obtain ⟨node, hnode, -⟩ := id hdeclares
          have hmem : row.id ∈ run.desired.ir.byId := by
            rw [Std.ExtTreeMap.mem_iff_isSome_getElem?, hnode]
            rfl
          by_contra hdiffers
          refine hrewired ⟨hmem, hwrote.1, fun hprior => ?_⟩
          by_contra hnone
          exact hdiffers ⟨hprior, fun dep => not_not.mp fun h => hnone ⟨dep, h⟩⟩
        have hrecorded : ∀ dep, dep ∈ row.edges ↔ dep ∈ run.recordedEdges row.id :=
          fun dep => (hdeclares.mem dep).trans (hsame.2 dep)
        exact .inr ⟨⟨hname, hsame.1, row, hrow, hrecorded⟩, (hrecorded dep).mp hdep⟩
    · exact (hname hcompanion).elim
  have hpath : ∀ nodeId dep,
      Relation.TransGen (Closure.Step (irFromState state.world.rows).edgesOf) nodeId dep →
        '~' ∉ nodeId.toList → '~' ∉ dep.toList ∧ Relation.TransGen (run.MixedEdge
          (run.IsDeclared state.world.rows) (run.IsRecorded state.world.rows)) nodeId dep := by
    intro nodeId dep hpath hname
    induction hpath with
    | single hedge => exact ⟨(hstep _ _ hedge).1, .single ((hstep _ _ hedge).2 hname)⟩
    | tail _ hedge ih => exact ⟨(hstep _ _ hedge).1, ih.2.tail ((hstep _ _ hedge).2 ih.1)⟩
  obtain ⟨last, -, hedge⟩ := Relation.TransGen.tail'_iff.mp hcycle
  exact hmixes _ _ hlogged.mixture start (hpath start start hcycle (hstep last start hedge).1).2

/-- The states a sequence of applies of acyclic configs can leave, each complete or stopped
anywhere. -/
inductive Applied (allowed : RunContext → Prop) : StateGraph → Prop
  | empty : Applied allowed ∅
  | apply {run : RunContext} {cloud : Cloud} {state : RunState} (hprior : Applied allowed run.prior)
      (hallowed : allowed run) (hgraph : ∃ graph, buildGraph run.desired.ir = .ok graph)
      (hreach : run.Reaches cloud state) : Applied allowed state.world.rows

/-- **The state graph stays acyclic**, as long as no apply's config and rows mix to a cycle. -/
theorem applied_stateDigraph {rows : StateGraph} (happlied : Applied MixesAcyclically rows) :
    ∃ graph, stateDigraph rows = .ok graph := by
  suffices hall : rows.Keyed ∧ Tidy rows ∧ (irFromState rows).Acyclic from
    (stateDigraph_isOk hall.1).mpr hall.2.2
  induction happlied with
  | empty =>
    refine ⟨fun nodeId row hrow => ?_, fun nodeId row hrow => ?_, ?_⟩
    · simp at hrow
    · simp at hrow
    · intro nodeId hcycle
      obtain ⟨last, -, hedge⟩ := Relation.TransGen.tail'_iff.mp hcycle
      obtain ⟨row, hrow, -⟩ := (mem_edgesOf_irFromState (fun nodeId row hrow => by simp at hrow)).mp
        hedge
      simp at hrow
  | apply hprior hallowed hgraph hreach ih =>
    have hlogged := hreach.logged
    exact ⟨hlogged.keyed, hlogged.tidy hgraph ih.2.1, hlogged.acyclic hgraph ih.2.1 hallowed⟩

/-- The first apply has nothing to mix its config's edges with. -/
theorem mixesAcyclically_of_empty (hprior : run.prior = ∅)
    (hgraph : ∃ graph, buildGraph run.desired.ir = .ok graph) : run.MixesAcyclically := by
  intro declared recorded _ nodeId hcycle
  obtain ⟨graph, hgraph⟩ := hgraph
  refine (buildGraph_eq_ok.mp hgraph).2.2 nodeId (hcycle.lift id ?_)
  rintro other dep (⟨-, hdep⟩ | ⟨-, hdep⟩)
  · exact hdep
  · simp [recordedEdges, hprior] at hdep

end

/-- The changeset is what the planner's diff makes of the config and the rows. -/
def Diffed (run : RunContext) : Prop :=
  ∃ verdicts replace, run.changeset = diff ⟨run.desired.ir, run.desired.hashes, run.prior,
    typeMutability run.env.types, verdicts⟩ replace

end RunContext

namespace Small

/-- `a` waits for `b`. -/
def forth : Desired := config [node "a" ["s:t:b"], node "b" []]

/-- `b` waits for `a`, and is otherwise another `b`. -/
def back : Desired :=
  config [node "a" [], node "b" ["s:t:a"] ((∅ : Dict String Value).insert "size" (.str "2"))]

def create : RunContext :=
  .wire env forth (diff (diffInputs forth ∅) []) ∅ false (by decide +kernel) (diff_planned _ _)

def created : StateGraph := rows [row (node "a" ["s:t:b"]) "r1", row (node "b" []) "r0"]

def turn : RunContext :=
  .wire env back (diff (diffInputs back created) []) created false (by decide +kernel)
    (diff_planned _ _)

def turnCloud : Cloud where
  resources := (∅ : Dict String Physical).insert "r0" ⟨"t", ∅⟩ |>.insert "r1" ⟨"t", ∅⟩
  next := 2

theorem create_reaches : ∃ state, create.Reaches ⟨∅, 0⟩ state ∧ state.world.rows = created := by
  have hrun : ((create.steps ([.next] ++ goes "s:t:b" 7 ++ goes "s:t:a" 7 ++ [.next, .next])
      (create.start ⟨∅, 0⟩)).any fun state => decide (state.world.rows = created)) = true := by
    decide +kernel
  obtain ⟨state, hsteps, hrows⟩ := (Option.any_eq_true _ _).mp hrun
  exact ⟨state, ⟨_, hsteps⟩, of_decide_eq_true hrows⟩

theorem graph_of_isOk {desired : Desired} (hok : (buildGraph desired.ir).isOk) :
    ∃ graph, buildGraph desired.ir = .ok graph := by
  cases hgraph : buildGraph desired.ir with
  | ok graph => exact ⟨graph, rfl⟩
  | error fault => simp [hgraph, Except.isOk, Except.toBool] at hok

end Small

/-- The rows of two nodes, the second created first. -/
theorem applied_stateDigraph_created : ∃ graph, stateDigraph Small.created = .ok graph := by
  obtain ⟨state, hreach, hrows⟩ := Small.create_reaches
  have hgraph : ∃ graph, buildGraph Small.forth.ir = .ok graph :=
    Small.graph_of_isOk (by decide +kernel)
  have hmixes : Small.create.MixesAcyclically :=
    RunContext.mixesAcyclically_of_empty rfl hgraph
  have happlied := RunContext.Applied.apply .empty hmixes hgraph hreach
  rw [hrows] at happlied
  exact RunContext.applied_stateDigraph happlied

/-- An edge that is turned round, with only one of its ends changed otherwise, stands both ways in
the rows: edges that only order nodes are no part of what the diff compares. -/
theorem applied_cycle : ¬ ∀ rows, RunContext.Applied RunContext.Diffed rows →
    ∃ graph, stateDigraph rows = .ok graph := by
  intro hall
  obtain ⟨state, hreach, hrows⟩ := Small.create_reaches
  have hcreate : Small.create.Diffed := ⟨∅, [], rfl⟩
  have happlied := RunContext.Applied.apply .empty hcreate
    (Small.graph_of_isOk (by decide +kernel)) hreach
  rw [hrows] at happlied
  have hrun : ((Small.turn.steps ([.task (.start "s:t:a"), .task (.start "s:t:b"), .next] ++
      Small.goes "s:t:a" 0 ++ Small.goes "s:t:b" 6) (Small.turn.start Small.turnCloud)).any
        fun state => !(stateDigraph state.world.rows).isOk) = true := by
    decide +kernel
  obtain ⟨last, hsteps, hcycle⟩ := (Option.any_eq_true _ _).mp hrun
  have hturn : Small.turn.Diffed := ⟨∅, [], rfl⟩
  have hlast : Small.turn.Reaches Small.turnCloud last := ⟨_, hsteps⟩
  obtain ⟨graph, hgraph⟩ := hall _ (.apply happlied hturn
    (Small.graph_of_isOk (by decide +kernel)) hlast)
  rw [hgraph] at hcycle
  cases hcycle

end Atlantide.Executor
