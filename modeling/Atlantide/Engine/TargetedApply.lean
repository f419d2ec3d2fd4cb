import Atlantide.Engine.Apply
import Atlantide.Executor.RecordedEdges

/-! # What a targeted apply leaves alone

The run of a targeted apply keeps to the nodes its targets select, and so to their rows and their
companions'. The renames written back before it do not: they move the row of any node that has an
alias, and touch every row that names a renamed node or whose recorded hash is not the one its node
has now. -/

namespace Atlantide

open Executor

namespace Executor.RunContext

variable {run : RunContext} {selected : List String} {nodeId : String}

/-- A run whose plan does nothing outside a selection acts on nothing outside it. -/
theorem Acts.within (hidle : run.changeset.IdleOutside selected) (hacts : run.Acts nodeId) :
    nodeId ∈ selected := by
  obtain ⟨change, hchange, hdoes⟩ := hacts
  obtain ⟨hmem, rfl⟩ := run.changes_eq_some.mp hchange
  by_contra houtside
  rw [hidle change hmem houtside] at hdoes
  rcases hdoes with haction | honly
  · exact haction rfl
  · cases honly

/-- What a run may write is a selected node's row, or the companion's of one. -/
theorem Scope.within (hidle : run.changeset.IdleOutside selected) (hscope : run.Scope nodeId) :
    nodeId ∈ selected ∨ ∃ other ∈ selected, cbdCompanionId other = nodeId := by
  cases hscope with
  | own hacts => exact .inl (hacts.within hidle)
  | companion hcopies => exact .inr ⟨_, hcopies.acts.within hidle, rfl⟩

end Executor.RunContext

namespace Apply

variable (apply : Apply)

/-- The nodes the targets name, and everything these depend on. -/
def selectedNodes : List String :=
  match apply.prepared.bind fun rows =>
      resolveAliases apply.planner.codec rows apply.compiled.ir with
  | some (migrated, _) =>
    match apply.narrowing.targetSelection apply.compiled migrated with
    | .ok (some selected) => selected
    | _ => []
  | none => []

/-- The node a row is of: the one that took its id over, if there is one. -/
def nodeOf (nodeId : String) : String :=
  (aliasRemap apply.before apply.compiled.ir).getD nodeId nodeId

/-- The row is of no selected node, nor of a selected node's replaced resource. -/
def Unselected (nodeId : String) : Prop :=
  apply.nodeOf nodeId ∉ apply.selectedNodes ∧
    ∀ selected ∈ apply.selectedNodes, cbdCompanionId selected ≠ apply.nodeOf nodeId

/-- Wherever the apply stops, the rows of unselected nodes are as they were. -/
def Frames : Prop :=
  ∀ after, apply.Leaves after →
    ∀ nodeId, apply.Unselected nodeId → after[nodeId]? = apply.before[nodeId]?

/-- The renames concern selected nodes only: no other node is renamed, names a renamed one, or has a
recorded hash that differs from its own. -/
def Spares : Prop :=
  (aliasRemap apply.before apply.compiled.ir).isEmpty ∨
    ∀ hashes, rehash apply.planner.codec
        (rekeyed (aliasRemap apply.before apply.compiled.ir) apply.before) apply.compiled.ir =
          some hashes →
      ∀ nodeId, apply.Unselected nodeId →
        (∀ oldId : String, (aliasRemap apply.before apply.compiled.ir)[oldId]? ≠ some nodeId) ∧
          ∀ row, apply.before[nodeId]? = some row →
            row.Settled (aliasRemap apply.before apply.compiled.ir) hashes

variable {apply : Apply} {rows : StateGraph} {nodeId : String}

theorem nodeOf_of_recorded_not (hrecorded : nodeId ∉ apply.before) :
    apply.nodeOf nodeId = nodeId := by
  refine getD_of_not_mem fun hrenamed => hrecorded ?_
  obtain ⟨newId, hnew⟩ := Option.isSome_iff_exists.mp
    (Std.ExtTreeMap.mem_iff_isSome_getElem?.mp hrenamed)
  exact (aliasRemap_fresh _ _ nodeId newId hnew).1

/-- The renames leave the rows of unselected nodes alone exactly when they are to be spared. -/
theorem prepared_frame_iff (hprepared : apply.prepared = some rows) :
    (∀ nodeId, apply.Unselected nodeId → rows[nodeId]? = apply.before[nodeId]?) ↔
      apply.Spares := by
  have hfresh := aliasRemap_fresh apply.before apply.compiled.ir
  rcases aliasMigration_eq_some apply.keyed hprepared with
    ⟨hempty, rfl⟩ | ⟨hnonempty, hashes, hhashes, rfl, -⟩
  · exact ⟨fun _ => .inl hempty, fun _ _ _ => rfl⟩
  · constructor
    · intro hframe
      refine .inr fun found hfound nodeId hunselected => ?_
      obtain rfl : hashes = found := Option.some.inj (hhashes.symm.trans hfound)
      exact (getElem?_migratedRows_eq hfresh apply.keyed hashes).mp (hframe nodeId hunselected)
    · rintro (hempty | hspares) nodeId hunselected
      · exact (hnonempty hempty).elim
      · exact (getElem?_migratedRows_eq hfresh apply.keyed hashes).mpr
          (hspares hashes hhashes nodeId hunselected)

/-- A renamed node's old row is of a node that the renames do not spare, if it is not selected. -/
theorem Spares.kept (hspares : apply.Spares) (hprepared : apply.prepared = some rows)
    (hunselected : apply.Unselected nodeId) : apply.nodeOf nodeId = nodeId := by
  refine getD_of_not_mem fun hrenamed => ?_
  obtain ⟨newId, hnew⟩ := Option.isSome_iff_exists.mp
    (Std.ExtTreeMap.mem_iff_isSome_getElem?.mp hrenamed)
  have hnode : apply.nodeOf newId = apply.nodeOf nodeId := by
    rw [nodeOf_of_recorded_not (aliasRemap_fresh _ _ nodeId newId hnew).2]
    exact (getD_of_renamed hnew).symm
  have hunselected' : apply.Unselected newId := by
    rw [Unselected, hnode]
    exact hunselected
  rcases aliasMigration_eq_some apply.keyed hprepared with
    ⟨hempty, -⟩ | ⟨hnonempty, hashes, hhashes, -⟩
  · rw [Std.ExtTreeMap.isEmpty_iff.mp hempty, Std.ExtTreeMap.getElem?_empty] at hnew
    cases hnew
  · rcases hspares with hempty | hspares
    · exact hnonempty hempty
    · exact (hspares hashes hhashes newId hunselected').1 nodeId hnew

/-- A targeted run's plan does nothing outside what the targets select. -/
theorem Runs.idleOutside {run : RunContext} (hruns : apply.Runs run)
    (htargets : apply.narrowing.targets ≠ []) :
    run.changeset.IdleOutside apply.selectedNodes := by
  obtain ⟨plan, hplan, -, hchanges⟩ := hruns.plan
  obtain ⟨migrated, remap, narrowed, forced, hresolved, hchosen, hbuild⟩ :=
    planFromCompiled_eq_ok hplan
  obtain ⟨selected, kept, hselection, rfl, hkept⟩ :=
    Narrowing.chosen_targeted htargets hchosen
  have hselected : apply.selectedNodes = selected := by
    unfold selectedNodes
    rw [hruns.prior, Option.bind_some, hresolved]
    dsimp only
    rw [hselection]
  rw [hselected, ← hchanges]
  exact fun change hmem houtside =>
    Planner.build_selected hbuild change hmem fun hin => houtside (hkept hin)

/-- **When a targeted apply leaves everything else as it was.** Exactly when it is refused before
its first write, or the renames written back under its lock spare every node that is not
selected. -/
theorem targeted_frame_iff (apply : Apply) (htargets : apply.narrowing.targets ≠ []) :
    apply.Frames ↔ (apply.begins → apply.prepared.isSome → apply.Spares) := by
  constructor
  · intro hframes hbegins hprepared
    obtain ⟨rows, hrows⟩ := Option.isSome_iff_exists.mp hprepared
    exact (prepared_frame_iff hrows).mp (hframes rows (.migrated hbegins hrows))
  · intro hcondition after hleaves nodeId hunselected
    cases hleaves with
    | untouched => rfl
    | migrated hbegins hprepared =>
      have hspares := hcondition hbegins (by rw [hprepared]; rfl)
      exact (prepared_frame_iff hprepared).mpr hspares nodeId hunselected
    | @ran run cloud state hruns hreach =>
      have hspares := hcondition hruns.begins (by rw [hruns.prior]; rfl)
      have hnode := hspares.kept hruns.prior hunselected
      have hscope : ¬ run.Scope nodeId := by
        intro hscope
        rcases hscope.within (hruns.idleOutside htargets) with hin | ⟨other, hin, hcompanion⟩
        · exact hunselected.1 (hnode.symm ▸ hin)
        · exact hunselected.2 other hin (hcompanion.trans hnode.symm)
      calc state.world.rows[nodeId]?
          = run.prior[nodeId]? := hreach.logged.frame hscope
        _ = apply.before[nodeId]? :=
            (prepared_frame_iff hruns.prior).mpr hspares nodeId hunselected

end Apply

/-! ## A rename outside the targets -/

namespace Executor.Small

/-- `b` is declared under a new name. -/
def renamed : Desired := config [node "a" [], { node "c" [] with aliases := ["b"] }]

/-- Both were applied under their old names. -/
def namedBefore : StateGraph := rows [row (node "a" []) "r1", row (node "b" []) "r0"]

/-- A codec to which every node that sets nothing has the hash its row records. -/
def hashCodec : Codec := { codec with canonical := fun _ => "#" }

/-- The rename, applied with `a` as its only target. -/
def targetA : Apply where
  planner := { planner with codec := hashCodec }
  compiled := plain renamed (plain_of_two rfl rfl rfl)
  narrowing := { fnmatch := fun nodeId pattern => decide (nodeId = pattern), targets := ["s:t:a"] }
  stackOutputs := ∅
  blocked _ := false
  snapshot := namedBefore
  before := namedBefore
  keyed := by
    have hall : namedBefore.toList.all fun entry => entry.2.id = entry.1 := by decide +kernel
    intro nodeId row hrow
    simpa using List.all_eq_true.mp hall (nodeId, row)
      (Std.ExtTreeMap.mem_toList_iff_getElem?_eq_some.mpr hrow)

def moved : StateGraph := targetA.prepared.getD ∅

def targetRun : RunContext :=
  .wire { env with codec := hashCodec } renamed
    (restrict (diff (diffInputs renamed moved) []) ["s:t:a"]) moved false (by decide +kernel)
    ((diff_planned _ _).restrict _)

theorem targetA_runs : targetA.Runs targetRun where
  begins := by decide +kernel
  prior := by decide +kernel
  scope := by
    have hall : moved.keys.all fun nodeId => nodeId ∈ targetA.applyScope := by decide +kernel
    intro nodeId hmem
    simpa using List.all_eq_true.mp hall nodeId (Std.ExtTreeMap.mem_keys.mpr hmem)
  ir := rfl
  plan := by
    have hplan : ((targetA.planFromCompiled moved).toOption.map (·.changeset)) =
        some targetRun.changeset := by decide +kernel
    obtain ⟨plan, hfound, hchanges⟩ := Option.map_eq_some_iff.mp hplan
    refine ⟨plan, ?_, Bool.false_ne_true, hchanges⟩
    change targetA.planFromCompiled moved = .ok plan
    cases hresult : targetA.planFromCompiled moved with
    | error fault =>
      rw [hresult] at hfound
      cases hfound
    | ok found =>
      rw [hresult] at hfound
      cases hfound
      rfl

/-- The same apply of a config that renames nothing. -/
def targetPlain : Apply :=
  { targetA with compiled := plain (config [node "a" [], node "b" []]) (plain_of_two rfl rfl rfl) }

end Executor.Small

namespace Apply

theorem targeted_frame_small :
    Small.targetPlain.narrowing.targets ≠ [] ∧ Small.targetPlain.Frames :=
  ⟨nofun, (targeted_frame_iff Small.targetPlain nofun).mpr fun _ _ => .inl (by decide +kernel)⟩

/-- A targeted apply that succeeds without having anything to do renames the row of a node that is
not selected. -/
theorem untargeted_renamed : ∃ (apply : Apply) (run : RunContext) (cloud : Cloud)
    (state : RunState) (nodeId : String), apply.narrowing.targets ≠ [] ∧ apply.Runs run ∧
      run.Reaches cloud state ∧ run.Succeeded state ∧ apply.Unselected nodeId ∧
        state.world.rows[nodeId]? ≠ apply.before[nodeId]? ∧ ¬ apply.Frames := by
  have hrun : ((Small.targetRun.steps ([.task (.start "s:t:a"), .task (.start "s:t:c"), .next] ++
      Small.goes "s:t:a" 0 ++ Small.goes "s:t:c" 0 ++
      [.next] ++ Small.goes "s:t:a" 2 ++ Small.goes "s:t:c" 2)
      (Small.targetRun.start Small.turnCloud)).any fun state =>
        decide (state.world.rows["s:t:b"]? = none) && decide (state.stage = .destroy) &&
          Small.targetRun.finished .destroy state.tasks) = true := by
    decide +kernel
  obtain ⟨state, hsteps, hended⟩ := (Option.any_eq_true _ _).mp hrun
  simp only [Bool.and_eq_true, decide_eq_true_eq] at hended
  have hselected : Small.targetA.selectedNodes = ["s:t:a", "s:t:a"] ∧
      Small.targetA.nodeOf "s:t:b" = "s:t:c" := by
    decide +kernel
  have hunselected : Small.targetA.Unselected "s:t:b" := by
    rw [Unselected, hselected.1, hselected.2]
    decide +kernel
  have hbefore : (Small.targetA.before["s:t:b"]?).isSome := by decide +kernel
  have hdiffers : state.world.rows["s:t:b"]? ≠ Small.targetA.before["s:t:b"]? := by
    rw [hended.1.1]
    intro hnone
    rw [← hnone] at hbefore
    cases hbefore
  refine ⟨Small.targetA, Small.targetRun, Small.turnCloud, state, "s:t:b", nofun,
    Small.targetA_runs, ⟨_, hsteps⟩, ⟨hended.1.2, hended.2⟩, hunselected, hdiffers, ?_⟩
  exact fun hframes =>
    hdiffers (hframes _ (.ran Small.targetA_runs ⟨_, hsteps⟩) "s:t:b" hunselected)

end Apply

end Atlantide
