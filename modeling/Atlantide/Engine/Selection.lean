import Atlantide.Engine.Planner

/-! # Which nodes a run acts on

The `--target`, `--replace` and `--env` narrowing: functions of a compiled config and the prior
state. -/

namespace Atlantide

inductive TargetError
  /-- The pattern matched no resource. -/
  | unmatched (pattern : String)
  /-- The patterns matched only resources of environments that were left out. -/
  | excluded (patterns : List String)
  deriving DecidableEq

/-- The id without its stack. -/
def shortId (nodeId : String) : String := (partition ':' nodeId).2.getD ""

/-- The seeds and everything they transitively depend on. -/
def closure (ir : IRGraph) (seeds : List String) : List String :=
  Closure.visit ir.edgesOf (seeds.length + Closure.pushes ir.edgesOf ir.byId.keys []) seeds []

/-- What narrows a run, and how its globs match. -/
structure Narrowing where
  fnmatch : String → String → Bool
  /-- The declared environments that are not part of the run. -/
  envsExcluded : List String := []
  targets : List String
  replace : List String := []

namespace Narrowing

variable (narrowing : Narrowing) (compiled : Compiled) (prior : StateGraph)

/-- Every node id a pattern may name. -/
def knownIds : List String := sortedSet (compiled.ir.byId.keys ++ prior.keys)

def matchOne (pattern : String) (nodeIds : List String) : List String :=
  if pattern ∈ nodeIds then [pattern]
  else if "default:" ++ pattern ∈ nodeIds then ["default:" ++ pattern]
  else nodeIds.filter fun nodeId =>
    narrowing.fnmatch nodeId pattern || narrowing.fnmatch (shortId nodeId) pattern

def matchTargets (patterns known : List String) : Except TargetError (List String) := do
  let found ← patterns.mapM fun pattern =>
    let matched := narrowing.matchOne pattern known
    if matched.isEmpty then .error (TargetError.unmatched pattern) else .ok matched
  .ok found.flatten

/-- The ids the targets name, closed over their dependencies; none without targets. -/
def targetSelection : Except TargetError (Option (List String)) :=
  if narrowing.targets.isEmpty then .ok none
  else (narrowing.matchTargets narrowing.targets (knownIds compiled prior)).map fun seeds =>
    some (closure compiled.ir (seeds.filter (· ∈ compiled.ir.byId)) ++ seeds)

/-- Leaves out the nodes of an environment that is declared but not part of the run. -/
def withinEnvs (selected : Option (List String)) : Except TargetError (Option (List String)) :=
  if narrowing.envsExcluded.isEmpty then .ok selected
  else
    let inScope (nodeId : String) : Bool := stackOf nodeId ∉ narrowing.envsExcluded
    match selected with
    | none => .ok (some ((knownIds compiled prior).filter inScope))
    | some selected =>
      if !selected.isEmpty && (selected.filter inScope).isEmpty then
        .error (.excluded narrowing.targets)
      else .ok (some (selected.filter inScope))

/-- The ids the patterns name, without their dependencies. -/
def matchOnly : Except TargetError (List String) :=
  if narrowing.replace.isEmpty then .ok []
  else narrowing.matchTargets narrowing.replace (knownIds compiled prior)

/-- A plan's selection and forced replacements. -/
def chosen : Except TargetError (Option (List String) × List String) := do
  let selected ← narrowing.targetSelection compiled prior
  let narrowed ← narrowing.withinEnvs compiled prior selected
  .ok (narrowed, ← narrowing.matchOnly compiled prior)

/-- With targets, what a plan may act on is among what they select. -/
theorem chosen_targeted {narrowing : Narrowing} {compiled : Compiled} {prior : StateGraph}
    {narrowed : Option (List String)} {forced : List String} (htargets : narrowing.targets ≠ [])
    (hchosen : narrowing.chosen compiled prior = .ok (narrowed, forced)) :
    ∃ selected kept, narrowing.targetSelection compiled prior = .ok (some selected) ∧
      narrowed = some kept ∧ kept ⊆ selected := by
  obtain ⟨found, hfound, hchosen⟩ := Fallible.bind_eq_ok hchosen
  obtain ⟨within, hwithin, hchosen⟩ := Fallible.bind_eq_ok hchosen
  obtain ⟨forced', -, hchosen⟩ := Fallible.bind_eq_ok hchosen
  cases hchosen
  obtain ⟨selected, rfl⟩ : ∃ selected, found = some selected := by
    unfold targetSelection at hfound
    split at hfound
    next hempty => exact (htargets (List.isEmpty_iff.mp hempty)).elim
    next =>
      obtain ⟨seeds, -, hseeds⟩ := Fallible.map_eq_ok hfound
      exact ⟨_, hseeds.symm⟩
  unfold withinEnvs at hwithin
  dsimp only at hwithin
  split_ifs at hwithin
  · cases hwithin
    exact ⟨selected, selected, hfound, rfl, List.Subset.refl _⟩
  · cases hwithin
    exact ⟨selected, _, hfound, rfl, List.filter_sublist.subset⟩

end Narrowing

end Atlantide
