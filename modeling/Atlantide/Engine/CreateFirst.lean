import Atlantide.Engine.LockScope
import Atlantide.Graph.Build
import Atlantide.Graph.Forcers

/-! # What create-before-destroy keeps alive

A plan replaces a node destroy-first only where nothing create-before-destroy depends on it. The one
exception is a node on a cycle: it is not counted among those that would lose it. -/

namespace Atlantide

open Closure

/-- Every REPLACE of a node to be created first says so. -/
def ChangeSet.Flagged (changeset : ChangeSet) (ir : IRGraph) : Prop :=
  ∀ change ∈ changeset.changes, change.action = .replace → change.nodeId ∈ effectiveCbd ir →
    change.createBeforeDestroy = true

/-- Nothing create-before-destroy depends on a node that is replaced destroy-first. -/
def ChangeSet.Upheld (changeset : ChangeSet) (ir : IRGraph) : Prop :=
  ∀ change ∈ changeset.changes, change.action = .replace → change.createBeforeDestroy = false →
    ∀ nodeId ∈ effectiveCbd ir, ¬Reaches ir.edgesOf nodeId change.nodeId

section

variable {ir : IRGraph} {changeset : ChangeSet}

theorem ChangeSet.Flagged.map (hflagged : changeset.Flagged ir) {pass : Change → Change}
    (hpass : ∀ change, (change.action = .replace → change.nodeId ∈ effectiveCbd ir →
      change.createBeforeDestroy = true) → (pass change).action = .replace →
        (pass change).nodeId ∈ effectiveCbd ir → (pass change).createBeforeDestroy = true) :
    (changeset.map pass).Flagged ir := by
  intro change hmem
  obtain ⟨before, hbefore, rfl⟩ := List.mem_map.mp hmem
  exact hpass before (hflagged before hbefore)

theorem ChangeSet.Flagged.behindDestroyFirst (hflagged : changeset.Flagged ir)
    (mutability : TypeMutability) : (behindDestroyFirst changeset mutability).Flagged ir := by
  refine hflagged.map fun change hchange => ?_
  split
  · exact hchange
  · exact hchange

theorem diff_flagged (inputs : DiffInputs) (replace : List String) :
    (diff inputs replace).Flagged inputs.desired := by
  refine ChangeSet.Flagged.behindDestroyFirst (fun change hmem hreplace hfirst => ?_) _
  obtain ⟨before, -, rfl⟩ := List.mem_map.mp hmem
  rw [createFirst_action] at hreplace
  rw [createFirst_nodeId] at hfirst
  rw [createFirst, if_pos ⟨hreplace, hfirst⟩]

theorem ChangeSet.Flagged.restrict (hflagged : changeset.Flagged ir) (selected : List String) :
    (restrict changeset selected).Flagged ir := by
  refine hflagged.map fun change hchange => ?_
  split
  · exact hchange
  · exact nofun

theorem ChangeSet.Flagged.appliedTo (hflagged : changeset.Flagged ir) (audit : SecretAudit)
    (mutability : TypeMutability) :
    (audit.appliedTo changeset mutability (effectiveCbd ir)).Flagged ir := by
  unfold SecretAudit.appliedTo
  split
  next => exact hflagged
  next =>
    refine ChangeSet.Flagged.behindDestroyFirst (hflagged.map fun change hchange => ?_) _
    unfold SecretAudit.upgraded
    split_ifs
    · exact hchange
    · exact fun _ hfirst => decide_eq_true hfirst
    · exact nofun

/-- A REPLACE that is left destroy-first was asked to be, or is downgraded and nothing else forces
it. -/
theorem resolveCbd_destroyFirst {types : Types} {mutability : TypeMutability}
    {forcers : String → List String} {resolved : ChangeSet} {downgraded : List String}
    (hok : resolveCbd changeset types mutability forcers = .ok (resolved, downgraded))
    {change : Change} (hmem : change ∈ resolved.changes) (hreplace : change.action = .replace)
    (hlast : change.createBeforeDestroy = false) :
    ∃ before ∈ changeset.changes, before.nodeId = change.nodeId ∧ before.action = .replace ∧
      (before.createBeforeDestroy = false ∨
        ∀ origin ∈ forcers change.nodeId, origin = change.nodeId) := by
  unfold resolveCbd at hok
  dsimp only at hok
  split at hok
  next hnone =>
    cases hok
    obtain ⟨before, hbefore, hmade⟩ := List.mem_map.mp hmem
    rw [List.isEmpty_iff, List.filter_eq_nil_iff] at hnone
    have hquiet := hnone before hbefore
    split at hmade
    next hcollides =>
      subst hmade
      refine ⟨before, hbefore, rfl, hreplace, .inr fun origin horigin => ?_⟩
      rw [hcollides, Bool.true_and, Bool.not_eq_true', Bool.not_eq_false,
        List.isEmpty_iff] at hquiet
      by_contra hother
      have hlisted : origin ∈ sortedSet ((forcers before.nodeId).filter (· ≠ before.nodeId)) :=
        mem_sortedSet.mpr (List.mem_filter.mpr ⟨horigin, decide_eq_true hother⟩)
      rw [hquiet] at hlisted
      cases hlisted
    next =>
      subst hmade
      exact ⟨before, hbefore, rfl, hreplace, .inl hlast⟩
  next => cases hok

/-- **A resolved changeset upholds what was flagged**, where no node depends on itself. -/
theorem resolveCbd_upheld (hflagged : changeset.Flagged ir) (hacyclic : ir.Acyclic) {types : Types}
    {mutability : TypeMutability} {forcers : String → List String} {resolved : ChangeSet}
    {downgraded : List String} (hforcers : ∀ nodeId, cbdForcers ir nodeId ⊆ forcers nodeId)
    (hok : resolveCbd changeset types mutability forcers = .ok (resolved, downgraded)) :
    resolved.Upheld ir := by
  intro change hmem hreplace hlast nodeId hfirst hreach
  obtain ⟨before, hbefore, hnode, haction, hwhy⟩ :=
    resolveCbd_destroyFirst hok hmem hreplace hlast
  obtain ⟨origin, horigin, hdeclared, hforces⟩ := mem_effectiveCbd.mp hfirst
  have hreaches : Reaches ir.edgesOf origin.id change.nodeId :=
    Relation.TransGen.trans_right hforces hreach
  have heffective : change.nodeId ∈ effectiveCbd ir :=
    mem_effectiveCbd.mpr ⟨origin, horigin, hdeclared, hreaches.to_reflTransGen⟩
  rcases hwhy with hunflagged | hnone
  · rw [hflagged before hbefore haction (hnode ▸ heffective)] at hunflagged
    cases hunflagged
  · have hforcer : origin.id ∈ cbdForcers ir change.nodeId := by
      rw [cbdForcers, List.mem_filter, decide_eq_true_iff, mem_cbdReach]
      exact ⟨List.mem_map_of_mem (List.mem_filter.mpr ⟨horigin, hdeclared⟩),
        hreaches.to_reflTransGen⟩
    have hself := hnone origin.id (hforcers change.nodeId hforcer)
    rw [hself] at hreaches
    exact hacyclic change.nodeId hreaches

theorem ChangeSet.Upheld.behindDestroyFirst (hupheld : changeset.Upheld ir)
    (mutability : TypeMutability) : (behindDestroyFirst changeset mutability).Upheld ir := by
  intro change hmem hreplace hlast
  obtain ⟨before, hbefore, hnode, haction, hfirst⟩ :
      ∃ before ∈ changeset.changes, change.nodeId = before.nodeId ∧ change.action = before.action ∧
        change.createBeforeDestroy = before.createBeforeDestroy := by
    obtain ⟨before, hbefore, rfl⟩ := List.mem_map.mp hmem
    refine ⟨before, hbefore, ?_⟩
    split
    · exact ⟨rfl, rfl, rfl⟩
    · exact ⟨rfl, rfl, rfl⟩
  rw [hnode]
  exact hupheld before hbefore (haction ▸ hreplace) (hfirst ▸ hlast)

end

/-- What a plan settles its replacements of is flagged. -/
theorem Planner.audited_flagged (planner : Planner) (compiled : Compiled) (prior : StateGraph)
    (verdicts : ConsumedRefs) (selected : Option (List String)) (replace : List String)
    (audit : SecretAudit) :
    (audit.appliedTo (planner.raw compiled prior verdicts selected replace) planner.mutability
      (effectiveCbd compiled.ir)).Flagged compiled.ir := by
  refine ChangeSet.Flagged.appliedTo ?_ audit planner.mutability
  unfold raw
  cases selected with
  | none => exact diff_flagged _ _
  | some nodeIds => exact (diff_flagged _ _).restrict nodeIds

/-- **The forcers are exact, and a plan destroys nothing first that a create-before-destroy node
still uses.** The walk ends over every config, and holds for a node exactly the declared nodes that
depend on it. -/
theorem forcers_exact (ir : IRGraph) : ∃ forcers, ir.walkForcers = some forcers ∧
    (∀ origin nodeId, origin ∈ forcers.getD nodeId [] ↔ Depends ir origin nodeId ∧
      ∃ node ∈ ir.nodes, node.createBeforeDestroy = true ∧ node.id = origin) ∧
    (∀ nodeId, nodeId ∈ forcers ↔ ∃ origin, origin ∈ forcers.getD nodeId []) ∧
    (∀ nodeId ∈ forcers, ∀ dep ∈ ir.edgesOf nodeId, dep ∈ forcers) ∧
    (ir.Acyclic → ∀ (changeset resolved : ChangeSet) (types : Types) (mutability : TypeMutability)
      (downgraded : List String), changeset.Flagged ir →
        resolveCbd changeset types mutability (forcers.getD · []) = .ok (resolved, downgraded) →
          resolved.Upheld ir) ∧
    (ir.Acyclic → ∀ (planner : Planner) (compiled : Compiled) (prior : StateGraph)
      (stackOutputs : Dict String Value) (selected : Option (List String)) (replace : List String)
      (plan : Plan), compiled.ir = ir →
        planner.build compiled prior stackOutputs selected replace = .ok plan →
          plan.changeset.Upheld ir) := by
  obtain ⟨forcers, hwalk, htells⟩ := walkForcers_eq_some ir
  have hforcers : ∀ nodeId, cbdForcers ir nodeId ⊆ forcers.getD nodeId [] :=
    fun nodeId origin hmem => (mem_cbdForcers hwalk).mp hmem
  refine ⟨forcers, hwalk, fun origin nodeId => ?_, fun nodeId => ?_, fun nodeId hmem dep hdep => ?_,
    fun hacyclic changeset resolved types mutability downgraded hflagged hok => ?_, ?_⟩
  · rw [htells.tells, List.mem_map, and_comm]
    simp only [List.mem_filter, and_assoc]
  · rw [htells.proper nodeId]
    exact ⟨List.exists_mem_of_ne_nil _, fun ⟨origin, hmem⟩ => List.ne_nil_of_mem hmem⟩
  · rw [← mem_effectiveCbd_iff hwalk] at hmem ⊢
    exact effectiveCbd_closed hmem hdep
  · exact resolveCbd_upheld hflagged hacyclic hforcers hok
  · rintro hacyclic planner compiled prior stackOutputs selected replace plan rfl hplan
    obtain ⟨verdicts, audit, resolved, downgraded, -, -, hresolved, hchanges⟩ :=
      Planner.build_stages hplan
    rw [hchanges]
    refine ChangeSet.Upheld.behindDestroyFirst ?_ planner.mutability
    exact resolveCbd_upheld (planner.audited_flagged compiled prior verdicts selected replace audit)
      hacyclic (fun nodeId => List.Subset.refl _) hresolved

namespace Cyclic

/-- Two nodes that refer to each other; the first is declared create-before-destroy. -/
def first : IRNode :=
  { id := "s:t:a", type := "t", provider := "p", providerVersion := "1", properties := ∅
    dependencies := ["s:t:b"], createBeforeDestroy := true }

def second : IRNode :=
  { id := "s:t:b", type := "t", provider := "p", providerVersion := "1", properties := ∅
    dependencies := ["s:t:a"] }

def ir : IRGraph := ⟨[first, second]⟩

def row (node : IRNode) : StateNode :=
  { id := node.id, type := node.type, provider := node.provider
    providerVersion := node.providerVersion, inputHash := "hash"
    dependencies := node.dependencies }

def replacing (node : IRNode) (field : String) : Change :=
  { nodeId := node.id, action := .replace, desired := some node, prior := some (row node)
    changedFields := [field], createBeforeDestroy := true }

/-- Only the second node's replacement has an identity of its own. -/
def changeset : ChangeSet := ⟨[replacing first "tag", replacing second "place"]⟩

def mutability : TypeMutability := fun _ field =>
  if field = "place" then some .immutable else some .mutable

/-- The first node is destroyed first while the second, create-before-destroy for its sake, uses
it. -/
theorem cyclic_not_upheld : ∃ forcers resolved downgraded, ir.walkForcers = some forcers ∧
    changeset.Flagged ir ∧
    resolveCbd changeset (fun _ => none) mutability (forcers.getD · []) =
      .ok (resolved, downgraded) ∧ ¬resolved.Upheld ir := by
  have hrun : (ir.walkForcers.bind fun forcers =>
      (resolveCbd changeset (fun _ => none) mutability (forcers.getD · [])).toOption).any
        (fun found => found.1.changes.any fun change =>
          change.nodeId = "s:t:a" && change.action = .replace && !change.createBeforeDestroy) =
            true := by
    decide +kernel
  obtain ⟨⟨resolved, downgraded⟩, hfound, hlast⟩ := (Option.any_eq_true _ _).mp hrun
  obtain ⟨forcers, hforcers, hok⟩ := Option.bind_eq_some_iff.mp hfound
  refine ⟨forcers, resolved, downgraded, hforcers, ?_, Fallible.ok_of_toOption hok,
    fun hupheld => ?_⟩
  · have hall : ∀ change ∈ changeset.changes, change.createBeforeDestroy = true := by decide
    exact fun change hmem _ _ => hall change hmem
  · obtain ⟨change, hmem, hchange⟩ := List.any_eq_true.mp hlast
    simp only [Bool.and_eq_true, Bool.not_eq_true', decide_eq_true_eq] at hchange
    have hfirst : "s:t:b" ∈ effectiveCbd ir := by decide +kernel
    refine hupheld change hmem hchange.1.2 hchange.2 "s:t:b" hfirst ?_
    rw [hchange.1.1]
    have hstep : "s:t:a" ∈ ir.edgesOf "s:t:b" := by decide +kernel
    exact .single hstep

end Cyclic

end Atlantide
