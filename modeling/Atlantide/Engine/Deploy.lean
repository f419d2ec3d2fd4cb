import Atlantide.Engine.Apply
import Atlantide.Executor.RecordedEdges
import Atlantide.IR.Artifact

/-! # Deploying an artifact

A deploy checks the artifact's hash and its provider pins, and plans from its config without the
source. The hash leaves out the renames and the ordering-only edges, which the deploy reads. -/

namespace Atlantide

/-- Why a deploy makes no plan. -/
inductive DeployFault
  | artifact (error : ArtifactError)
  | incompatible (provider : String)
  /-- A type that is not registered. -/
  | unregistered (nodeId : String)
  | graph
  | planning (fault : ApplyFault)

/-- Where artifacts are deployed. -/
structure Deploy where
  planner : Planner
  /-- Whether the registered build of a provider satisfies a pin. -/
  compatible : String → String → Bool
  fnmatch : String → String → Bool
  stackOutputs : Dict String Value

namespace Deploy

variable (deploy : Deploy)

def verifyArtifact (artifact : Artifact) : Except DeployFault Unit := do
  (verifyHash deploy.planner.codec artifact).mapError .artifact
  match artifact.providerPins.toList.find? fun pin => !deploy.compatible pin.1 pin.2 with
  | some pin => .error (.incompatible pin.1)
  | none => .ok ()

/-- A config as planning reads it. The resources are the stored properties, which planning does not
look at. -/
def assembleCompiled (ir : IRGraph) (hashes : Dict String String) : Compiled where
  ir := ir
  hashes := (hashes.getD · "")
  resources := ir.byId.map fun _ node => plainInputs node.properties
  lowered nodeId node hnode := by
    rw [Std.ExtTreeMap.getD_eq_getD_getElem?, Std.ExtTreeMap.getElem?_map, hnode]
    exact (canonicalInputs_plainInputs node.properties).symm

/-- The config with its graph, which says in what order its nodes act. -/
def compiledFromArtifact (artifact : Artifact) : Except DeployFault (Compiled × DiGraph) :=
  if artifact.envs ≠ [] ∧ artifact.envsDeclared = [] then .error (.artifact .outdated)
  else
    match artifact.ir.nodes.find? fun node => (deploy.planner.types node.type).isNone with
    | some node => .error (.unregistered node.id)
    | none =>
      match buildGraph artifact.ir with
      | .error _ => .error .graph
      | .ok graph =>
        match merkleHashes deploy.planner.codec artifact.ir (topologicalOrder graph) with
        | none => .error .graph
        | some hashes => .ok (assembleCompiled artifact.ir hashes, graph)

/-- The environments the build left out. -/
def narrowing (artifact : Artifact) : Narrowing where
  fnmatch := deploy.fnmatch
  envsExcluded :=
    if artifact.envs = [] then [] else artifact.envsDeclared.filter (· ∉ artifact.envs)
  targets := []

/-- What a deploy over the state does, and in what order its nodes act. -/
def plan (artifact : Artifact) (prior : StateGraph) :
    Except DeployFault (ChangeSet × List String) := do
  deploy.verifyArtifact artifact
  let (compiled, graph) ← deploy.compiledFromArtifact artifact
  match resolveAliases deploy.planner.codec prior compiled.ir with
  | none => .error (.planning .aliases)
  | some (migrated, _) => do
    let (selected, forced) ← ((deploy.narrowing artifact).chosen compiled migrated).mapError
      fun error => .planning (.target error)
    let plan ← (deploy.planner.build compiled migrated deploy.stackOutputs selected forced).mapError
      fun fault => .planning (.plan fault)
    .ok (plan.changeset, topologicalOrder graph)

end Deploy

/-- What the hash leaves out of a node. -/
def IRNode.unhashed (node : IRNode) : List String × List String := (node.aliases, node.dependsOn)

theorem IRNode.eq_of_anchored {node other : IRNode} (hanchored : node.anchored = other.anchored)
    (hunhashed : node.unhashed = other.unhashed) : node = other := by
  obtain ⟨haliases, hdependsOn⟩ := Prod.mk.inj hunhashed
  calc node
      = { node.anchored with aliases := node.aliases, dependsOn := node.dependsOn } := rfl
    _ = { other.anchored with aliases := other.aliases, dependsOn := other.dependsOn } := by
      rw [hanchored, haliases, hdependsOn]
    _ = other := rfl

theorem nodes_eq_of_anchored {nodes nodes' : List IRNode}
    (hanchored : nodes.map (·.anchored) = nodes'.map (·.anchored))
    (hunhashed : nodes.map (·.unhashed) = nodes'.map (·.unhashed)) : nodes = nodes' := by
  rw [← List.forall₂_eq_eq_eq, List.forall₂_map_left_iff, List.forall₂_map_right_iff] at hanchored
  rw [← List.forall₂_eq_eq_eq, List.forall₂_map_left_iff, List.forall₂_map_right_iff] at hunhashed
  rw [← List.forall₂_eq_eq_eq]
  induction hanchored with
  | nil => exact .nil
  | cons hnode _ ih =>
    cases hunhashed with
    | cons hrest hrests => exact .cons (IRNode.eq_of_anchored hnode hrest) (ih hrests)

namespace Deploy

/-- **An artifact whose config was exchanged.** If its hash still verifies, the configs are the same
but for aliases and ordering-only edges; if these are the same too, every deploy of it does what a
deploy of the one that was built does, in the same order. -/
theorem plan_of_verified {deploy : Deploy} {ir other : IRGraph} {version version' : Int}
    {envs envsDeclared : List String} {artifact : Artifact}
    (hexact : deploy.planner.codec.Exact) (hprinted : ir.NodesPrinted)
    (hprinted' : other.NodesPrinted)
    (hbuilt : buildArtifact deploy.planner.codec ir version envs envsDeclared = .ok artifact)
    (hverify : verifyHash deploy.planner.codec
      { artifact with ir := other, version := version' } = .ok ()) :
    (version' = version ∧ other.nodes.map (·.anchored) = ir.nodes.map (·.anchored)) ∧
      (other.nodes.map (·.unhashed) = ir.nodes.map (·.unhashed) → ∀ prior,
        deploy.plan { artifact with ir := other, version := version' } prior =
          deploy.plan artifact prior) := by
  obtain ⟨pins, -, hartifact⟩ := Fallible.bind_eq_ok hbuilt
  obtain rfl := (Except.ok.inj hartifact).symm
  have hhash : hashIr deploy.planner.codec other version' =
      hashIr deploy.planner.codec ir version := by
    unfold verifyHash at hverify
    dsimp only at hverify
    by_contra hdiffers
    rw [if_pos hdiffers] at hverify
    cases hverify
  obtain ⟨hversion, hanchored⟩ := (hashIr_eq_iff hexact hprinted' hprinted).mp hhash
  refine ⟨⟨hversion, hanchored⟩, fun hunhashed prior => ?_⟩
  have hnodes := nodes_eq_of_anchored hanchored hunhashed
  have hir : other = ir := congrArg IRGraph.mk hnodes
  rw [hversion, hir]

end Deploy

namespace Hashed

open Executor

/-- Where things are deployed with exact hashes. -/
def site : Deploy where
  planner := { Small.planner with codec := codec }
  compatible _ _ := true
  fnmatch _ _ := false
  stackOutputs := ∅

/-- The artifact of a config. -/
def built (nodes : List IRNode) : Artifact :=
  { ir := ⟨nodes⟩, version := 1, irHash := hashIr codec ⟨nodes⟩ 1
    providerPins := (∅ : Dict String String).insert "p" "1" }

/-- What a deploy does and in what order, in short. -/
def outline (artifact : Artifact) (prior : StateGraph) :
    Option (List (String × Action) × List String) :=
  (site.plan artifact prior).toOption.map fun found =>
    (found.1.changes.map fun change => (change.nodeId, change.action), found.2)

/-- `c`, with or without the name it had before. -/
def renamed (aliases : List String) : List IRNode := [{ Small.node "c" [] with aliases }]

/-- The row under that name. -/
def oldRows : StateGraph := Small.rows [Small.row (Small.node "b" []) "r0"]

/-- Two nodes, with their ordering-only edges. -/
def ordered (first second : List String) : List IRNode :=
  [Small.node "a" first, Small.node "b" second]

theorem renamed_printed (aliases : List String) : (IRGraph.mk (renamed aliases)).NodesPrinted := by
  intro node hnode name value hvalue
  obtain rfl := List.mem_singleton.mp hnode
  change (∅ : Dict String Value)[name]? = some value at hvalue
  rw [Std.ExtTreeMap.getElem?_empty] at hvalue
  cases hvalue

theorem buildArtifact_renamed : buildArtifact codec ⟨renamed ["b"]⟩ 1 [] [] =
    .ok (built (renamed ["b"])) := rfl

theorem built_verifies {nodes others : List IRNode}
    (hnodes : others.map (·.anchored) = nodes.map (·.anchored)) :
    verifyHash codec { built nodes with ir := ⟨others⟩ } = .ok () :=
  @verifyHash_of_anchored ⟨nodes⟩ codec _ rfl hnodes

end Hashed

/-- An artifact verifies and deploys as it was built. -/
theorem Deploy.plan_of_verified_renamed :
    Hashed.site.plan { Hashed.built (Hashed.renamed ["b"]) with
      ir := ⟨Hashed.renamed ["b"]⟩, version := 1 } Hashed.oldRows =
        Hashed.site.plan (Hashed.built (Hashed.renamed ["b"])) Hashed.oldRows :=
  (@Deploy.plan_of_verified Hashed.site ⟨Hashed.renamed ["b"]⟩ ⟨Hashed.renamed ["b"]⟩ 1 1 [] []
    (Hashed.built (Hashed.renamed ["b"])) Hashed.codec_exact (Hashed.renamed_printed ["b"])
    (Hashed.renamed_printed ["b"]) Hashed.buildArtifact_renamed (Hashed.built_verifies rfl)).2 rfl
    Hashed.oldRows

/-- Taking a rename out of an artifact, or turning an ordering-only edge round, is not detected. The
one makes of a deploy that changes nothing one that deletes a resource, the other reverses the
order. -/
theorem Deploy.unhashed_fields_change_deploys :
    (verifyHash Hashed.codec { Hashed.built (Hashed.renamed ["b"]) with
        ir := ⟨Hashed.renamed []⟩ } = .ok () ∧
      Hashed.outline (Hashed.built (Hashed.renamed ["b"])) Hashed.oldRows =
        some ([("s:t:c", .noop)], ["s:t:c"]) ∧
      Hashed.outline { Hashed.built (Hashed.renamed ["b"]) with ir := ⟨Hashed.renamed []⟩ }
          Hashed.oldRows =
        some ([("s:t:b", .delete), ("s:t:c", .create)], ["s:t:c"])) ∧
    verifyHash Hashed.codec { Hashed.built (Hashed.ordered ["s:t:b"] []) with
        ir := ⟨Hashed.ordered [] ["s:t:a"]⟩ } = .ok () ∧
      Hashed.outline (Hashed.built (Hashed.ordered ["s:t:b"] [])) ∅ =
        some ([("s:t:a", .create), ("s:t:b", .create)], ["s:t:b", "s:t:a"]) ∧
      Hashed.outline { Hashed.built (Hashed.ordered ["s:t:b"] []) with
          ir := ⟨Hashed.ordered [] ["s:t:a"]⟩ } ∅ =
        some ([("s:t:a", .create), ("s:t:b", .create)], ["s:t:a", "s:t:b"]) :=
  ⟨⟨Hashed.built_verifies rfl, by decide +kernel, by decide +kernel⟩, Hashed.built_verifies rfl, by decide +kernel,
    by decide +kernel⟩

end Atlantide
