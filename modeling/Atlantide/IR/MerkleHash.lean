import Atlantide.Graph.Order
import Atlantide.IR.Merkle

/-! # The hash of a node

A node's hash is taken of what the node sets and of its dependencies' hashes. The hashes computed
along an order of the graph are those of the nodes, whatever the order. -/

namespace Atlantide

/-- The dependencies a node's hash covers, in the order it covers them. -/
def IRNode.hashedDeps (node : IRNode) : List String :=
  node.dependencies.mergeSort fun a b => compare a b ≠ .gt

theorem IRNode.mem_hashedDeps {node : IRNode} {dep : String} :
    dep ∈ node.hashedDeps ↔ dep ∈ node.dependencies :=
  (List.mergeSort_perm node.dependencies _).mem_iff

/-- The hashes of a config's nodes, in dependency order. -/
def inputHashes (codec : Codec) (ir : IRGraph) : Option (Dict String String) := do
  let graph ← (buildGraph ir).toOption
  merkleHashes codec ir (topologicalOrder graph)

/-- The digest of a node whose dependencies have the given hashes. -/
def Codec.digestOf (codec : Codec) (node : IRNode) (hashes : String → String) : String :=
  codec.sha256 (codec.canonical (node.merklePayload (node.hashedDeps.map hashes)))

/-- `MerkleHash codec ir nodeId hash`: the node of that id has that hash. -/
inductive MerkleHash (codec : Codec) (ir : IRGraph) : String → String → Prop
  | node {nodeId : String} {node : IRNode} (found : ir.byId[nodeId]? = some node)
      (hashes : String → String)
      (deps : ∀ dep ∈ node.dependencies, MerkleHash codec ir dep (hashes dep)) :
      MerkleHash codec ir nodeId (codec.digestOf node hashes)

section

variable {codec : Codec} {ir : IRGraph}

theorem Codec.digestOf_congr {node : IRNode} {hashes other : String → String}
    (hsame : ∀ dep ∈ node.dependencies, hashes dep = other dep) :
    codec.digestOf node hashes = codec.digestOf node other := by
  have hmap : node.hashedDeps.map hashes = node.hashedDeps.map other :=
    List.map_congr_left fun dep hdep => hsame dep (IRNode.mem_hashedDeps.mp hdep)
  rw [digestOf, hmap, digestOf]

/-- A node has one hash. -/
theorem MerkleHash.unique {nodeId hash other : String} (hhash : MerkleHash codec ir nodeId hash)
    (hother : MerkleHash codec ir nodeId other) : hash = other := by
  induction hhash generalizing other with
  | node hfound hashes hdeps ih =>
    cases hother with
    | node hfound' others hdeps' =>
      rw [hfound, Option.some.injEq] at hfound'
      subst hfound'
      exact Codec.digestOf_congr fun dep hdep => ih dep hdep (hdeps' dep hdep)

/-- A node has its hash in every config that agrees on it and on what it depends on. -/
theorem MerkleHash.transfer {other : IRGraph} {kept : String → Prop} {nodeId hash : String}
    (hhash : MerkleHash codec ir nodeId hash) (hkept : kept nodeId)
    (hsame : ∀ nodeId, kept nodeId → other.byId[nodeId]? = ir.byId[nodeId]?)
    (hclosed : ∀ nodeId node, kept nodeId → ir.byId[nodeId]? = some node →
      ∀ dep ∈ node.dependencies, kept dep) :
    MerkleHash codec other nodeId hash := by
  induction hhash with
  | @node nodeId node hfound hashes _ ih =>
    have hother : other.byId[nodeId]? = some node := (hsame nodeId hkept).trans hfound
    exact .node hother hashes fun dep hdep => ih dep hdep (hclosed nodeId node hkept hfound dep hdep)

theorem mapM_getElem?_eq_some {table : Dict String String} :
    ∀ {names values : List String}, names.mapM (table[·]?) = some values →
      (∀ name ∈ names, name ∈ table) ∧ values = names.map (table.getD · "") := by
  intro names
  induction names with
  | nil =>
    intro values hvalues
    cases hvalues
    exact ⟨nofun, rfl⟩
  | cons name names ih =>
    intro values hvalues
    rw [List.mapM_cons] at hvalues
    obtain ⟨value, hvalue, hvalues⟩ := Option.bind_eq_some_iff.mp hvalues
    obtain ⟨rest, hrest, hvalues⟩ := Option.bind_eq_some_iff.mp hvalues
    cases hvalues
    obtain ⟨hmem, rfl⟩ := ih hrest
    refine ⟨fun other hother => ?_, ?_⟩
    · rcases List.mem_cons.mp hother with rfl | hother
      · exact Std.ExtTreeMap.mem_iff_isSome_getElem?.mpr (by rw [hvalue]; rfl)
      · exact hmem other hother
    · rw [List.map_cons, Std.ExtTreeMap.getD_eq_getD_getElem?, hvalue]
      rfl

theorem mapM_getElem?_of_mem {table : Dict String String} :
    ∀ {names : List String}, (∀ name ∈ names, name ∈ table) →
      names.mapM (table[·]?) = some (names.map (table.getD · "")) := by
  intro names
  induction names with
  | nil => exact fun _ => rfl
  | cons name names ih =>
    intro hmem
    obtain ⟨hname, hnames⟩ := List.forall_mem_cons.mp hmem
    obtain ⟨value, hvalue⟩ := Option.isSome_iff_exists.mp
      (Std.ExtTreeMap.mem_iff_isSome_getElem?.mp hname)
    rw [List.mapM_cons, hvalue, ih hnames, List.map_cons, Std.ExtTreeMap.getD_eq_getD_getElem?,
      hvalue]
    rfl

/-- One node's turn. -/
def hashNode (codec : Codec) (ir : IRGraph) (hashes : Dict String String) (nodeId : String) :
    Option (Dict String String) := do
  let node ← ir.byId[nodeId]?
  let deps ← node.hashedDeps.mapM (hashes[·]?)
  pure (hashes.insert nodeId (codec.sha256 (codec.canonical (node.merklePayload deps))))

theorem merkleHashes_eq (order : List String) :
    merkleHashes codec ir order = order.foldlM (hashNode codec ir) ∅ := rfl

/-- Each hash computed so far is the node's. -/
def HashesRight (codec : Codec) (ir : IRGraph) (hashes : Dict String String) : Prop :=
  ∀ nodeId hash : String, hashes[nodeId]? = some hash → MerkleHash codec ir nodeId hash

theorem hashNode_eq_some {hashes after : Dict String String} {nodeId : String}
    (hturn : hashNode codec ir hashes nodeId = some after) :
    ∃ node, ir.byId[nodeId]? = some node ∧ (∀ dep ∈ node.dependencies, dep ∈ hashes) ∧
      after = hashes.insert nodeId (codec.digestOf node (hashes.getD · "")) := by
  unfold hashNode at hturn
  obtain ⟨node, hfound, hturn⟩ := Option.bind_eq_some_iff.mp hturn
  obtain ⟨deps, hdeps, hturn⟩ := Option.bind_eq_some_iff.mp hturn
  cases hturn
  obtain ⟨hmem, rfl⟩ := mapM_getElem?_eq_some hdeps
  exact ⟨node, hfound, fun dep hdep => hmem dep (IRNode.mem_hashedDeps.mpr hdep), rfl⟩

theorem HashesRight.hashNode {hashes after : Dict String String} {nodeId : String}
    (hright : HashesRight codec ir hashes)
    (hturn : Atlantide.hashNode codec ir hashes nodeId = some after) :
    HashesRight codec ir after := by
  obtain ⟨node, hfound, hdeps, rfl⟩ := hashNode_eq_some hturn
  intro other hash hother
  rw [Std.ExtTreeMap.getElem?_insert] at hother
  split at hother
  next hsame =>
    obtain rfl : nodeId = other := Std.LawfulEqCmp.eq_of_compare hsame
    cases hother
    refine .node hfound _ fun dep hdep => ?_
    obtain ⟨found, hdephash⟩ := Option.isSome_iff_exists.mp
      (Std.ExtTreeMap.mem_iff_isSome_getElem?.mp (hdeps dep hdep))
    rw [Std.ExtTreeMap.getD_eq_getD_getElem?, hdephash]
    exact hright dep found hdephash
  next => exact hright other hash hother

/-- **The hashes computed along an order are the nodes'.** -/
theorem merkleHashes_sound {order : List String} {hashes : Dict String String}
    (hhashes : merkleHashes codec ir order = some hashes) :
    HashesRight codec ir hashes ∧ ∀ nodeId ∈ order, nodeId ∈ hashes := by
  have hfold : ∀ (order : List String) (start : Dict String String),
      HashesRight codec ir start → order.foldlM (hashNode codec ir) start = some hashes →
        HashesRight codec ir hashes ∧ (∀ nodeId ∈ start, nodeId ∈ hashes) ∧
          ∀ nodeId ∈ order, nodeId ∈ hashes := by
    intro order
    induction order with
    | nil =>
      intro start hright hend
      cases hend
      exact ⟨hright, fun _ hmem => hmem, nofun⟩
    | cons nodeId order ih =>
      intro start hright hend
      rw [List.foldlM_cons] at hend
      obtain ⟨next, hturn, hend⟩ := Option.bind_eq_some_iff.mp hend
      obtain ⟨hlast, hkept, hall⟩ := ih next (hright.hashNode hturn) hend
      obtain ⟨node, -, -, rfl⟩ := hashNode_eq_some hturn
      refine ⟨hlast, fun other hmem => hkept other (Std.ExtTreeMap.mem_insert.mpr (.inr hmem)), ?_⟩
      intro other hmem
      rcases List.mem_cons.mp hmem with rfl | hmem
      · exact hkept other Std.ExtTreeMap.mem_insert_self
      · exact hall other hmem
  rw [merkleHashes_eq] at hhashes
  refine (hfold order ∅ (fun nodeId hash hnone => ?_) hhashes).imp_right fun hrest => hrest.2
  rw [Std.ExtTreeMap.getElem?_empty] at hnone
  cases hnone

/-- A node of the order has the hash that was computed for it. -/
theorem merkleHash_getD {order : List String} {hashes : Dict String String}
    (hhashes : merkleHashes codec ir order = some hashes) {nodeId : String}
    (hmem : nodeId ∈ order) : MerkleHash codec ir nodeId (hashes.getD nodeId "") := by
  obtain ⟨hright, hall⟩ := merkleHashes_sound hhashes
  obtain ⟨hash, hhash⟩ := Option.isSome_iff_exists.mp
    (Std.ExtTreeMap.mem_iff_isSome_getElem?.mp (hall nodeId hmem))
  rw [Std.ExtTreeMap.getD_eq_getD_getElem?, hhash]
  exact hright nodeId hash hhash

/-- The nodes of a graph that can be ordered have hashes. -/
theorem merkleHashes_isSome {graph : DiGraph} (hbuilt : buildGraph ir = .ok graph) :
    ∃ hashes, merkleHashes codec ir (topologicalOrder graph) = some hashes := by
  have hfold : ∀ (order done : List String) (start : Dict String String),
      Kahn.Follows ir.edgesOf done order → (∀ nodeId ∈ order, nodeId ∈ ir.byId) →
      (∀ nodeId ∈ done, nodeId ∈ start) →
        ∃ hashes, order.foldlM (hashNode codec ir) start = some hashes := by
    intro order
    induction order with
    | nil => exact fun _ start _ _ _ => ⟨start, rfl⟩
    | cons nodeId order ih =>
      intro done start hfollows hknown hdone
      obtain ⟨-, hready, hrest⟩ := hfollows
      obtain ⟨hnode, hknown⟩ := List.forall_mem_cons.mp hknown
      obtain ⟨node, hfound⟩ := Option.isSome_iff_exists.mp
        (Std.ExtTreeMap.mem_iff_isSome_getElem?.mp hnode)
      have hdeps : ∀ dep ∈ node.hashedDeps, dep ∈ start := by
        intro dep hdep
        refine hdone dep (hready dep ?_)
        rw [IRGraph.edgesOf, hfound]
        refine mem_sortedSet.mpr ?_
        exact List.mem_append_left _ (IRNode.mem_hashedDeps.mp hdep)
      have hturn : hashNode codec ir start nodeId =
          some (start.insert nodeId (codec.digestOf node (start.getD · ""))) := by
        rw [hashNode, hfound, Option.bind_eq_bind, Option.bind_some, mapM_getElem?_of_mem hdeps]
        rfl
      have hnext : ∀ other ∈ nodeId :: done,
          other ∈ start.insert nodeId (codec.digestOf node (start.getD · "")) := by
        intro other hmem
        rcases List.mem_cons.mp hmem with rfl | hold
        · exact Std.ExtTreeMap.mem_insert_self
        · exact Std.ExtTreeMap.mem_insert.mpr (.inr (hdone other hold))
      obtain ⟨hashes, hhashes⟩ := ih (nodeId :: done) _ hrest hknown hnext
      refine ⟨hashes, ?_⟩
      rw [List.foldlM_cons, hturn]
      exact hhashes
  refine hfold _ [] ∅ (topologicalOrder_follows hbuilt) (fun nodeId hmem => ?_)
    (List.forall_mem_nil _)
  exact mem_byId_of_topologicalOrder hbuilt hmem

theorem inputHashes_isSome {graph : DiGraph} (hbuilt : buildGraph ir = .ok graph) :
    ∃ hashes, inputHashes codec ir = some hashes := by
  rw [inputHashes, hbuilt]
  exact merkleHashes_isSome hbuilt

/-- A config that has hashes has a graph, and hashed it in its order. -/
theorem inputHashes_eq_some {hashes : Dict String String}
    (hhashes : inputHashes codec ir = some hashes) : ∃ graph, buildGraph ir = .ok graph ∧
      merkleHashes codec ir (topologicalOrder graph) = some hashes := by
  obtain ⟨graph, hgraph, hmerkle⟩ := Option.bind_eq_some_iff.mp hhashes
  cases hresult : buildGraph ir with
  | error fault =>
    rw [hresult] at hgraph
    cases hgraph
  | ok built =>
    rw [hresult] at hgraph
    cases hgraph
    exact ⟨graph, rfl, hmerkle⟩

theorem inputHashes_getD {hashes : Dict String String}
    (hhashes : inputHashes codec ir = some hashes) {nodeId : String} (hnode : nodeId ∈ ir.byId) :
    MerkleHash codec ir nodeId (hashes.getD nodeId "") := by
  obtain ⟨graph, hbuilt, hmerkle⟩ := inputHashes_eq_some hhashes
  exact merkleHash_getD hmerkle (mem_topologicalOrder hbuilt hnode)

theorem mem_inputHashes {hashes : Dict String String}
    (hhashes : inputHashes codec ir = some hashes) {nodeId : String} (hnode : nodeId ∈ ir.byId) :
    nodeId ∈ hashes := by
  obtain ⟨graph, hbuilt, hmerkle⟩ := inputHashes_eq_some hhashes
  exact (merkleHashes_sound hmerkle).2 nodeId (mem_topologicalOrder hbuilt hnode)

/-- What a node depends on is declared. -/
theorem inputHashes_dep {hashes : Dict String String} (hhashes : inputHashes codec ir = some hashes)
    {nodeId dep : String} {node : IRNode} (hfound : ir.byId[nodeId]? = some node)
    (hdep : dep ∈ node.dependencies) : dep ∈ ir.byId := by
  obtain ⟨graph, hbuilt, -⟩ := inputHashes_eq_some hhashes
  refine (buildGraph_eq_ok.mp hbuilt).2.1 nodeId dep ?_
  rw [IRGraph.edgesOf, hfound]
  exact mem_sortedSet.mpr (List.mem_append_left _ hdep)

/-- A node's hash is the digest of what it sets and of its dependencies' hashes. -/
theorem inputHashes_digest {hashes : Dict String String}
    (hhashes : inputHashes codec ir = some hashes) {nodeId : String} {node : IRNode}
    (hfound : ir.byId[nodeId]? = some node) :
    hashes[nodeId]? = some (codec.digestOf node (hashes.getD · "")) := by
  have hnode : nodeId ∈ ir.byId :=
    Std.ExtTreeMap.mem_iff_isSome_getElem?.mpr (by rw [hfound]; rfl)
  obtain ⟨hash, hhash⟩ := Option.isSome_iff_exists.mp
    (Std.ExtTreeMap.mem_iff_isSome_getElem?.mp (mem_inputHashes hhashes hnode))
  have hmerkle := inputHashes_getD hhashes hnode
  rw [Std.ExtTreeMap.getD_eq_getD_getElem?, hhash, Option.getD_some] at hmerkle
  have hdigest : MerkleHash codec ir nodeId (codec.digestOf node (hashes.getD · "")) :=
    .node hfound _ fun dep hdep => inputHashes_getD hhashes (inputHashes_dep hhashes hfound hdep)
  rw [hhash, hmerkle.unique hdigest]

end

end Atlantide
