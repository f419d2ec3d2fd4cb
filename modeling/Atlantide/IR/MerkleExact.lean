import Atlantide.IR.CanonicalJson
import Atlantide.IR.MerkleHash

/-! # What a hash tells

With a collision-free digest, two nodes have one hash exactly when they have the same type, set the
same properties, ignored ones aside, and their dependencies have the same hashes one by one. An
edit of one node therefore changes its own hash and those of the nodes that depend on it, and no
other. -/

namespace Atlantide

/-- The codec writes canonical JSON, and its digests do not collide. -/
structure Codec.Exact (codec : Codec) : Prop where
  canonical : ∀ value, codec.canonical value = String.ofList value.text
  sha256 : Function.Injective codec.sha256

/-- The floats that the nodes set are written as floats are. -/
def IRNode.FloatsPrinted (node : IRNode) : Prop :=
  ∀ (name : String) (value : Value), node.properties[name]? = some value → value.FloatsPrinted

def IRGraph.FloatsPrinted (ir : IRGraph) : Prop :=
  ∀ (nodeId : String) (node : IRNode), ir.byId[nodeId]? = some node → node.FloatsPrinted

section

variable {codec : Codec} {ir other : IRGraph} {node node' : IRNode}

theorem IRNode.hashed_printed (hprinted : node.FloatsPrinted) {name : String} {value : Value}
    (hvalue : (name, value) ∈ node.hashed.toList) : value.FloatsPrinted := by
  have hfound := Std.ExtTreeMap.mem_toList_iff_getElem?_eq_some.mp hvalue
  rw [IRNode.hashed, Std.ExtTreeMap.getElem?_filter'] at hfound
  exact hprinted name value (Option.eq_some_of_filter_eq_some hfound)

theorem IRNode.merklePayload_printed (hprinted : node.FloatsPrinted) (deps : List String) :
    (node.merklePayload deps).FloatsPrinted := by
  have htexts : ∀ child ∈ (Value.list (deps.map .str)).children, child.FloatsPrinted := by
    intro child hchild
    obtain ⟨dep, -, rfl⟩ := List.mem_map.mp hchild
    exact PyValue.printed_of_children (by rintro _ ⟨⟩) (List.forall_mem_nil _)
  have hproperties : ∀ child ∈ (Value.dict node.hashed.toList).children, child.FloatsPrinted := by
    intro child hchild
    obtain ⟨entry, hentry, rfl⟩ := List.mem_map.mp hchild
    exact hashed_printed hprinted hentry
  refine PyValue.printed_of_children (by rintro _ ⟨⟩) fun child hchild => ?_
  simp only [merklePayload, Value.children, List.map_cons, List.map_nil, List.mem_cons,
    List.not_mem_nil, or_false] at hchild
  rcases hchild with rfl | rfl | rfl
  · exact PyValue.printed_of_children (by rintro _ ⟨⟩) htexts
  · exact PyValue.printed_of_children (by rintro _ ⟨⟩) hproperties
  · exact PyValue.printed_of_children (by rintro _ ⟨⟩) (List.forall_mem_nil _)

/-- A payload tells the type, the properties and the dependencies' hashes. -/
theorem IRNode.merklePayload_injective {deps deps' : List String} :
    node.merklePayload deps = node'.merklePayload deps' ↔
      node.type = node'.type ∧ node.hashed = node'.hashed ∧ deps = deps' := by
  constructor
  · intro hsame
    simp only [merklePayload, Value.dict.injEq, List.cons.injEq, Prod.mk.injEq, true_and, and_true,
      Value.list.injEq, Value.str.injEq] at hsame
    obtain ⟨hdeps, hproperties, htype⟩ := hsame
    refine ⟨htype, Std.ExtTreeMap.ext_toList (hproperties ▸ List.Perm.refl _), ?_⟩
    exact List.map_injective_iff.mpr (fun a b heq => Value.str.inj heq) hdeps
  · rintro ⟨htype, hhashed, rfl⟩
    rw [merklePayload, htype, hhashed, merklePayload]

/-- Two digests are the same exactly when what they are taken of is. -/
theorem Codec.Exact.digestOf_eq (hexact : codec.Exact) (hprinted : node.FloatsPrinted)
    (hprinted' : node'.FloatsPrinted) {hashes hashes' : String → String} :
    codec.digestOf node hashes = codec.digestOf node' hashes' ↔
      node.type = node'.type ∧ node.hashed = node'.hashed ∧
        node.hashedDeps.map hashes = node'.hashedDeps.map hashes' := by
  rw [Codec.digestOf, Codec.digestOf, ← IRNode.merklePayload_injective]
  constructor
  · intro hsame
    have htext := hexact.sha256 hsame
    rw [hexact.canonical, hexact.canonical, String.ofList_inj] at htext
    exact Value.text_injective (IRNode.merklePayload_printed hprinted _)
      (IRNode.merklePayload_printed hprinted' _) htext
  · exact fun hsame => by rw [hsame]

/-- One node depends on another through a reference. -/
def IRGraph.RefStep (ir : IRGraph) (nodeId dep : String) : Prop :=
  ∃ node, ir.byId[nodeId]? = some node ∧ dep ∈ node.dependencies

/-- The two nodes have the same type, set the same properties that are not ignored, and depend on
nodes of the same hashes. -/
def SameContent (hashes hashes' : Dict String String) (node node' : IRNode) : Prop :=
  node.type = node'.type ∧ node.hashed = node'.hashed ∧
    List.Forall₂ (fun dep dep' => hashes[dep]? = hashes'[dep']?) node.hashedDeps node'.hashedDeps

theorem getD_eq_iff {hashes hashes' : Dict String String} {dep dep' : String}
    (hdep : dep ∈ hashes) (hdep' : dep' ∈ hashes') :
    hashes.getD dep "" = hashes'.getD dep' "" ↔ hashes[dep]? = hashes'[dep']? := by
  obtain ⟨hash, hhash⟩ := Option.isSome_iff_exists.mp
    (Std.ExtTreeMap.mem_iff_isSome_getElem?.mp hdep)
  obtain ⟨hash', hhash'⟩ := Option.isSome_iff_exists.mp
    (Std.ExtTreeMap.mem_iff_isSome_getElem?.mp hdep')
  rw [Std.ExtTreeMap.getD_eq_getD_getElem?, Std.ExtTreeMap.getD_eq_getD_getElem?, hhash, hhash',
    Option.getD_some, Option.getD_some, Option.some.injEq]

/-- Lists of hashes are the same one by one. -/
theorem forall₂_hashes {hashes hashes' : Dict String String} {deps deps' : List String}
    (hdeps : ∀ dep ∈ deps, dep ∈ hashes) (hdeps' : ∀ dep ∈ deps', dep ∈ hashes') :
    deps.map (hashes.getD · "") = deps'.map (hashes'.getD · "") ↔
      List.Forall₂ (fun dep dep' => hashes[dep]? = hashes'[dep']?) deps deps' := by
  induction deps generalizing deps' with
  | nil =>
    rw [List.map_nil, List.forall₂_nil_left_iff]
    exact eq_comm.trans List.map_eq_nil_iff
  | cons dep deps ih =>
    obtain ⟨hdep, hdeps⟩ := List.forall_mem_cons.mp hdeps
    cases deps' with
    | nil =>
      rw [List.forall₂_nil_right_iff, List.map_nil, List.map_eq_nil_iff]
    | cons dep' deps' =>
      obtain ⟨hdep', hdeps'⟩ := List.forall_mem_cons.mp hdeps'
      rw [List.map_cons, List.map_cons, List.cons.injEq, List.forall₂_cons,
        getD_eq_iff hdep hdep', ih hdeps hdeps']

/-- **When two hashes are the same.** -/
theorem inputHash_eq_iff (hexact : codec.Exact) (hprinted : ir.FloatsPrinted)
    (hprinted' : other.FloatsPrinted) {hashes hashes' : Dict String String}
    (hhashes : inputHashes codec ir = some hashes)
    (hhashes' : inputHashes codec other = some hashes') {nodeId : String}
    (hnode : ir.byId[nodeId]? = some node) (hnode' : other.byId[nodeId]? = some node') :
    hashes[nodeId]? = hashes'[nodeId]? ↔ SameContent hashes hashes' node node' := by
  rw [inputHashes_digest hhashes hnode, inputHashes_digest hhashes' hnode', Option.some.injEq,
    hexact.digestOf_eq (hprinted nodeId node hnode) (hprinted' nodeId node' hnode'), SameContent,
    forall₂_hashes]
  · exact fun dep hdep => mem_inputHashes hhashes
      (inputHashes_dep hhashes hnode (IRNode.mem_hashedDeps.mp hdep))
  · exact fun dep hdep => mem_inputHashes hhashes'
      (inputHashes_dep hhashes' hnode' (IRNode.mem_hashedDeps.mp hdep))

/-- A node that does not depend on the edited one keeps its hash. -/
theorem inputHash_eq_of_apart {hashes hashes' : Dict String String}
    (hhashes : inputHashes codec ir = some hashes)
    (hhashes' : inputHashes codec other = some hashes') {edited nodeId : String}
    (hsame : ∀ nodeId, nodeId ≠ edited → other.byId[nodeId]? = ir.byId[nodeId]?)
    (hnode : nodeId ∈ ir.byId) (hapart : ¬ Relation.ReflTransGen ir.RefStep nodeId edited) :
    hashes[nodeId]? = hashes'[nodeId]? := by
  have hne : ∀ nodeId, ¬ Relation.ReflTransGen ir.RefStep nodeId edited → nodeId ≠ edited :=
    fun nodeId hfar heq => hfar (heq ▸ Relation.ReflTransGen.refl)
  have hother : nodeId ∈ other.byId := by
    rw [Std.ExtTreeMap.mem_iff_isSome_getElem?, hsame nodeId (hne nodeId hapart)]
    exact Std.ExtTreeMap.mem_iff_isSome_getElem?.mp hnode
  refine (getD_eq_iff (mem_inputHashes hhashes hnode) (mem_inputHashes hhashes' hother)).mp ?_
  refine @MerkleHash.unique codec other nodeId _ _ ?_ (inputHashes_getD hhashes' hother)
  refine @MerkleHash.transfer codec ir other
    (fun nodeId => ¬ Relation.ReflTransGen ir.RefStep nodeId edited) nodeId _
    (inputHashes_getD hhashes hnode) hapart (fun nodeId hfar => hsame nodeId (hne nodeId hfar)) ?_
  intro nodeId node hfar hfound dep hdep hreach
  exact hfar (Relation.ReflTransGen.head ⟨node, hfound, hdep⟩ hreach)

/-- **Hashes are exact.** Two nodes of one id have the same hash exactly when their contents are the
same, their dependencies' hashes included; and an edit of one node's content changes the hashes of
exactly that node and those that depend on it through references. -/
theorem merkle_exact (hexact : codec.Exact) (hprinted : ir.FloatsPrinted)
    (hprinted' : other.FloatsPrinted) {hashes hashes' : Dict String String}
    (hhashes : inputHashes codec ir = some hashes)
    (hhashes' : inputHashes codec other = some hashes') :
    (∀ (nodeId : String) (node node' : IRNode), ir.byId[nodeId]? = some node →
      other.byId[nodeId]? = some node' →
        (hashes[nodeId]? = hashes'[nodeId]? ↔ SameContent hashes hashes' node node')) ∧
    ∀ (edited : String) (node node' : IRNode), ir.byId[edited]? = some node →
      other.byId[edited]? = some node' → ¬ SameContent hashes hashes' node node' →
      (∀ nodeId, nodeId ≠ edited → other.byId[nodeId]? = ir.byId[nodeId]?) →
        ∀ nodeId ∈ ir.byId, (hashes[nodeId]? ≠ hashes'[nodeId]? ↔
          Relation.ReflTransGen ir.RefStep nodeId edited) := by
  have hiff : ∀ (nodeId : String) (node node' : IRNode), ir.byId[nodeId]? = some node →
      other.byId[nodeId]? = some node' →
        (hashes[nodeId]? = hashes'[nodeId]? ↔ SameContent hashes hashes' node node') :=
    fun _ _ _ => inputHash_eq_iff hexact hprinted hprinted' hhashes hhashes'
  refine ⟨hiff, fun edited node node' hnode hnode' hedit hsame nodeId hmem => ?_⟩
  constructor
  · intro hdiffers
    by_contra hapart
    exact hdiffers (inputHash_eq_of_apart hhashes hhashes' hsame hmem hapart)
  · intro hreach
    -- From the edited node back along the path, each dependent sees a changed hash.
    clear hmem
    induction hreach using Relation.ReflTransGen.head_induction_on with
    | refl => exact fun heq => hedit ((hiff edited node node' hnode hnode').mp heq)
    | @head nodeId dep hstep _ ih =>
      intro heq
      by_cases hself : nodeId = edited
      · subst hself
        exact hedit ((hiff nodeId node node' hnode hnode').mp heq)
      · obtain ⟨dependent, hfound, hdep⟩ := hstep
        obtain ⟨-, -, hdeps⟩ :=
          (hiff nodeId dependent dependent hfound ((hsame nodeId hself).trans hfound)).mp heq
        exact ih (List.forall₂_same.mp hdeps dep (IRNode.mem_hashedDeps.mpr hdep))

end

namespace Hashed

/-- Canonical JSON, and a digest that is the text itself. -/
def codec : Codec := ⟨fun value => String.ofList value.text, id, fun _ _ => .error .shape⟩

theorem codec_exact : codec.Exact := ⟨fun _ => rfl, fun _ _ heq => heq⟩

def node (id size : String) (deps : List String) : IRNode :=
  { id := id, type := "t", provider := "p", providerVersion := "1"
    properties := insert ("size", .str size) ∅, dependencies := deps }

/-- A node of some size, and one that depends on it. -/
def ir (size : String) : IRGraph := ⟨[node "s:t:a" size [], node "s:t:d" "1" ["s:t:a"]]⟩

theorem node_printed (id size : String) (deps : List String) : (node id size deps).FloatsPrinted := by
  intro name value hvalue
  change (insert ("size", Value.str size) (∅ : Dict String Value))[name]? = some value at hvalue
  rw [Std.ExtTreeMap.insert_eq_insert, Std.ExtTreeMap.getElem?_insert] at hvalue
  split at hvalue
  next =>
    cases hvalue
    exact PyValue.printed_of_children (by rintro _ ⟨⟩) (List.forall_mem_nil _)
  next =>
    rw [Std.ExtTreeMap.getElem?_empty] at hvalue
    cases hvalue

theorem ir_byId (size nodeId : String) : (ir size).byId[nodeId]? =
    if compare "s:t:d" nodeId = .eq then some (node "s:t:d" "1" ["s:t:a"])
    else if compare "s:t:a" nodeId = .eq then some (node "s:t:a" size []) else none := by
  change (((∅ : Dict String IRNode).insert "s:t:a" (node "s:t:a" size [])).insert "s:t:d"
    (node "s:t:d" "1" ["s:t:a"]))[nodeId]? = _
  rw [Std.ExtTreeMap.getElem?_insert, Std.ExtTreeMap.getElem?_insert, Std.ExtTreeMap.getElem?_empty]

theorem ir_printed (size : String) : (ir size).FloatsPrinted := by
  intro nodeId found hfound
  rw [ir_byId] at hfound
  split at hfound
  next =>
    cases hfound
    exact node_printed _ _ _
  next =>
    split at hfound
    next =>
      cases hfound
      exact node_printed _ _ _
    next => cases hfound

/-- Another size of the one node changes the hash of the other. -/
theorem merkle_exact_small : ∃ hashes hashes', inputHashes codec (ir "1") = some hashes ∧
    inputHashes codec (ir "2") = some hashes' ∧ hashes["s:t:d"]? ≠ hashes'["s:t:d"]? := by
  obtain ⟨hashes, hhashes⟩ : ∃ hashes, inputHashes codec (ir "1") = some hashes :=
    Option.isSome_iff_exists.mp (by decide +kernel)
  obtain ⟨hashes', hhashes'⟩ : ∃ hashes, inputHashes codec (ir "2") = some hashes :=
    Option.isSome_iff_exists.mp (by decide +kernel)
  have hexact := merkle_exact codec_exact (ir_printed "1") (ir_printed "2") hhashes hhashes'
  refine ⟨hashes, hashes', hhashes, hhashes', (hexact.2 "s:t:a" (node "s:t:a" "1" [])
    (node "s:t:a" "2" []) (by decide +kernel) (by decide +kernel) ?_ ?_ "s:t:d"
    (by decide +kernel)).mpr ?_⟩
  · rintro ⟨-, hhashed, -⟩
    exact absurd hhashed (by decide +kernel)
  · intro nodeId hne
    rw [ir_byId, ir_byId, if_neg fun heq => hne (Std.LawfulEqCmp.eq_of_compare heq).symm,
      if_neg fun heq => hne (Std.LawfulEqCmp.eq_of_compare heq).symm]
  · exact .single ⟨node "s:t:d" "1" ["s:t:a"], by decide +kernel, List.mem_cons_self⟩

end Hashed

end Atlantide
