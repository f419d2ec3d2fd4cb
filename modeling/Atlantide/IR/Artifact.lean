import Atlantide.IR.MerkleExact

/-! # Deployable artifacts

An artifact carries a compiled config and the hash of its canonical form. That form leaves out a
node's aliases and its ordering-only edges, so that neither is part of the plan's identity. -/

namespace Atlantide

/-- A field that is written only when it is set. -/
def setField (present : Bool) (name : String) (value : Value) : List (String × Value) :=
  if present then [(name, value)] else []

def NodeKind.text : NodeKind → String
  | .resource => "resource"
  | .data => "data"

namespace IRNode

/-- The hashed form, its keys in order. -/
def toCanonical (node : IRNode) : Value :=
  .dict (setField node.createBeforeDestroy "create_before_destroy" (.bool true) ++
    ("dependencies", .list (node.dependencies.map .str)) :: ("id", .str node.id) ::
    (setField (!node.ignoreChanges.isEmpty) "ignore_changes"
        (.list (node.ignoreChanges.map .str)) ++
    (setField (node.kind ≠ .resource) "kind" (.str node.kind.text) ++
    (setField node.preventDestroy "prevent_destroy" (.bool true) ++
    [("properties", .dict node.properties.toList), ("provider", .str node.provider),
      ("provider_version", .str node.providerVersion), ("type", .str node.type)]))))

/-- The node without what its hashed form leaves out. -/
def anchored (node : IRNode) : IRNode := { node with aliases := [], dependsOn := [] }

end IRNode

def IRGraph.toCanonical (ir : IRGraph) (version : Int) : Value :=
  .dict [("nodes", .list (ir.nodes.map (·.toCanonical))), ("version", .int version)]

/-- The plan's identity, and the artifact's integrity check. -/
def hashIr (codec : Codec) (ir : IRGraph) (version : Int) : String :=
  codec.sha256 (codec.canonical (ir.toCanonical version))

/-- A deployment unit built from one config. -/
structure Artifact where
  ir : IRGraph
  version : Int
  irHash : String
  providerPins : Dict String String
  /-- The environments the build selected, and all that the config declared. -/
  envs : List String := []
  envsDeclared : List String := []

/-- What is wrong with an artifact. -/
inductive ArtifactError
  /-- A provider is pinned at two versions. -/
  | pins (provider : String)
  | mismatch (stored computed : String)
  /-- A selection without the declared environments. -/
  | outdated

def providerPins (ir : IRGraph) : Except ArtifactError (Dict String String) :=
  ir.nodes.foldlM (fun (pins : Dict String String) node =>
    if node.provider = "" then .ok pins
    else
      match pins[node.provider]? with
      | some version =>
        if version ≠ node.providerVersion then .error (.pins node.provider)
        else .ok (pins.insert node.provider node.providerVersion)
      | none => .ok (pins.insert node.provider node.providerVersion)) ∅

def buildArtifact (codec : Codec) (ir : IRGraph) (version : Int) (envs envsDeclared : List String) :
    Except ArtifactError Artifact := do
  let pins ← providerPins ir
  .ok { ir, version, irHash := hashIr codec ir version, providerPins := pins, envs, envsDeclared }

def verifyHash (codec : Codec) (artifact : Artifact) : Except ArtifactError Unit :=
  let actual := hashIr codec artifact.ir artifact.version
  if actual ≠ artifact.irHash then .error (.mismatch artifact.irHash actual) else .ok ()

/-! ## What the hash covers -/

section

variable {node other : IRNode} {ir ir' : IRGraph} {version version' : Int}

@[simp] theorem lookup_setField (present : Bool) (name field : String) (value : Value) :
    (setField present name value).lookup field =
      if present = true ∧ field = name then some value else none := by
  cases present with
  | false => simp [setField]
  | true =>
    by_cases hname : field = name
    · simp [setField, hname]
    · simp [setField, List.lookup_cons, hname, beq_eq_false_iff_ne.mpr hname]

/-- What the hashed form has under a name. -/
theorem IRNode.field_toCanonical (node : IRNode) :
    node.toCanonical.field "id" = some (.str node.id) ∧
    node.toCanonical.field "type" = some (.str node.type) ∧
    node.toCanonical.field "provider" = some (.str node.provider) ∧
    node.toCanonical.field "provider_version" = some (.str node.providerVersion) ∧
    node.toCanonical.field "properties" = some (.dict node.properties.toList) ∧
    node.toCanonical.field "dependencies" = some (.list (node.dependencies.map .str)) ∧
    node.toCanonical.field "prevent_destroy" =
      (if node.preventDestroy then some (.bool true) else none) ∧
    node.toCanonical.field "create_before_destroy" =
      (if node.createBeforeDestroy then some (.bool true) else none) ∧
    node.toCanonical.field "ignore_changes" =
      (if !node.ignoreChanges.isEmpty then some (.list (node.ignoreChanges.map .str)) else none) ∧
    node.toCanonical.field "kind" =
      (if node.kind ≠ .resource then some (.str node.kind.text) else none) := by
  refine ⟨?_, ?_, ?_, ?_, ?_, ?_, ?_, ?_, ?_, ?_⟩
  all_goals simp [toCanonical, Value.field, List.lookup_append, List.lookup_cons]

theorem strs_injective {names names' : List String}
    (hsame : Value.list (names.map .str) = .list (names'.map .str)) : names = names' :=
  List.map_injective_iff.mpr (fun _ _ heq => Value.str.inj heq) (Value.list.inj hsame)

/-- A flag that is written only when it is set is told by whether it is there. -/
theorem flag_eq {flag flag' : Bool}
    (hsame : (if flag then some (Value.bool true) else none) =
      if flag' then some (Value.bool true) else none) : flag = flag' := by
  cases flag <;> cases flag' <;> first | rfl | cases hsame

/-- The hashed form tells every field but the two it leaves out. -/
theorem IRNode.toCanonical_injective (hsame : node.toCanonical = other.toCanonical) :
    node.anchored = other.anchored := by
  obtain ⟨hid, htype, hprovider, hversion, hproperties, hdeps, hprotected, hcbd, hignored, hkind⟩ :=
    node.field_toCanonical
  obtain ⟨hid', htype', hprovider', hversion', hproperties', hdeps', hprotected', hcbd', hignored',
    hkind'⟩ := other.field_toCanonical
  rw [← hsame] at hid' htype' hprovider' hversion' hproperties'
  rw [← hsame] at hdeps' hprotected' hcbd' hignored' hkind'
  have hignores : node.ignoreChanges = other.ignoreChanges := by
    rw [hignored] at hignored'
    cases hnames : node.ignoreChanges with
    | nil =>
      cases hothers : other.ignoreChanges with
      | nil => rfl
      | cons => simp [hnames, hothers] at hignored'
    | cons =>
      cases hothers : other.ignoreChanges with
      | nil => simp [hnames, hothers] at hignored'
      | cons =>
        rw [hnames, hothers] at hignored'
        exact strs_injective (Option.some.inj hignored')
  have hkinds : node.kind = other.kind := by
    rw [hkind] at hkind'
    cases hfirst : node.kind <;> cases hsecond : other.kind <;>
      first | rfl | simp [hfirst, hsecond] at hkind'
  have hprops : node.properties = other.properties := by
    have hlists := Value.dict.inj (Option.some.inj (hproperties.symm.trans hproperties'))
    exact Std.ExtTreeMap.ext_toList (hlists ▸ List.Perm.refl _)
  have hids := Value.str.inj (Option.some.inj (hid.symm.trans hid'))
  have htypes := Value.str.inj (Option.some.inj (htype.symm.trans htype'))
  have hproviders := Value.str.inj (Option.some.inj (hprovider.symm.trans hprovider'))
  have hversions := Value.str.inj (Option.some.inj (hversion.symm.trans hversion'))
  have hdependencies := strs_injective (Option.some.inj (hdeps.symm.trans hdeps'))
  have hflag := flag_eq (hprotected.symm.trans hprotected')
  have hflag' := flag_eq (hcbd.symm.trans hcbd')
  rw [anchored, anchored, IRNode.mk.injEq]
  exact ⟨hids, htypes, hproviders, hversions, hprops, hdependencies, hflag, hflag', hignores, rfl,
    hkinds, rfl⟩

theorem printed_strs (names : List String) : (Value.list (names.map .str)).FloatsPrinted := by
  refine PyValue.printed_of_children (by rintro _ ⟨⟩) fun child hchild => ?_
  obtain ⟨name, -, rfl⟩ := List.mem_map.mp hchild
  exact PyValue.printed_of_children (by rintro _ ⟨⟩) (List.forall_mem_nil _)

theorem printed_setField {present : Bool} {name : String} {value : Value}
    (hvalue : value.FloatsPrinted) : ∀ entry ∈ setField present name value,
      entry.2.FloatsPrinted := by
  intro entry hentry
  unfold setField at hentry
  split at hentry
  · obtain rfl := List.mem_singleton.mp hentry
    exact hvalue
  · cases hentry

theorem IRNode.toCanonical_printed (hprinted : node.FloatsPrinted) :
    node.toCanonical.FloatsPrinted := by
  have hstr : ∀ text : String, (Value.str text).FloatsPrinted := fun text =>
    PyValue.printed_of_children (by rintro _ ⟨⟩) (List.forall_mem_nil _)
  have hflag : (Value.bool true).FloatsPrinted :=
    PyValue.printed_of_children (by rintro _ ⟨⟩) (List.forall_mem_nil _)
  have hproperties : (Value.dict node.properties.toList).FloatsPrinted := by
    refine PyValue.printed_of_children (by rintro _ ⟨⟩) fun child hchild => ?_
    obtain ⟨⟨name, value⟩, hentry, rfl⟩ := List.mem_map.mp hchild
    exact hprinted name value (Std.ExtTreeMap.mem_toList_iff_getElem?_eq_some.mp hentry)
  refine PyValue.printed_of_children (by rintro _ ⟨⟩) fun child hchild => ?_
  obtain ⟨entry, hentry, rfl⟩ := List.mem_map.mp hchild
  simp only [List.mem_append, List.mem_cons, List.not_mem_nil, or_false] at hentry
  rcases hentry with hentry | rfl | rfl | hentry | hentry | hentry | rfl | rfl | rfl | rfl
  · exact printed_setField hflag entry hentry
  · exact printed_strs _
  · exact hstr _
  · exact printed_setField (printed_strs _) entry hentry
  · exact printed_setField (hstr _) entry hentry
  · exact printed_setField hflag entry hentry
  · exact hproperties
  · exact hstr _
  · exact hstr _
  · exact hstr _

/-- The floats that the listed nodes set are written as floats are. -/
def IRGraph.NodesPrinted (ir : IRGraph) : Prop := ∀ node ∈ ir.nodes, node.FloatsPrinted

theorem IRGraph.toCanonical_printed (hprinted : ir.NodesPrinted) :
    (ir.toCanonical version).FloatsPrinted := by
  have hnodes : (Value.list (ir.nodes.map (·.toCanonical))).FloatsPrinted := by
    refine PyValue.printed_of_children (by rintro _ ⟨⟩) fun child hchild => ?_
    obtain ⟨node, hnode, rfl⟩ := List.mem_map.mp hchild
    exact IRNode.toCanonical_printed (hprinted node hnode)
  refine PyValue.printed_of_children (by rintro _ ⟨⟩) fun child hchild => ?_
  simp only [toCanonical, Value.children, List.map_cons, List.map_nil, List.mem_cons,
    List.not_mem_nil, or_false] at hchild
  rcases hchild with rfl | rfl
  · exact hnodes
  · exact PyValue.printed_of_children (by rintro _ ⟨⟩) (List.forall_mem_nil _)

theorem map_toCanonical_eq_iff {nodes nodes' : List IRNode} :
    nodes.map (·.toCanonical) = nodes'.map (·.toCanonical) ↔
      nodes.map (·.anchored) = nodes'.map (·.anchored) := by
  constructor
  · intro hsame
    rw [← List.forall₂_eq_eq_eq, List.forall₂_map_left_iff, List.forall₂_map_right_iff] at hsame ⊢
    exact hsame.imp fun _ _ => IRNode.toCanonical_injective
  · intro hsame
    rw [← List.forall₂_eq_eq_eq, List.forall₂_map_left_iff, List.forall₂_map_right_iff] at hsame ⊢
    refine hsame.imp fun node other heq => ?_
    have hcanonical := congrArg IRNode.toCanonical heq
    exact hcanonical

/-- Aliases and ordering-only edges change no hash. -/
theorem hashIr_of_anchored {codec : Codec}
    (hnodes : ir.nodes.map (·.anchored) = ir'.nodes.map (·.anchored)) :
    hashIr codec ir version = hashIr codec ir' version := by
  rw [hashIr, hashIr, IRGraph.toCanonical, IRGraph.toCanonical, map_toCanonical_eq_iff.mpr hnodes]

theorem verifyHash_of_anchored {codec : Codec} {artifact : Artifact}
    (hbuilt : artifact.irHash = hashIr codec ir artifact.version)
    (hnodes : artifact.ir.nodes.map (·.anchored) = ir.nodes.map (·.anchored)) :
    verifyHash codec artifact = .ok () := by
  unfold verifyHash
  dsimp only
  rw [if_neg]
  rw [hbuilt, not_not]
  exact hashIr_of_anchored hnodes

/-- Two configs have one hash exactly when they are the same but for aliases and ordering-only
edges. -/
theorem hashIr_eq_iff {codec : Codec} (hexact : codec.Exact) (hprinted : ir.NodesPrinted)
    (hprinted' : ir'.NodesPrinted) : hashIr codec ir version = hashIr codec ir' version' ↔
      version = version' ∧ ir.nodes.map (·.anchored) = ir'.nodes.map (·.anchored) := by
  rw [← map_toCanonical_eq_iff]
  constructor
  · intro hsame
    have htext := hexact.sha256 hsame
    rw [hexact.canonical, hexact.canonical, String.ofList_inj] at htext
    have hvalue := Value.text_injective (IRGraph.toCanonical_printed hprinted)
      (IRGraph.toCanonical_printed hprinted') htext
    simp only [IRGraph.toCanonical, Value.dict.injEq, List.cons.injEq, Prod.mk.injEq, true_and,
      and_true, Value.list.injEq, Value.int.injEq] at hvalue
    exact hvalue.symm
  · rintro ⟨rfl, hnodes⟩
    exact hashIr_of_anchored (map_toCanonical_eq_iff.mp hnodes)

end

end Atlantide
