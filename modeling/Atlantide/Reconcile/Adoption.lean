import Atlantide.Reconcile.Adopt
import Atlantide.Reconcile.Staleness

/-! # What a batch of imports leaves

A dry run records nothing, and is what a run is decided by: it answers every request as the run
would. -/

namespace Atlantide

open Fallible

/-- What a dry run answers where a run answered this. -/
def ImportOutcome.foretold (outcome : ImportOutcome) : ImportOutcome :=
  { outcome with
    status := if outcome.status = .imported then .wouldImport else outcome.status }

def AdoptOptions.dry (options : AdoptOptions) : AdoptOptions := { options with write := false }

/-- The session over other rows. -/
def ImportSession.over (session : ImportSession) (state : StateGraph) : ImportSession :=
  { session with state := state }

namespace Importing

variable {importing : Importing} {options : AdoptOptions} {session next last : ImportSession}
  {request : ImportRequest} {node : IRNode} {refused : Option Fault} {outcome : ImportOutcome}
  {admitted : Admitted}

/-! ## What one request does -/

/-- The node was found, its dependencies were tracked, and it was recorded. -/
structure Records (importing : Importing) (options : AdoptOptions) (session : ImportSession)
    (node : IRNode) (next : ImportSession) (outcome : ImportOutcome) : Prop where
  admits : missing session node = []
  tracked : next.tracked = node.id :: session.tracked
  explained : ∀ names, outcome.detail ≠ .dependsOn names
  compared : ∃ drift, outcome.drift = some drift ∧
    (drift.kind = .drifted → options.allowDrift = true) ∧
      if options.write then
        outcome.status = .imported ∧ ∃ outputs digests refs, next.state = session.state.insert
          node.id (importing.row node outputs digests refs (drift.kind = .drifted))
      else outcome.status = .wouldImport ∧ next.state = session.state

/-- The request changed nothing. -/
structure Declines (importing : Importing) (session : ImportSession) (request : ImportRequest)
    (next : ImportSession) (outcome : ImportOutcome) : Prop where
  same : next = session
  status : outcome.status ≠ .imported ∧ outcome.status ≠ .wouldImport
  /-- The dependencies it names are those that were not tracked. -/
  names : ∀ names, outcome.detail = .dependsOn names →
    ∃ node, importing.ir.byId[request.nodeId]? = some node ∧ names = missing session node

theorem persisted_eq_ok {res : Rebuilt} {recorded : Dict String Value} {poisoned : Bool}
    {row : StateNode}
    (hok : importing.persisted session node admitted res recorded poisoned refused = .ok row) :
    ∃ outputs digests refs, row = importing.row node outputs digests refs poisoned := by
  unfold persisted at hok
  obtain ⟨digests, -, hok⟩ := bind_eq_ok hok
  cases refused with
  | some fault => cases hok
  | none =>
    cases hok
    exact ⟨_, _, _, rfl⟩

theorem run_cases (hmissing : missing session node = [])
    (hok : importing.run options session request node admitted refused = .ok (next, outcome)) :
    importing.Declines session request next outcome ∨
      importing.Records options session node next outcome := by
  unfold run at hok
  split at hok
  next =>
    cases hok
    exact .inl ⟨rfl, by simp [Importing.outcome], by simp [Importing.outcome]⟩
  next =>
    cases hok
    exact .inl ⟨rfl, by simp [Importing.outcome], by simp [Importing.outcome]⟩
  next res live _ =>
    obtain ⟨drift, -, hok⟩ := bind_eq_ok hok
    split at hok
    next =>
      cases hok
      exact .inl ⟨rfl, by simp [Importing.outcome], by simp [Importing.outcome]⟩
    next hkept =>
      have hallowed : drift.kind = .drifted → options.allowDrift = true := by
        intro hdrifted
        by_contra hforbidden
        exact hkept ⟨hdrifted, hforbidden⟩
      dsimp only at hok
      split at hok
      next hwrite =>
        obtain ⟨row, hrow, hok⟩ := bind_eq_ok hok
        cases hok
        obtain ⟨outputs, digests, refs, rfl⟩ := persisted_eq_ok hrow
        refine .inr ⟨hmissing, rfl, by simp [Importing.outcome], drift, rfl, hallowed, ?_⟩
        rw [if_pos hwrite]
        exact ⟨rfl, outputs, digests, refs, rfl⟩
      next hwrite =>
        cases hok
        refine .inr ⟨hmissing, rfl, by simp [Importing.outcome], drift, rfl, hallowed, ?_⟩
        rw [if_neg hwrite]
        exact ⟨rfl, rfl⟩

/-- The answer records nothing, and the dependencies it names are those that are missing. -/
structure Refuses (session : ImportSession) (node : IRNode) (outcome : ImportOutcome) : Prop where
  status : outcome.status ≠ .imported ∧ outcome.status ≠ .wouldImport
  names : ∀ names, outcome.detail = .dependsOn names → names = missing session node

theorem refuses_outcome {identityField : Option String} {status : ImportStatus}
    {detail : ImportDetail} (hstatus : status ≠ .imported ∧ status ≠ .wouldImport)
    (hdetail : ∀ names, detail = .dependsOn names → names = missing session node) :
    Refuses session node (Importing.outcome request node identityField status detail) :=
  ⟨hstatus, hdetail⟩

/-- What the checks let through has its dependencies tracked. -/
theorem refusal_cases {found : ImportOutcome ⊕ Admitted}
    (hok : importing.refusal options session request node = .ok found) :
    (∃ outcome, found = .inl outcome ∧ Refuses session node outcome) ∨
      ∃ admitted, found = .inr admitted ∧ missing session node = [] := by
  unfold refusal at hok
  split at hok
  next =>
    cases hok
    exact .inl ⟨_, rfl, refuses_outcome (by decide) (by simp)⟩
  next =>
    split at hok
    next =>
      cases hok
      refine .inl ⟨_, rfl, refuses_outcome (by decide) fun names hnames => ?_⟩
      cases hnames
      rfl
    next hmissing =>
      split at hok
      next =>
        cases hok
        exact .inl ⟨_, rfl, refuses_outcome (by decide) (by simp)⟩
      next cls _ =>
        obtain ⟨provider, -, hok⟩ := bind_eq_ok hok
        dsimp only at hok
        generalize (if isGiven request.idField = true then request.idField
          else provider.identityField node.type) = identityField at hok
        split at hok
        next =>
          cases hok
          exact .inl ⟨_, rfl, refuses_outcome (by decide) (by simp)⟩
        next =>
          split at hok
          next =>
            cases hok
            exact .inl ⟨_, rfl, refuses_outcome (by decide) (by simp)⟩
          next =>
            cases hok
            exact .inr ⟨_, rfl, not_not.mp hmissing⟩

theorem adoptOne_cases
    (hok : importing.adoptOne options session request refused = .ok (next, outcome)) :
    importing.Declines session request next outcome ∨
      ∃ node, importing.ir.byId[request.nodeId]? = some node ∧
        importing.Records options session node next outcome := by
  unfold adoptOne at hok
  split at hok
  next =>
    cases hok
    exact .inl ⟨rfl, by simp, by simp⟩
  next node hnode =>
    obtain ⟨found, hfound, hok⟩ := bind_eq_ok hok
    rcases refusal_cases hfound with ⟨answer, rfl, hrefuses⟩ | ⟨admitted, rfl, hmissing⟩
    · cases hok
      exact .inl ⟨rfl, hrefuses.status, fun names hdetail =>
        ⟨node, hnode, hrefuses.names names hdetail⟩⟩
    · rcases run_cases hmissing hok with hdeclines | hrecords
      · exact .inl hdeclines
      · exact .inr ⟨node, hnode, hrecords⟩

/-! ## A dry run -/

theorem run_foretold
    (hok : importing.run { options with write := true } session request node admitted refused =
      .ok (next, outcome)) (state : StateGraph) (other : Option Fault) :
    importing.run options.dry (session.over state) request node admitted other =
      .ok (next.over state, outcome.foretold) := by
  have hlook : importing.look (session.over state) request node admitted =
      importing.look session request node admitted := rfl
  unfold run at hok ⊢
  rw [hlook]
  generalize importing.look session request node admitted = looked at hok
  cases looked with
  | error text =>
    cases hok
    rfl
  | ok looked =>
    obtain ⟨res, live⟩ := looked
    cases live with
    | none =>
      cases hok
      rfl
    | some live =>
      obtain ⟨drift, hdrift, hok⟩ := bind_eq_ok hok
      refine (bind_of_ok hdrift).trans ?_
      by_cases hrefuses : drift.kind = .drifted ∧ ¬ options.allowDrift = true
      · have hanswer := (if_pos hrefuses).symm.trans hok
        cases hanswer
        exact if_pos hrefuses
      · obtain ⟨row, -, hanswer⟩ := bind_eq_ok ((if_neg hrefuses).symm.trans hok)
        cases hanswer
        exact if_neg hrefuses

theorem adoptOne_foretold
    (hok : importing.adoptOne { options with write := true } session request refused =
      .ok (next, outcome)) (state : StateGraph) (other : Option Fault) :
    importing.adoptOne options.dry (session.over state) request other =
      .ok (next.over state, outcome.foretold) := by
  unfold adoptOne at hok ⊢
  cases hnode : importing.ir.byId[request.nodeId]? with
  | none =>
    rw [hnode] at hok
    cases hok
    rfl
  | some node =>
    rw [hnode] at hok
    obtain ⟨found, hfound, hok⟩ := bind_eq_ok hok
    refine (bind_of_ok hfound).trans ?_
    rcases refusal_cases hfound with ⟨answer, rfl, hrefuses⟩ | ⟨admitted, rfl, -⟩
    · cases hok
      have hsame : outcome.foretold = outcome := by
        unfold ImportOutcome.foretold
        rw [if_neg hrefuses.status.1]
      rw [hsame]
    · exact run_foretold hok state other

theorem adoptAll_foretold {requests : List (ImportRequest × Option Fault)}
    {outcomes : List ImportOutcome}
    (hok : importing.adoptAll { options with write := true } session requests = (last, .ok outcomes))
    (state : StateGraph) :
    importing.adoptAll options.dry (session.over state) requests =
      (last.over state, .ok (outcomes.map ImportOutcome.foretold)) := by
  induction requests generalizing session outcomes with
  | nil =>
    cases hok
    rfl
  | cons entry rest ih =>
    obtain ⟨request, refused⟩ := entry
    unfold adoptAll at hok ⊢
    split at hok
    next => cases hok
    next next outcome hone =>
      rw [adoptOne_foretold hone state refused]
      dsimp only at hok ⊢
      obtain ⟨hlast, hrest⟩ := Prod.mk.inj hok
      obtain ⟨later, hlater, rfl⟩ := map_eq_ok hrest
      rw [ih (Prod.ext hlast hlater)]
      rfl

theorem adoptAll_tracked {requests : List (ImportRequest × Option Fault)} {dep : String}
    (hdep : dep ∈ (importing.adoptAll options session requests).1.tracked) :
    dep ∈ session.tracked ∨ ∃ entry ∈ requests, entry.1.nodeId = dep := by
  induction requests generalizing session with
  | nil => exact .inl hdep
  | cons entry rest ih =>
    obtain ⟨request, refused⟩ := entry
    unfold adoptAll at hdep
    split at hdep
    next => exact .inl hdep
    next next outcome hone =>
      rcases ih hdep with hbefore | ⟨entry, hentry, hsame⟩
      · rcases adoptOne_cases hone with hdeclines | ⟨node, hnode, hrecords⟩
        · rw [hdeclines.same] at hbefore
          exact .inl hbefore
        · rw [hrecords.tracked, List.mem_cons] at hbefore
          refine hbefore.symm.imp_right fun hhere => ?_
          exact ⟨_, List.mem_cons_self, (IRGraph.byId_id hnode).symm.trans hhere.symm⟩
      · exact .inr ⟨entry, List.mem_cons_of_mem _ hentry, hsame⟩

end Importing

section

variable {ir : IRGraph} {graph : DiGraph}

/-- An order has a node after each of its dependencies. -/
theorem idxOf_topologicalOrder (hbuilt : buildGraph ir = .ok graph) {nodeId dep : String}
    (hnode : nodeId ∈ ir.byId) (hedge : dep ∈ ir.edgesOf nodeId) :
    (topologicalOrder graph).idxOf dep < (topologicalOrder graph).idxOf nodeId := by
  obtain ⟨before, after, hsplit, hfresh⟩ :=
    List.eq_append_cons_of_mem (mem_topologicalOrder hbuilt hnode)
  have hbefore : dep ∈ before :=
    ((Kahn.follows_iff.mp (topologicalOrder_follows hbuilt)).2 before nodeId after hsplit dep
      hedge).resolve_left List.not_mem_nil
  rw [hsplit, List.idxOf_append_of_mem hbefore, List.idxOf_append_of_notMem hfresh]
  have hinside := List.idxOf_lt_length_of_mem hbefore
  omega

theorem pairwise_importOrder (graph : DiGraph) (requests : List ImportRequest) :
    (importOrder graph requests).Pairwise fun first second =>
      (topologicalOrder graph).idxOf first.nodeId ≤ (topologicalOrder graph).idxOf second.nodeId := by
  have hsorted := @List.pairwise_mergeSort ImportRequest
    (fun first second => decide ((topologicalOrder graph).idxOf first.nodeId ≤
      (topologicalOrder graph).idxOf second.nodeId))
    (fun first second third hfirst hsecond => by
      rw [decide_eq_true_eq] at hfirst hsecond ⊢
      exact hfirst.trans hsecond)
    (fun first second => by
      rw [Bool.or_eq_true, decide_eq_true_eq, decide_eq_true_eq]
      exact Nat.le_total _ _) requests
  exact hsorted.imp fun hle => of_decide_eq_true hle

end

namespace Importing

variable {importing : Importing} {options : AdoptOptions} {session last : ImportSession}
  {requests : List (ImportRequest × Option Fault)} {outcomes : List ImportOutcome}
  {graph : DiGraph} {outcome : ImportOutcome} {names : List String} {dep : String}

theorem mem_missing {node : IRNode} :
    dep ∈ missing session node ↔ dep ∈ node.dependencies ∧ dep ∉ session.tracked := by
  rw [missing, List.mem_filter, List.mem_insertionSort, decide_eq_true_eq]

theorem adoptAll_unblocked (hbuilt : buildGraph importing.ir = .ok graph)
    (hordered : requests.Pairwise fun first second =>
      (topologicalOrder graph).idxOf first.1.nodeId ≤ (topologicalOrder graph).idxOf second.1.nodeId)
    (hok : importing.adoptAll options session requests = (last, .ok outcomes))
    (hmem : outcome ∈ outcomes) (hdetail : outcome.detail = .dependsOn names) (hdep : dep ∈ names) :
    dep ∉ last.tracked := by
  induction requests generalizing session outcomes with
  | nil =>
    cases hok
    cases hmem
  | cons entry rest ih =>
    obtain ⟨request, refused⟩ := entry
    obtain ⟨hlater, hrest⟩ := List.pairwise_cons.mp hordered
    have hlast := (Prod.mk.inj hok).1
    unfold adoptAll at hok
    split at hok
    next => cases (Prod.mk.inj hok).2
    next next first hone =>
      obtain ⟨hlast, houtcomes⟩ := Prod.mk.inj hok
      obtain ⟨others, hothers, rfl⟩ := map_eq_ok houtcomes
      cases List.mem_cons.mp hmem with
      | inr hamong => exact ih hrest (Prod.ext hlast hothers) hamong
      | inl hfirst =>
        subst hfirst
        rcases adoptOne_cases hone with hdeclines | ⟨node, hnode, hrecords⟩
        · obtain ⟨node, hnode, rfl⟩ := hdeclines.names names hdetail
          obtain ⟨hneeds, huntracked⟩ := mem_missing.mp hdep
          intro hfound
          rw [← hlast] at hfound
          rcases adoptAll_tracked hfound with hbefore | ⟨entry, hentry, hsame⟩
          · rw [hdeclines.same] at hbefore
            exact huntracked hbefore
          · -- What comes later in the order is no dependency.
            have hedge : dep ∈ importing.ir.edgesOf request.nodeId := by
              rw [IRGraph.edgesOf, hnode]
              exact mem_sortedSet.mpr (List.mem_append_left _ hneeds)
            have hearlier := idxOf_topologicalOrder hbuilt
              (Std.ExtTreeMap.mem_iff_isSome_getElem?.mpr (by rw [hnode]; rfl)) hedge
            have hafter := hlater entry hentry
            rw [hsame] at hafter
            exact absurd hafter (Nat.not_le.mpr hearlier)
        · exact absurd hdetail (hrecords.explained names)

/-- The tracked nodes are those that have a row. -/
def Tracks (session : ImportSession) : Prop :=
  ∀ nodeId, nodeId ∈ session.tracked ↔ nodeId ∈ session.state

/-- Every node that has a row has rows for the dependencies the config gives it. -/
def Rooted (importing : Importing) (state : StateGraph) : Prop :=
  ∀ nodeId node, importing.ir.byId[nodeId]? = some node → nodeId ∈ state →
    ∀ dep ∈ node.dependencies, dep ∈ state

/-- A row as an import of the node writes it: poisoned if the live resource differed. -/
def Writes (importing : Importing) (options : AdoptOptions) (nodeId : String) (row : StateNode) :
    Prop :=
  ∃ node, importing.ir.byId[nodeId]? = some node ∧ ∃ outputs digests refs poison,
    row = importing.row node outputs digests refs poison ∧ (poison = true → options.allowDrift = true)

/-- What a batch has done to the rows it started from. -/
structure Adopts (importing : Importing) (options : AdoptOptions) (asked : List String)
    (start state : StateGraph) : Prop where
  kept : ∀ nodeId ∈ start, nodeId ∈ state
  rooted : importing.Rooted start → importing.Rooted state
  written : ∀ nodeId row, state[nodeId]? = some row → start[nodeId]? = some row ∨
    nodeId ∈ asked ∧ importing.Writes options nodeId row

theorem Adopts.refl {asked : List String} {state : StateGraph} :
    importing.Adopts options asked state state :=
  ⟨fun _ hmem => hmem, fun hrooted => hrooted, fun _ _ hrow => .inl hrow⟩

theorem Adopts.trans {asked : List String} {start between state : StateGraph}
    (hfirst : importing.Adopts options asked start between)
    (hsecond : importing.Adopts options asked between state) :
    importing.Adopts options asked start state where
  kept nodeId hmem := hsecond.kept nodeId (hfirst.kept nodeId hmem)
  rooted hrooted := hsecond.rooted (hfirst.rooted hrooted)
  written nodeId row hrow :=
    (hsecond.written nodeId row hrow).elim (hfirst.written nodeId row) .inr

/-- The row of one import. -/
theorem Records.adopts {node : IRNode} {next : ImportSession} {nodeId : String}
    (hwrite : options.write = true) (hnode : importing.ir.byId[nodeId]? = some node)
    (htracks : Tracks session) (hrecords : importing.Records options session node next outcome) :
    Tracks next ∧ importing.Adopts options [nodeId] session.state next.state := by
  obtain ⟨drift, -, hallowed, hwritten⟩ := hrecords.compared
  rw [if_pos hwrite] at hwritten
  obtain ⟨-, outputs, digests, refs, hstate⟩ := hwritten
  have hid : node.id = nodeId := IRGraph.byId_id hnode
  have hmem (other : String) : other ∈ next.state ↔ other = nodeId ∨ other ∈ session.state := by
    rw [hstate, hid, Std.ExtTreeMap.mem_insert, Std.LawfulEqCmp.compare_eq_iff_eq, eq_comm]
  refine ⟨fun other => ?_, fun other hother => (hmem other).mpr (.inr hother), ?_, ?_⟩
  · rw [hrecords.tracked, List.mem_cons, hmem, hid, htracks other]
  · intro hrooted other found hfound hother dep hdep
    rw [hmem] at hother ⊢
    rcases hother with rfl | hother
    · -- Its own dependencies were checked.
      rw [hnode] at hfound
      cases hfound
      by_contra hnowhere
      have huntracked : dep ∉ session.tracked := fun htracked =>
        hnowhere (.inr ((htracks dep).mp htracked))
      have hmissing := mem_missing.mpr ⟨hdep, huntracked⟩
      rw [hrecords.admits] at hmissing
      cases hmissing
    · exact .inr (hrooted other found hfound hother dep hdep)
  · intro other row hrow
    rw [hstate, hid, Std.ExtTreeMap.getElem?_insert] at hrow
    split at hrow
    next hsame =>
      cases hrow
      have hother := Std.LawfulEqCmp.eq_of_compare hsame
      subst hother
      exact .inr ⟨List.mem_cons_self, node, hnode, outputs, digests, refs, _, rfl,
        fun hpoison => hallowed (of_decide_eq_true hpoison)⟩
    next => exact .inl hrow

theorem Adopts.mono {asked more : List String} {start state : StateGraph}
    (hadopts : importing.Adopts options asked start state) (hmore : asked ⊆ more) :
    importing.Adopts options more start state :=
  ⟨hadopts.kept, hadopts.rooted, fun nodeId row hrow =>
    (hadopts.written nodeId row hrow).imp_right fun hnew => ⟨hmore hnew.1, hnew.2⟩⟩

theorem adoptAll_adopts (hwrite : options.write = true) (htracks : Tracks session) :
    importing.Adopts options (requests.map (·.1.nodeId)) session.state
      (importing.adoptAll options session requests).1.state := by
  induction requests generalizing session with
  | nil => exact .refl
  | cons entry rest ih =>
    obtain ⟨request, refused⟩ := entry
    unfold adoptAll
    split
    next => exact .refl
    next next outcome hone =>
      have hrest (htracks : Tracks next) := (ih htracks).mono
        (List.subset_cons_self request.nodeId (rest.map (·.1.nodeId)))
      rcases adoptOne_cases hone with hdeclines | ⟨node, hnode, hrecords⟩
      · rw [← hdeclines.same] at htracks ⊢
        exact hrest htracks
      · obtain ⟨htracks, hadopts⟩ := hrecords.adopts hwrite hnode htracks
        have hhere : [request.nodeId] ⊆ request.nodeId :: rest.map (·.1.nodeId) :=
          List.cons_subset_cons _ (List.nil_subset _)
        exact (hadopts.mono hhere).trans (hrest htracks)

/-- What the next plan of the config takes the batch's rows for. -/
def planned (importing : Importing) (state : StateGraph) (mutability : TypeMutability)
    (verdicts : ConsumedRefs) : DiffInputs :=
  ⟨importing.ir, importing.hashes, state, mutability, verdicts⟩

/-- How a plan takes a confirmed row: never for a creation, and as settled by its hash and the values
it consumes. -/
theorem changeFor_created {inputs : DiffInputs} {nodeId : String} {node : IRNode} {row : StateNode}
    (hnode : inputs.wanted nodeId = some node) (hrow : inputs.prior[nodeId]? = some row)
    (hcreated : row.status = .created) :
    (inputs.changeFor nodeId).action ≠ .create ∧
      ((inputs.changeFor nodeId).action = .noop ↔
        inputs.desiredHashes nodeId = row.inputHash ∧ inputs.consumesMoved nodeId node = false) := by
  have hclassified : (inputs.classify node row []).action ≠ .create ∧
      (inputs.classify node row []).action ≠ .noop := by
    rcases inputs.classify_action node row [] with haction | haction <;> simp [haction]
  unfold DiffInputs.changeFor
  rw [hnode, hrow]
  dsimp only
  rw [if_neg (not_not.mpr hcreated)]
  split
  next hsame =>
    split
    next hmoved => exact ⟨hclassified.1, by simp [hclassified.2, hmoved]⟩
    next hmoved => exact ⟨by simp, by simp [hsame, hmoved]⟩
  next hdiffers => exact ⟨hclassified.1, by simp [hclassified.2, hdiffers]⟩

end Importing

/-! ## A network imported into an empty state -/

namespace Adopting

open Importing

def codec : Codec where
  canonical _ := ""
  sha256 text := text
  transform _ _ := .error .shape

/-- A VPC is found by its id, a subnet by its name. -/
def aws : ImportProvider where
  identityField type := if type = "vpc" then some "id" else none
  read res := .ok (some ((∅ : Dict String Value).insert "arn" (.str ("arn:" ++ res.name))))

def network : Importing where
  classes := .asGiven fun _ => some { provider := "aws", fields := [("id", .computed)] }
  codec := codec
  secrets := Refreshed.keyless
  rendering := Leniently.rendering
  stackOutputs := ∅
  providers name := if name = "aws" then some aws else none
  ir := fork
  hashes nodeId := "hash:" ++ nodeId
  faultText _ := ""

def vpc : ImportRequest := { nodeId := "net:vpc", externalId := some "vpc-1" }

def subnet : ImportRequest := { nodeId := "net:a" }

end Adopting

end Atlantide
