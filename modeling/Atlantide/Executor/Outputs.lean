import Mathlib.Tactic.ByContra
import Atlantide.Executor.Env

/-! # Committing a run's stack outputs

Each commit resolves the declared outputs against the run's live values, merges what resolved into
the committed ones, and drops the keys the run takes for its own and no longer declares. -/

namespace Atlantide

/-- What a commit reads. -/
structure OutputCommit where
  codec : Codec
  types : Types
  secrets : SecretsRegistry
  desired : Desired
  prior : StateGraph
  live : LiveOutputs

namespace OutputCommit

variable (commit : OutputCommit)

/-- The first declaration whose value fails for more than an output that is not there. -/
def fault : Option Fault :=
  commit.desired.outputDecls.toList.findSome? fun (_, value) =>
    match resolveValue commit.codec commit.live true value with
    | .ok _ | .error (.missing _ _) => none
    | .error fault => some fault

/-- The declared outputs that have a value. -/
def resolved : Dict String Value :=
  commit.desired.outputDecls.filterMap fun _ value =>
    (resolveValue commit.codec commit.live true value).toOption

/-- Whether a declared output derives from a sensitive field. -/
def sensitive (name : String) : Bool :=
  match commit.desired.outputDecls[name]? with
  | some value => isSensitive commit.types value false
  | none => false

/-- A resolved output as it is stored: a sensitive text sealed. -/
def stored (name : String) (value : Value) : Value :=
  match value with
  | .str text => if commit.sensitive name then commit.secrets.sealText text else value
  | _ => value

def persistableOutputs : Dict String Value :=
  commit.resolved.filterMap fun name value => some (commit.stored name value)

/-- The stacks a run takes for its own. -/
def mine : List String :=
  (commit.desired.resources.keys ++ commit.prior.keys).map stackOf

/-- Committed keys the run owns but no longer declares. -/
def retiredOutputs (committed : Dict String Value) : List String :=
  committed.keys.filter fun key =>
    stackOf key ∈ commit.mine && key ∉ commit.desired.outputDecls

/-- The outputs committed after the run. -/
def commitOutputs (committed : Dict String Value) : Except Fault (Dict String Value) :=
  match commit.fault with
  | some fault => .error fault
  | none =>
    .ok (mergeOutputs committed commit.persistableOutputs (commit.retiredOutputs committed))

end OutputCommit

/-! ## Runs narrowed to part of the stacks -/

/-- A run that acts on the selected nodes only, with the environments its config left out. -/
structure NarrowedRun extends OutputCommit where
  committed : Dict String Value
  changeset : ChangeSet
  selected : List String
  excluded : List String

namespace NarrowedRun

section

variable {run : NarrowedRun}

/-- The run has no business with the key: it changed no node of its stack, or the stack is an
environment it left out. -/
def Foreign (run : NarrowedRun) (key : String) : Prop :=
  (∀ change ∈ run.changeset.actionable, stackOf change.nodeId ≠ stackOf key) ∨
    stackOf key ∈ run.excluded

/-- Every node of the stack, and there is one, is selected. -/
def FullyApplied (run : NarrowedRun) (stack : String) : Prop :=
  (∃ node, (node ∈ run.desired.resources ∨ node ∈ run.prior) ∧ stackOf node = stack) ∧
    ∀ node, node ∈ run.desired.resources ∨ node ∈ run.prior → stackOf node = stack →
      node ∈ run.selected

/-- The commit changes no output of a stack the run has no business with, and removes those of a
fully applied stack that are no longer declared. -/
def LeavesAlone (run : NarrowedRun) (after : Dict String Value) : Prop :=
  (∀ key, run.Foreign key → after[key]? = run.committed[key]?) ∧
    ∀ key, run.FullyApplied (stackOf key) → key ∉ run.desired.outputDecls → key ∉ after

/-- The commit has nothing to change for the key. -/
def Settled (run : NarrowedRun) (key : String) : Prop :=
  match run.desired.outputDecls[key]? with
  | some value => ∀ resolved, resolveValue run.codec run.live true value = .ok resolved →
      run.committed[key]? = some (run.stored key resolved)
  | none => key ∈ run.committed → ∀ node, node ∈ run.desired.resources ∨ node ∈ run.prior →
      stackOf node ≠ stackOf key

theorem mem_mine {stack : String} : stack ∈ run.mine ↔
    ∃ node, (node ∈ run.desired.resources ∨ node ∈ run.prior) ∧ stackOf node = stack := by
  simp only [OutputCommit.mine, List.mem_map, List.mem_append, Std.ExtTreeMap.mem_keys]

theorem getElem?_resolved {name : String} : run.resolved[name]? =
    (run.desired.outputDecls[name]?).bind fun value =>
      (resolveValue run.codec run.live true value).toOption := by
  rw [OutputCommit.resolved, Std.ExtTreeMap.getElem?_filterMap']

/-- What a commit leaves of one key. -/
theorem getElem?_commitOutputs {after : Dict String Value}
    (hcommit : run.commitOutputs run.committed = .ok after) (key : String) :
    after[key]? = match run.resolved[key]? with
      | some value => some (run.stored key value)
      | none => if stackOf key ∈ run.mine ∧ key ∉ run.desired.outputDecls then none
          else run.committed[key]? := by
  unfold OutputCommit.commitOutputs at hcommit
  split at hcommit
  · cases hcommit
  · cases hcommit
    rw [mergeOutputs, Std.ExtTreeMap.getElem?_union, OutputCommit.persistableOutputs,
      Std.ExtTreeMap.getElem?_filterMap', Std.ExtTreeMap.getElem?_filter']
    cases hresolved : run.resolved[key]? with
    | some value => rfl
    | none =>
      dsimp only
      cases hkept : run.committed[key]? with
      | none => simp
      | some value =>
        have hmem : key ∈ run.committed := by
          rw [Std.ExtTreeMap.mem_iff_isSome_getElem?, hkept]
          rfl
        by_cases hretired : stackOf key ∈ run.mine ∧ key ∉ run.desired.outputDecls
        · simp [OutputCommit.retiredOutputs, hmem, hretired]
        · rw [if_neg hretired]
          simp only [not_and_or, not_not] at hretired
          simp [OutputCommit.retiredOutputs, hmem, hretired]

/-- A key the config does not declare is gone once its stack is one of the run's own. -/
theorem retired_of_owned {after : Dict String Value}
    (hcommit : run.commitOutputs run.committed = .ok after) {key : String}
    (hmine : stackOf key ∈ run.mine) (hdropped : key ∉ run.desired.outputDecls) : key ∉ after := by
  have hvalue := getElem?_commitOutputs hcommit key
  rw [getElem?_resolved, Std.ExtTreeMap.getElem?_eq_none hdropped, Option.bind_none] at hvalue
  dsimp only at hvalue
  rw [if_pos ⟨hmine, hdropped⟩] at hvalue
  exact fun hmem => by
    rw [Std.ExtTreeMap.mem_iff_isSome_getElem?, hvalue] at hmem
    cases hmem

end

/-! ## One environment of two -/

namespace TwoEnvs

def codec : Codec := ⟨fun _ => "", id, fun _ _ => .error .shape⟩

def secrets : SecretsRegistry :=
  ⟨fun ref => .ok ref.name, fun scope text => .ok (scope ++ text), .str, .ok⟩

def row (id : String) : StateNode :=
  { id := id, type := "t", provider := "p", providerVersion := "1", inputHash := "hash" }

def server : Resource :=
  { type := "t", provider := "p", stack := "prod", name := "server", inputs := ∅ }

/-- A run of the environment `prod` alone: the config evaluates `prod`'s server and its output,
while state also holds `dev`'s. -/
def run : NarrowedRun where
  codec := codec
  types := fun _ => none
  secrets := secrets
  desired := {
    ir := ⟨[]⟩
    hashes := fun _ => "hash"
    resources := (∅ : Dict String Resource).insert "prod:t:server" server
    outputDecls := (∅ : Dict String Value).insert "prod:url" (.str "https://prod") }
  prior := (∅ : StateGraph).insert "dev:t:server" (row "dev:t:server")
    |>.insert "prod:t:server" (row "prod:t:server")
  live := ∅
  committed := (∅ : Dict String Value).insert "dev:url" (.str "https://dev")
    |>.insert "prod:url" (.str "https://prod")
  changeset := ⟨[{ nodeId := "dev:t:server", action := .noop },
    { nodeId := "prod:t:server", action := .update }]⟩
  selected := ["prod:t:server"]
  excluded := ["dev"]

/-- Were `dev`'s outputs committed elsewhere, nothing foreign would be touched. -/
def alone : NarrowedRun :=
  { run with committed := (∅ : Dict String Value).insert "prod:url" (.str "https://prod") }

end TwoEnvs

end NarrowedRun

end Atlantide
