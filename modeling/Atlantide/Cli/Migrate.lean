import Atlantide.Lib.Edits
import Atlantide.Reconcile.Changes

/-! # Copying state from one backend to another

`state migrate` checks that the destination holds no nodes, takes both locks, reads the source again
and replaces what the destination holds: the rows in one write, then the outputs. Other runs commit
to both backends all the while, except to rows that the migration's locks cover, and the migration
can be interrupted at any moment. -/

namespace Atlantide

open Edits

abbrev NodeEdit := Edit String StateNode

abbrev OutputEdit := Edit String Value

namespace Migrate

/-- What a backend holds. -/
@[ext]
structure Contents where
  nodes : StateGraph := ∅
  outputs : Dict String Value := ∅
  deriving DecidableEq

/-- One committed write: of rows, or of outputs. -/
inductive Write
  | nodes (edit : NodeEdit)
  | outputs (edit : OutputEdit)

def Contents.commit (contents : Contents) : Write → Contents
  | .nodes edit => { contents with nodes := edit.apply contents.nodes }
  | .outputs edit => { contents with outputs := edit.apply contents.outputs }

/-- A backend, with the ids that the migration holds the lock over. -/
structure Store where
  contents : Contents
  serial : Nat := 0
  hold : Option (List String) := none

/-- Whether the migration's hold covers a row. -/
def Store.Covers (store : Store) (nodeId : String) : Prop :=
  ∃ scope, store.hold = some scope ∧ nodeId ∈ scope

instance (store : Store) (nodeId : String) : Decidable (store.Covers nodeId) :=
  match h : store.hold with
  | none => .isFalse (by simp [Store.Covers, h])
  | some scope => decidable_of_iff (nodeId ∈ scope) (by simp [Store.Covers, h])

inductive Side
  | source
  | destination
  deriving DecidableEq

inductive Outcome
  /-- The destination already held nodes. -/
  | occupied
  /-- Interrupted, or a call failed. -/
  | stopped
  | copied
  /-- The source's serial moved while it was copied. -/
  | changed
  deriving DecidableEq

/-- How far the migration is, with what it has read. -/
inductive Phase
  | begun
  | read (incoming : List String)
  | vacant (incoming : List String)
  | scoped (incoming scope : List String)
  | firstHeld (incoming scope : List String)
  | held
  | marked (serial : Nat)
  | nodesRead (serial : Nat) (graph : StateGraph)
  | outputsRead (serial : Nat) (copy : Contents)
  | compared (serial : Nat) (copy : Contents) (obsolete : List String)
  | replaced (serial : Nat) (copy : Contents)
  | writing (serial : Nat) (copy : Contents) (done todo : List OutputEdit)
  | ended (outcome : Outcome)

/-- What differs between two migrations: which lock is taken first, and the atomic writes that a
write of outputs is made of. -/
structure Setting where
  sourceFirst : Bool
  chunks : OutputEdit → List OutputEdit
  replay_chunks : ∀ (edit : OutputEdit) (table : Dict String Value),
    replay (chunks edit) table = edit.apply table
  touches_chunks : ∀ (edit : OutputEdit), ∀ chunk ∈ chunks edit, ∀ key : String,
    chunk.Touches key → edit.Touches key

/-- A moment of a migration. What the destination would hold without it, what the source held
under both locks, and what other runs have committed to the destination since the migration read
it for its writes, are kept beside what is there. -/
structure State where
  phase : Phase := .begun
  source : Store
  destination : Store
  without : Contents
  underLocks : List Contents := []
  laterNodes : List NodeEdit := []
  laterOutputs : List OutputEdit := []

/-- Before the migration: nobody holds anything for it. -/
def State.initial (source destination : Contents) : State where
  source := { contents := source }
  destination := { contents := destination }
  without := destination

namespace State

def bothHeld (state : State) : Bool := state.source.hold.isSome && state.destination.hold.isSome

/-- Records what the source holds, if both locks are held. -/
def witnessed (state : State) : State :=
  if state.bothHeld then { state with underLocks := state.source.contents :: state.underLocks }
  else state

def acquire (state : State) (side : Side) (incoming scope : List String) : State :=
  match side with
  | .source => { state with source := { state.source with hold := some incoming } }
  | .destination => { state with destination := { state.destination with hold := some scope } }

/-- The locks are released whichever way the migration ends. -/
def finish (state : State) (outcome : Outcome) : State :=
  { state with
    phase := .ended outcome
    source := { state.source with hold := none }
    destination := { state.destination with hold := none } }

/-- The rows that only the destination holds. -/
def obsolete (state : State) (copy : Contents) : List String :=
  state.destination.contents.nodes.keys.filter fun nodeId => nodeId ∉ copy.nodes

def staleOutputs (state : State) (copy : Contents) : List String :=
  state.destination.contents.outputs.keys.filter fun key => key ∉ copy.outputs

/-- What the destination holds after a write of the migration's own. -/
def write (state : State) (write : Write) (phase : Phase) : State :=
  { state with
    phase := phase
    destination := { state.destination with
      contents := state.destination.contents.commit write } }

/-- The migration's next step. -/
def migrate (setting : Setting) (state : State) : Option State :=
  match state.phase with
  | .begun => some { state with phase := .read state.source.contents.nodes.keys }
  | .read incoming =>
    if state.destination.contents.nodes.isEmpty then some { state with phase := .vacant incoming }
    else some (state.finish .occupied)
  | .vacant incoming =>
    some { state with
      phase := .scoped incoming (incoming ++ state.destination.contents.nodes.keys) }
  | .scoped incoming scope =>
    let first := if setting.sourceFirst then Side.source else .destination
    some { (state.acquire first incoming scope).witnessed with phase := .firstHeld incoming scope }
  | .firstHeld incoming scope =>
    let second := if setting.sourceFirst then Side.destination else .source
    some { (state.acquire second incoming scope).witnessed with phase := .held }
  | .held => some { state with phase := .marked state.source.serial }
  | .marked serial => some { state with phase := .nodesRead serial state.source.contents.nodes }
  | .nodesRead serial graph =>
    some { state with phase := .outputsRead serial ⟨graph, state.source.contents.outputs⟩ }
  | .outputsRead serial copy =>
    some { state with phase := .compared serial copy (state.obsolete copy) }
  | .compared serial copy obsolete =>
    -- The write is fenced on the rows it touches, dropped ones included.
    if ∀ nodeId ∈ obsolete ++ copy.nodes.keys, state.destination.Covers nodeId then
      some (state.write (.nodes ⟨obsolete, copy.nodes⟩) (.replaced serial copy))
    else some (state.finish .stopped)
  | .replaced serial copy =>
    if copy.outputs.isEmpty ∧ state.staleOutputs copy = [] then
      some { state with phase := .writing serial copy [] [] }
    else
      some { state with
        phase := .writing serial copy [] (setting.chunks ⟨state.staleOutputs copy, copy.outputs⟩) }
  | .writing serial copy done (chunk :: todo) =>
    some (state.write (.outputs chunk) (.writing serial copy (done ++ [chunk]) todo))
  | .writing serial _ _ [] =>
    some (state.finish (if state.source.serial = serial then .copied else .changed))
  | .ended _ => none

/-- Whether the migration has read the destination's rows for its write. -/
def nodesFixed (state : State) : Bool :=
  match state.phase with
  | .compared .. | .replaced .. | .writing .. => true
  | _ => false

/-- Whether the migration has read the destination's outputs for its write. -/
def outputsFixed (state : State) : Bool :=
  match state.phase with
  | .writing .. => true
  | _ => false

/-- Another run's write lands. -/
def commit (state : State) (side : Side) (write : Write) : State :=
  match side with
  | .source =>
    { state with source := { state.source with
        contents := state.source.contents.commit write
        serial := state.source.serial + 1 } }.witnessed
  | .destination =>
    let landed : State := { state with
      destination := { state.destination with
        contents := state.destination.contents.commit write }
      without := state.without.commit write }
    match write with
    | .nodes edit =>
      if state.nodesFixed then { landed with laterNodes := state.laterNodes ++ [edit] } else landed
    | .outputs edit =>
      if state.outputsFixed then { landed with laterOutputs := state.laterOutputs ++ [edit] }
      else landed

end State

inductive Event
  | migrate
  /-- The migration is interrupted, or its next call fails. -/
  | stop
  /-- Another run's write. -/
  | commit (side : Side) (write : Write)
  /-- The migration's lock on a side runs out. -/
  | lapse (side : Side)

def State.store (state : State) : Side → Store
  | .source => state.source
  | .destination => state.destination

/-- Whether the locks let another run's write through: no row that the migration holds is touched. -/
def State.Admits (state : State) (side : Side) : Write → Prop
  | .nodes edit => ∀ nodeId ∈ ((state.store side).hold.getD []), ¬ edit.Touches nodeId
  | .outputs _ => True

instance (state : State) (side : Side) : ∀ write, Decidable (state.Admits side write)
  | .nodes _ => inferInstanceAs (Decidable (∀ _ ∈ _, _))
  | .outputs _ => .isTrue trivial

def State.ended (state : State) : Bool :=
  match state.phase with
  | .ended _ => true
  | _ => false

/-- What one event makes of a moment; none where it cannot happen. -/
def State.after (setting : Setting) (state : State) (event : Event) : Option State :=
  if state.ended then none
  else
    match event with
    | .migrate => state.migrate setting
    | .stop => some (state.finish .stopped)
    | .commit side write => if state.Admits side write then some (state.commit side write) else none
    | .lapse .source => some { state with source := { state.source with hold := none } }
    | .lapse .destination =>
      some { state with destination := { state.destination with hold := none } }

/-- The moment that a sequence of events leads to. -/
def State.run (setting : Setting) (state : State) : List Event → Option State
  | [] => some state
  | event :: events => (state.after setting event).bind (·.run setting events)

/-! ## What a migration that has ended leaves -/

/-- The destination holds what it would hold anyway, or what the source held under both locks with
what other runs have committed since; and every row and output of theirs is there. -/
structure State.Intact (state : State) : Prop where
  whole : state.destination.contents = state.without ∨
    ∃ held ∈ state.underLocks,
      state.destination.contents.nodes = replay state.laterNodes held.nodes ∧
      state.destination.contents.outputs = replay state.laterOutputs held.outputs
  nodes : Within state.without.nodes state.destination.contents.nodes
  outputs : Within state.without.outputs state.destination.contents.outputs

/-- The migration takes the destination's lock only while it holds none of the rows that the lock
covers, reads the source under both locks, and writes outputs only to a destination without any. -/
def State.SafeStep (setting : Setting) (state : State) : Prop :=
  match state.phase with
  | .scoped _ scope =>
    setting.sourceFirst = false → ∀ nodeId ∈ scope, nodeId ∉ state.destination.contents.nodes
  | .firstHeld _ scope =>
    setting.sourceFirst = true → ∀ nodeId ∈ scope, nodeId ∉ state.destination.contents.nodes
  | .nodesRead .. => state.bothHeld
  | .replaced .. => state.destination.contents.outputs = ∅
  | _ => True

/-- The migration is not stopped when a part of what it has to write has landed and a part has not. -/
def State.SafeStop (state : State) : Prop :=
  match state.phase with
  | .replaced _ copy =>
    copy.nodes = ∅ ∨ copy.outputs = ∅ ∧ state.destination.contents.outputs = ∅
  | .writing _ copy done todo => todo = [] ∨ done = [] ∧ copy.nodes = ∅
  | _ => True

/-- No rows are committed to the source between the migration's two reads of it, and no output that
it is about to write to the destination. -/
def State.SafeCommit (state : State) (side : Side) (write : Write) : Prop :=
  match side, write, state.phase with
  | .source, .nodes _, .nodesRead .. => False
  | .destination, .outputs edit, .writing _ copy _ (_ :: _) =>
    ∀ key ∈ copy.outputs.keys, ¬ edit.Touches key
  | _, _, _ => True

/-- The condition on one event of a run. -/
def State.Safe (setting : Setting) (state : State) : Event → Prop
  | .migrate => state.SafeStep setting
  | .stop => state.SafeStop
  | .commit side write => state.SafeCommit side write
  | .lapse _ => True

/-- Every event of the run meets the condition. -/
def State.SafeRun (setting : Setting) (state : State) : List Event → Prop
  | [] => True
  | event :: events => state.Safe setting event ∧
      ∀ next ∈ state.after setting event, next.SafeRun setting events

instance (setting : Setting) (state : State) : Decidable (state.SafeStep setting) := by
  unfold State.SafeStep
  split <;> infer_instance

instance (state : State) : Decidable state.SafeStop := by
  unfold State.SafeStop
  split <;> infer_instance

instance (state : State) (side : Side) (write : Write) : Decidable (state.SafeCommit side write) := by
  unfold State.SafeCommit
  split <;> infer_instance

instance (setting : Setting) (state : State) : ∀ event, Decidable (state.Safe setting event)
  | .migrate => inferInstanceAs (Decidable (state.SafeStep setting))
  | .stop => inferInstanceAs (Decidable state.SafeStop)
  | .commit side write => inferInstanceAs (Decidable (state.SafeCommit side write))
  | .lapse _ => .isTrue trivial

instance State.decidableSafeRun (setting : Setting) (state : State) :
    ∀ events, Decidable (state.SafeRun setting events)
  | [] => .isTrue trivial
  | event :: events =>
    have := fun next => State.decidableSafeRun setting next events
    inferInstanceAs (Decidable (state.Safe setting event ∧
      ∀ next ∈ state.after setting event, next.SafeRun setting events))

/-! ## The invariant -/

/-- The destination holds none of the rows that the migration's lock covers. -/
def State.Clear (state : State) : Prop :=
  ∀ nodeId, state.destination.Covers nodeId → nodeId ∉ state.destination.contents.nodes

/-- What the source holds is recorded while both locks are held. -/
def State.Witnessed (state : State) : Prop :=
  state.bothHeld → state.source.contents ∈ state.underLocks

/-- The migration has written nothing, and the rows it locks are not there. -/
structure State.Untouched (state : State) : Prop where
  same : state.destination.contents = state.without
  clear : state.Clear
  nodes : state.laterNodes = []
  outputs : state.laterOutputs = []

/-- The rows of a copy have landed, beside what other runs committed. -/
structure State.Landed (state : State) (copy : Contents) : Prop where
  held : copy ∈ state.underLocks
  nodes : state.destination.contents.nodes = replay state.laterNodes copy.nodes
  without : state.without.nodes = replay state.laterNodes ∅

def State.Inv (state : State) : Prop :=
  state.Witnessed ∧
  match state.phase with
  | .nodesRead _ graph =>
    state.Untouched ∧ state.source.contents.nodes = graph
  | .outputsRead _ copy =>
    state.Untouched ∧ copy ∈ state.underLocks
  | .compared _ copy obsolete =>
    state.destination.contents = state.without ∧ state.laterOutputs = [] ∧
      copy ∈ state.underLocks ∧
      ∃ base : StateGraph, state.destination.contents.nodes = replay state.laterNodes base ∧
        obsolete = base.keys.filter (fun nodeId => nodeId ∉ copy.nodes) ∧
        ∀ nodeId, state.destination.Covers nodeId →
          nodeId ∉ base ∧ ∀ edit ∈ state.laterNodes, ¬ edit.Touches nodeId
  | .replaced _ copy =>
    state.Landed copy ∧ state.destination.contents.outputs = state.without.outputs ∧
      state.laterOutputs = []
  | .writing _ copy done todo =>
    state.Landed copy ∧ replay (done ++ todo) ∅ = copy.outputs ∧
      state.destination.contents.outputs = replay state.laterOutputs (replay done ∅) ∧
      state.without.outputs = replay state.laterOutputs ∅ ∧
      (∀ chunk ∈ todo, ∀ key, chunk.Touches key → key ∈ copy.outputs) ∧
      (todo ≠ [] → ∀ edit ∈ state.laterOutputs, ∀ key ∈ copy.outputs, ¬ edit.Touches key)
  | .ended _ => state.Intact
  | _ => state.Untouched

namespace State

variable {setting : Setting} {state next : State}

theorem witnessed_witnessed (state : State) : state.witnessed.Witnessed := by
  unfold witnessed
  split
  next => exact fun _ => List.mem_cons_self
  next hfree => exact fun hheld => absurd hheld hfree

theorem finish_witnessed (state : State) (outcome : Outcome) :
    (state.finish outcome).Witnessed := fun hheld => by cases hheld

/-- The destination is as it would be without the migration. -/
theorem intact_of_untouched (hsame : state.destination.contents = state.without) :
    state.Intact where
  whole := .inl hsame
  nodes := hsame ▸ Within.refl _
  outputs := hsame ▸ Within.refl _

theorem Intact.finish (hintact : state.Intact) (outcome : Outcome) :
    (state.finish outcome).Intact := ⟨hintact.whole, hintact.nodes, hintact.outputs⟩

theorem Inv.of_finish (hintact : state.Intact) (outcome : Outcome) :
    (state.finish outcome).Inv := ⟨finish_witnessed state outcome, hintact.finish outcome⟩

theorem within_empty {V : Type} (table : Dict String V) : Within ∅ table := by
  intro key value hfound
  rw [Std.ExtTreeMap.getElem?_empty] at hfound
  cases hfound

theorem Landed.within {copy : Contents} (hlanded : state.Landed copy) :
    Within state.without.nodes state.destination.contents.nodes := by
  rw [hlanded.nodes, hlanded.without]
  exact (within_empty copy.nodes).replay

theorem apply_empty {V : Type} (table : Dict String V) (removes : List String) :
    (⟨removes, table⟩ : Edit String V).apply ∅ = table := by
  refine Std.ExtTreeMap.ext_getElem? fun key => ?_
  rw [Edit.getElem?_apply, Std.ExtTreeMap.getElem?_empty, ite_self, Option.or_none]

/-- The rows land on a destination that holds none of its own. -/
theorem landed_of_covered {copy : Contents} {base : StateGraph}
    (hheld : copy ∈ state.underLocks)
    (hsame : state.destination.contents = state.without)
    (hnodes : state.destination.contents.nodes = replay state.laterNodes base)
    (hapart : ∀ nodeId, state.destination.Covers nodeId →
      nodeId ∉ base ∧ ∀ edit ∈ state.laterNodes, ¬ edit.Touches nodeId)
    (hcovered : ∀ nodeId ∈ base.keys.filter (fun nodeId => nodeId ∉ copy.nodes) ++ copy.nodes.keys,
      state.destination.Covers nodeId) (phase : Phase) :
    (state.write (.nodes ⟨base.keys.filter fun nodeId => nodeId ∉ copy.nodes, copy.nodes⟩)
      phase).Landed copy := by
  have hbase : base = ∅ := by
    refine Std.ExtTreeMap.eq_empty_iff_forall_not_mem.mpr fun nodeId hmem => ?_
    refine (hapart nodeId (hcovered nodeId ?_)).1 hmem
    by_cases hcopied : nodeId ∈ copy.nodes
    · exact List.mem_append_right _ (Std.ExtTreeMap.mem_keys.mpr hcopied)
    · exact List.mem_append_left _ (List.mem_filter.mpr
        ⟨Std.ExtTreeMap.mem_keys.mpr hmem, decide_eq_true hcopied⟩)
  subst hbase
  refine ⟨hheld, ?_, ?_⟩
  · change Edit.apply _ state.destination.contents.nodes = _
    rw [hnodes, apply_replay_comm, apply_empty]
    · rfl
    · intro nodeId htouches
      refine (hapart nodeId (hcovered nodeId ?_)).2
      rcases htouches with hremoved | hput
      · exact List.mem_append_left _ hremoved
      · exact List.mem_append_right _ (Std.ExtTreeMap.mem_keys.mpr hput)
  · change state.without.nodes = _
    rw [← hsame, hnodes]
    rfl

/-- Taking the destination's lock over rows that are not there leaves it clear. -/
theorem Untouched.acquire (huntouched : state.Untouched) {side : Side}
    {incoming scope : List String}
    (hsafe : side = .destination → ∀ nodeId ∈ scope, nodeId ∉ state.destination.contents.nodes) :
    (state.acquire side incoming scope).Untouched := by
  cases side with
  | source => exact ⟨huntouched.same, huntouched.clear, huntouched.nodes, huntouched.outputs⟩
  | destination =>
    refine ⟨huntouched.same, ?_, huntouched.nodes, huntouched.outputs⟩
    rintro nodeId ⟨held, hheld, hmem⟩
    cases hheld
    exact hsafe rfl nodeId hmem

theorem Untouched.witnessed (huntouched : state.Untouched) : state.witnessed.Untouched := by
  unfold State.witnessed
  split
  next => exact ⟨huntouched.same, huntouched.clear, huntouched.nodes, huntouched.outputs⟩
  next => exact huntouched

theorem Untouched.intact (huntouched : state.Untouched) : state.Intact :=
  intact_of_untouched huntouched.same

theorem Untouched.inPhase (huntouched : state.Untouched) (phase : Phase) :
    { state with phase := phase }.Untouched :=
  ⟨huntouched.same, huntouched.clear, huntouched.nodes, huntouched.outputs⟩

/-- The next chunk of the outputs lands beside what other runs committed. -/
theorem replay_chunk {later done todo : List OutputEdit} {chunk : OutputEdit}
    {outputs : Dict String Value}
    (htouches : ∀ edit ∈ chunk :: todo, ∀ key, edit.Touches key → key ∈ outputs)
    (hapart : ∀ edit ∈ later, ∀ key ∈ outputs, ¬ edit.Touches key) :
    chunk.apply (replay later (replay done ∅)) = replay later (replay (done ++ [chunk]) ∅) := by
  rw [replay_concat]
  refine apply_replay_comm fun key hkey edit hedit => ?_
  exact hapart edit hedit key (htouches chunk List.mem_cons_self key hkey)

theorem Inv.migrate (hinv : state.Inv) (hsafe : state.SafeStep setting)
    (hnext : state.migrate setting = some next) : next.Inv := by
  obtain ⟨hwitnessed, hphase⟩ := hinv
  unfold State.migrate at hnext
  unfold SafeStep at hsafe
  split at hnext
  next hat =>
    cases hnext
    rw [hat] at hphase
    exact ⟨hwitnessed, Untouched.inPhase hphase _⟩
  next incoming hat =>
    rw [hat] at hphase
    split at hnext
    next =>
      cases hnext
      exact ⟨hwitnessed, Untouched.inPhase hphase _⟩
    next =>
      cases hnext
      exact .of_finish (Untouched.intact hphase) _
  next incoming hat =>
    cases hnext
    rw [hat] at hphase
    exact ⟨hwitnessed, Untouched.inPhase hphase _⟩
  next incoming scope hat =>
    cases hnext
    rw [hat] at hphase hsafe
    refine ⟨witnessed_witnessed _, (Untouched.acquire hphase fun hside => ?_).witnessed.inPhase _⟩
    refine hsafe ?_
    cases hfirst : setting.sourceFirst with
    | false => rfl
    | true =>
      rw [hfirst] at hside
      cases hside
  next incoming scope hat =>
    cases hnext
    rw [hat] at hphase hsafe
    refine ⟨witnessed_witnessed _, (Untouched.acquire hphase fun hside => ?_).witnessed.inPhase _⟩
    refine hsafe ?_
    cases hfirst : setting.sourceFirst with
    | true => rfl
    | false =>
      rw [hfirst] at hside
      cases hside
  next hat =>
    cases hnext
    rw [hat] at hphase
    exact ⟨hwitnessed, Untouched.inPhase hphase _⟩
  next serial hat =>
    cases hnext
    rw [hat] at hphase
    exact ⟨hwitnessed, Untouched.inPhase hphase _, rfl⟩
  next serial graph hat =>
    cases hnext
    rw [hat] at hphase hsafe
    obtain ⟨huntouched, rfl⟩ := hphase
    exact ⟨hwitnessed, huntouched.inPhase _, hwitnessed hsafe⟩
  next serial copy hat =>
    cases hnext
    rw [hat] at hphase
    obtain ⟨huntouched, hheld⟩ := hphase
    refine ⟨hwitnessed, huntouched.same, huntouched.outputs, hheld,
      state.destination.contents.nodes, ?_, rfl, fun nodeId hcovers => ?_⟩
    · change _ = replay state.laterNodes _
      rw [huntouched.nodes, replay_nil]
    · refine ⟨huntouched.clear nodeId hcovers, ?_⟩
      change ∀ edit ∈ state.laterNodes, _
      rw [huntouched.nodes]
      exact nofun
  next serial copy obsolete hat =>
    rw [hat] at hphase
    obtain ⟨hsame, houtputs, hheld, base, hnodes, rfl, hapart⟩ := hphase
    split at hnext
    next hcovered =>
      cases hnext
      have hkept : state.destination.contents.outputs = state.without.outputs :=
        congrArg Contents.outputs hsame
      exact ⟨hwitnessed, landed_of_covered hheld hsame hnodes hapart hcovered _, hkept, houtputs⟩
    next =>
      cases hnext
      exact .of_finish (intact_of_untouched hsame) _
  next serial copy hat =>
    rw [hat] at hphase hsafe
    obtain ⟨hlanded, houtputs, hlater⟩ := hphase
    have hnone : state.destination.contents.outputs = ∅ := hsafe
    have hstale : state.staleOutputs copy = [] := by
      rw [staleOutputs, hnone]
      rfl
    have hlanded' : ∀ phase, { state with phase := phase }.Landed copy :=
      fun _ => ⟨hlanded.held, hlanded.nodes, hlanded.without⟩
    have hthere : state.destination.contents.outputs =
        replay state.laterOutputs (replay [] ∅) := by
      rw [hlater, hnone, replay_nil, replay_nil]
    have hwithout : state.without.outputs = replay state.laterOutputs ∅ := by
      rw [← houtputs, hthere, replay_nil]
    have hapart : ∀ edit ∈ state.laterOutputs, ∀ key ∈ copy.outputs, ¬ edit.Touches key := by
      rw [hlater]
      exact nofun
    split at hnext
    next hnothing =>
      cases hnext
      refine ⟨hwitnessed, hlanded' _, ?_, hthere, hwithout, nofun, fun hne => (hne rfl).elim⟩
      exact (Std.ExtTreeMap.isEmpty_iff.mp hnothing.1).symm
    next =>
      cases hnext
      refine ⟨hwitnessed, hlanded' _, ?_, hthere, hwithout, ?_, fun _ => hapart⟩
      · rw [List.nil_append, setting.replay_chunks, apply_empty]
      · intro chunk hchunk key hkey
        rcases setting.touches_chunks _ chunk hchunk key hkey with hremoved | hput
        · rw [hstale] at hremoved
          cases hremoved
        · exact hput
  next serial copy done chunk todo hat =>
    cases hnext
    rw [hat] at hphase
    obtain ⟨hlanded, htotal, hthere, hwithout, htouches, hapart⟩ := hphase
    refine ⟨hwitnessed, ⟨hlanded.held, hlanded.nodes, hlanded.without⟩, ?_, ?_, hwithout, ?_, ?_⟩
    · rwa [List.append_assoc]
    · change chunk.apply state.destination.contents.outputs = _
      rw [hthere]
      exact replay_chunk htouches (hapart (List.cons_ne_nil chunk todo))
    · exact fun edit hedit => htouches edit (List.mem_cons_of_mem chunk hedit)
    · exact fun _ => hapart (List.cons_ne_nil chunk todo)
  next serial copy done hat =>
    cases hnext
    rw [hat] at hphase
    obtain ⟨hlanded, htotal, hthere, hwithout, -, -⟩ := hphase
    refine .of_finish ⟨.inr ⟨copy, hlanded.held, hlanded.nodes, ?_⟩, hlanded.within, ?_⟩ _
    · rw [hthere, ← htotal, List.append_nil]
    · rw [hthere, hwithout]
      exact (within_empty _).replay
  next => cases hnext

/-- A migration that has not written yet has left the destination alone. -/
theorem Inv.stop (hinv : state.Inv) (hsafe : state.SafeStop) : (state.finish .stopped).Inv := by
  obtain ⟨-, hphase⟩ := hinv
  refine .of_finish ?_ _
  unfold SafeStop at hsafe
  cases hat : state.phase with
  | replaced serial copy =>
    rw [hat] at hphase hsafe
    obtain ⟨hlanded, houtputs, hlater⟩ := hphase
    have hwithin : Within state.without.outputs state.destination.contents.outputs :=
      houtputs ▸ Within.refl _
    rcases hsafe with hnone | ⟨hnone, hthere⟩
    · refine intact_of_untouched (Contents.ext ?_ houtputs)
      rw [hlanded.nodes, hlanded.without, hnone]
    · refine ⟨.inr ⟨copy, hlanded.held, hlanded.nodes, ?_⟩, hlanded.within, hwithin⟩
      rw [hlater, hnone, hthere, replay_nil]
  | writing serial copy done todo =>
    rw [hat] at hphase hsafe
    obtain ⟨hlanded, htotal, hthere, hwithout, -, -⟩ := hphase
    have hwithin : Within state.without.outputs state.destination.contents.outputs := by
      rw [hthere, hwithout]
      exact (within_empty _).replay
    rcases hsafe with rfl | ⟨rfl, hnone⟩
    · refine ⟨.inr ⟨copy, hlanded.held, hlanded.nodes, ?_⟩, hlanded.within, hwithin⟩
      rw [hthere, ← htotal, List.append_nil]
    · refine intact_of_untouched (Contents.ext ?_ ?_)
      · rw [hlanded.nodes, hlanded.without, hnone]
      · rw [hthere, hwithout, replay_nil]
  | compared serial copy obsolete =>
    rw [hat] at hphase
    exact intact_of_untouched hphase.1
  | nodesRead serial graph =>
    rw [hat] at hphase
    exact hphase.1.intact
  | outputsRead serial copy =>
    rw [hat] at hphase
    exact hphase.1.intact
  | ended outcome =>
    rw [hat] at hphase
    exact hphase
  | _ =>
    rw [hat] at hphase
    exact Untouched.intact hphase

/-- What keeps the invariant of a migration in the same phase: nothing of the destination changes but
that fewer rows may be locked, and the source keeps its rows between the two reads of it. -/
structure Frame (state next : State) : Prop where
  phase : next.phase = state.phase
  contents : next.destination.contents = state.destination.contents
  covers : ∀ nodeId, next.destination.Covers nodeId → state.destination.Covers nodeId
  without : next.without = state.without
  laterNodes : next.laterNodes = state.laterNodes
  laterOutputs : next.laterOutputs = state.laterOutputs
  held : ∀ held ∈ state.underLocks, held ∈ next.underLocks
  source : ∀ serial graph, state.phase = .nodesRead serial graph →
    next.source.contents.nodes = state.source.contents.nodes

theorem Frame.untouched (hframe : Frame state next) (huntouched : state.Untouched) :
    next.Untouched where
  same := by rw [hframe.contents, hframe.without, huntouched.same]
  clear := by
    intro nodeId hcovers
    rw [hframe.contents]
    exact huntouched.clear nodeId (hframe.covers nodeId hcovers)
  nodes := hframe.laterNodes.trans huntouched.nodes
  outputs := hframe.laterOutputs.trans huntouched.outputs

theorem Frame.landed (hframe : Frame state next) {copy : Contents} (hlanded : state.Landed copy) :
    next.Landed copy where
  held := hframe.held copy hlanded.held
  nodes := by rw [hframe.contents, hframe.laterNodes, hlanded.nodes]
  without := by rw [hframe.without, hframe.laterNodes, hlanded.without]

theorem Frame.inv (hframe : Frame state next) (hinv : state.Inv) (hwitnessed : next.Witnessed)
    (hrunning : state.ended = false) : next.Inv := by
  obtain ⟨-, hphase⟩ := hinv
  refine ⟨hwitnessed, ?_⟩
  rw [hframe.phase]
  cases hat : state.phase with
  | nodesRead serial graph =>
    rw [hat] at hphase
    exact ⟨hframe.untouched hphase.1, (hframe.source serial graph hat).trans hphase.2⟩
  | outputsRead serial copy =>
    rw [hat] at hphase
    exact ⟨hframe.untouched hphase.1, hframe.held copy hphase.2⟩
  | compared serial copy obsolete =>
    rw [hat] at hphase
    obtain ⟨hsame, houtputs, hheld, base, hnodes, hobsolete, hapart⟩ := hphase
    refine ⟨by rw [hframe.contents, hframe.without, hsame], hframe.laterOutputs.trans houtputs,
      hframe.held copy hheld, base, by rw [hframe.contents, hframe.laterNodes, hnodes], hobsolete,
      fun nodeId hcovers => ?_⟩
    rw [hframe.laterNodes]
    exact hapart nodeId (hframe.covers nodeId hcovers)
  | replaced serial copy =>
    rw [hat] at hphase
    obtain ⟨hlanded, houtputs, hlater⟩ := hphase
    refine ⟨hframe.landed hlanded, ?_, hframe.laterOutputs.trans hlater⟩
    rw [hframe.contents, hframe.without, houtputs]
  | writing serial copy done todo =>
    rw [hat] at hphase
    obtain ⟨hlanded, htotal, hthere, hwithout, htouches, hapart⟩ := hphase
    refine ⟨hframe.landed hlanded, htotal, ?_, ?_, htouches, ?_⟩
    · rw [hframe.contents, hframe.laterOutputs, hthere]
    · rw [hframe.without, hframe.laterOutputs, hwithout]
    · rwa [hframe.laterOutputs]
  | ended outcome =>
    rw [ended, hat] at hrunning
    cases hrunning
  | _ =>
    rw [hat] at hphase
    exact hframe.untouched hphase

/-- A commit to the source leaves the destination, and what it is compared with, alone. -/
theorem commit_source_frame {write : Write} (hsafe : state.SafeCommit .source write) :
    Frame state (state.commit .source write) := by
  have hmoved : Frame state { state with source := { state.source with
      contents := state.source.contents.commit write
      serial := state.source.serial + 1 } } := by
    refine ⟨rfl, rfl, fun _ hcovers => hcovers, rfl, rfl, rfl, fun _ hheld => hheld, ?_⟩
    intro serial graph hat
    cases write with
    | nodes edit =>
      unfold SafeCommit at hsafe
      rw [hat] at hsafe
      exact hsafe.elim
    | outputs edit => rfl
  unfold commit witnessed
  dsimp only
  split
  next =>
    exact ⟨rfl, rfl, fun _ hcovers => hcovers, rfl, rfl, rfl,
      fun _ hheld => List.mem_cons_of_mem _ hheld, hmoved.source⟩
  next => exact hmoved

theorem not_mem_apply {V : Type} {edit : Edit String V} {table : Dict String V} {key : String}
    (habsent : key ∉ table) (hfree : ¬ edit.Touches key) : key ∉ edit.apply table := by
  rw [Std.ExtTreeMap.mem_iff_isSome_getElem?, Edit.getElem?_apply_of_not_touches hfree,
    Std.ExtTreeMap.getElem?_eq_none habsent]
  exact Bool.false_ne_true

/-- A lock keeps other runs' writes off the rows it covers. -/
theorem Admits.free {edit : NodeEdit} (hadmits : state.Admits .destination (.nodes edit))
    {nodeId : String} (hcovers : state.destination.Covers nodeId) : ¬ edit.Touches nodeId := by
  obtain ⟨scope, hhold, hmem⟩ := hcovers
  refine hadmits nodeId ?_
  change nodeId ∈ state.destination.hold.getD []
  rwa [hhold]

/-- Another run's write to the destination changes what it holds and would hold, and is recorded if
the migration has read the destination for its own. -/
structure Committed (state next : State) (write : Write) : Prop where
  phase : next.phase = state.phase
  contents : next.destination.contents = state.destination.contents.commit write
  hold : next.destination.hold = state.destination.hold
  source : next.source = state.source
  without : next.without = state.without.commit write
  underLocks : next.underLocks = state.underLocks
  laterNodes : next.laterNodes = match write with
    | .nodes edit => if state.nodesFixed then state.laterNodes ++ [edit] else state.laterNodes
    | .outputs _ => state.laterNodes
  laterOutputs : next.laterOutputs = match write with
    | .nodes _ => state.laterOutputs
    | .outputs edit =>
      if state.outputsFixed then state.laterOutputs ++ [edit] else state.laterOutputs

theorem commit_destination (state : State) (write : Write) :
    Committed state (state.commit .destination write) write := by
  cases write with
  | nodes edit =>
    unfold commit
    dsimp only
    split
    next hfixed => exact ⟨rfl, rfl, rfl, rfl, rfl, rfl, (if_pos hfixed).symm, rfl⟩
    next hfree => exact ⟨rfl, rfl, rfl, rfl, rfl, rfl, (if_neg hfree).symm, rfl⟩
  | outputs edit =>
    unfold commit
    dsimp only
    split
    next hfixed => exact ⟨rfl, rfl, rfl, rfl, rfl, rfl, rfl, (if_pos hfixed).symm⟩
    next hfree => exact ⟨rfl, rfl, rfl, rfl, rfl, rfl, rfl, (if_neg hfree).symm⟩

theorem Committed.covers {write : Write} (hcommitted : Committed state next write)
    {nodeId : String} (hcovers : next.destination.Covers nodeId) :
    state.destination.Covers nodeId := by
  obtain ⟨scope, hhold, hmem⟩ := hcovers
  exact ⟨scope, hcommitted.hold ▸ hhold, hmem⟩

/-- Before the migration has read the destination for its writes, others' writes leave the locked
rows alone. -/
theorem Committed.untouched {write : Write} (hcommitted : Committed state next write)
    (huntouched : state.Untouched) (hadmits : state.Admits .destination write)
    (hnodes : state.nodesFixed = false) (houtputs : state.outputsFixed = false) :
    next.Untouched where
  same := by rw [hcommitted.contents, hcommitted.without, huntouched.same]
  clear := by
    intro nodeId hcovers
    have habsent := huntouched.clear nodeId (hcommitted.covers hcovers)
    rw [hcommitted.contents]
    cases write with
    | nodes edit => exact not_mem_apply habsent (Admits.free hadmits (hcommitted.covers hcovers))
    | outputs edit => exact habsent
  nodes := by
    rw [hcommitted.laterNodes, hnodes, huntouched.nodes]
    cases write <;> rfl
  outputs := by
    rw [hcommitted.laterOutputs, houtputs, huntouched.outputs]
    cases write <;> rfl

/-- Rows that others commit after the copy has landed are replayed on it. -/
theorem Committed.landed {write : Write} (hcommitted : Committed state next write)
    {copy : Contents} (hlanded : state.Landed copy) (hnodes : state.nodesFixed = true) :
    next.Landed copy := by
  refine ⟨hcommitted.underLocks ▸ hlanded.held, ?_, ?_⟩
  · rw [hcommitted.contents, hcommitted.laterNodes, hnodes]
    cases write with
    | nodes edit =>
      rw [Contents.commit]
      dsimp only
      rw [hlanded.nodes, if_pos rfl, replay_concat]
    | outputs edit => exact hlanded.nodes
  · rw [hcommitted.without, hcommitted.laterNodes, hnodes]
    cases write with
    | nodes edit =>
      rw [Contents.commit]
      dsimp only
      rw [hlanded.without, if_pos rfl, replay_concat]
    | outputs edit => exact hlanded.without

theorem Committed.witnessed {write : Write} (hcommitted : Committed state next write)
    (hwitnessed : state.Witnessed) : next.Witnessed := by
  intro hheld
  rw [bothHeld, hcommitted.hold, hcommitted.source] at hheld
  rw [hcommitted.source, hcommitted.underLocks]
  exact hwitnessed hheld

theorem Committed.inv {write : Write} (hcommitted : Committed state next write) (hinv : state.Inv)
    (hrunning : state.ended = false) (hadmits : state.Admits .destination write)
    (hsafe : state.SafeCommit .destination write) : next.Inv := by
  obtain ⟨hwitnessed, hphase⟩ := hinv
  refine ⟨hcommitted.witnessed hwitnessed, ?_⟩
  rw [hcommitted.phase]
  cases hat : state.phase with
  | nodesRead serial graph =>
    rw [hat] at hphase
    refine ⟨hcommitted.untouched hphase.1 hadmits ?_ ?_, ?_⟩
    · rw [nodesFixed, hat]
    · rw [outputsFixed, hat]
    · rw [hcommitted.source, hphase.2]
  | outputsRead serial copy =>
    rw [hat] at hphase
    refine ⟨hcommitted.untouched hphase.1 hadmits ?_ ?_, hcommitted.underLocks ▸ hphase.2⟩
    · rw [nodesFixed, hat]
    · rw [outputsFixed, hat]
  | compared serial copy obsolete =>
    rw [hat] at hphase
    obtain ⟨hsame, houtputs, hheld, base, hnodes, hobsolete, hapart⟩ := hphase
    have hfixed : state.nodesFixed = true := by rw [nodesFixed, hat]
    have hfree : state.outputsFixed = false := by rw [outputsFixed, hat]
    refine ⟨?_, ?_, hcommitted.underLocks ▸ hheld, base, ?_, hobsolete, ?_⟩
    · rw [hcommitted.contents, hcommitted.without, hsame]
    · rw [hcommitted.laterOutputs, hfree, houtputs]
      cases write <;> rfl
    · rw [hcommitted.contents, hcommitted.laterNodes, hfixed]
      cases write with
      | nodes edit =>
        rw [Contents.commit]
        dsimp only
        rw [hnodes, if_pos rfl, replay_concat]
      | outputs edit => exact hnodes
    · intro nodeId hcovers
      obtain ⟨habsent, hlater⟩ := hapart nodeId (hcommitted.covers hcovers)
      refine ⟨habsent, ?_⟩
      rw [hcommitted.laterNodes, hfixed]
      cases write with
      | nodes edit =>
        dsimp only
        rw [if_pos rfl, List.forall_mem_append, List.forall_mem_singleton]
        exact ⟨hlater, Admits.free hadmits (hcommitted.covers hcovers)⟩
      | outputs edit => exact hlater
  | replaced serial copy =>
    rw [hat] at hphase
    obtain ⟨hlanded, houtputs, hlater⟩ := hphase
    have hfree : state.outputsFixed = false := by rw [outputsFixed, hat]
    refine ⟨hcommitted.landed hlanded (by rw [nodesFixed, hat]), ?_, ?_⟩
    · rw [hcommitted.contents, hcommitted.without]
      cases write with
      | nodes edit => exact houtputs
      | outputs edit => exact congrArg edit.apply houtputs
    · rw [hcommitted.laterOutputs, hfree, hlater]
      cases write <;> rfl
  | writing serial copy done todo =>
    rw [hat] at hphase
    obtain ⟨hlanded, htotal, hthere, hwithout, htouches, hapart⟩ := hphase
    have hfixed : state.outputsFixed = true := by rw [outputsFixed, hat]
    refine ⟨hcommitted.landed hlanded (by rw [nodesFixed, hat]), htotal, ?_, ?_, htouches, ?_⟩
    · rw [hcommitted.contents, hcommitted.laterOutputs, hfixed]
      cases write with
      | nodes edit => exact hthere
      | outputs edit =>
        rw [Contents.commit]
        dsimp only
        rw [hthere, if_pos rfl, replay_concat]
    · rw [hcommitted.without, hcommitted.laterOutputs, hfixed]
      cases write with
      | nodes edit => exact hwithout
      | outputs edit =>
        rw [Contents.commit]
        dsimp only
        rw [hwithout, if_pos rfl, replay_concat]
    · intro hleft
      rw [hcommitted.laterOutputs, hfixed]
      cases write with
      | nodes edit => exact hapart hleft
      | outputs edit =>
        dsimp only
        rw [if_pos rfl, List.forall_mem_append, List.forall_mem_singleton]
        unfold SafeCommit at hsafe
        rw [hat] at hsafe
        obtain ⟨chunk, rest, rfl⟩ := List.exists_cons_of_ne_nil hleft
        exact ⟨hapart hleft, fun key hkey => hsafe key (Std.ExtTreeMap.mem_keys.mpr hkey)⟩
  | ended outcome =>
    rw [ended, hat] at hrunning
    cases hrunning
  | _ =>
    rw [hat] at hphase
    refine hcommitted.untouched hphase hadmits ?_ ?_
    · rw [nodesFixed, hat]
    · rw [outputsFixed, hat]

/-- One event of a run keeps the invariant. -/
theorem Inv.after (hinv : state.Inv) {event : Event} (hsafe : state.Safe setting event)
    (hnext : state.after setting event = some next) : next.Inv := by
  unfold State.after at hnext
  split at hnext
  next => cases hnext
  next hrunning =>
    have hrunning : state.ended = false := Bool.eq_false_iff.mpr hrunning
    split at hnext
    next => exact hinv.migrate hsafe hnext
    next =>
      cases hnext
      exact hinv.stop hsafe
    next side write =>
      split at hnext
      next hadmits =>
        cases hnext
        cases side with
        | source => exact (commit_source_frame hsafe).inv hinv (witnessed_witnessed _) hrunning
        | destination => exact (commit_destination state write).inv hinv hrunning hadmits hsafe
      next => cases hnext
    next =>
      cases hnext
      refine Frame.inv ?_ hinv (fun hheld => by cases hheld) hrunning
      exact ⟨rfl, rfl, fun _ hcovers => hcovers, rfl, rfl, rfl, fun _ hheld => hheld,
        fun _ _ _ => rfl⟩
    next =>
      cases hnext
      refine Frame.inv ?_ hinv (fun hheld => ?_) hrunning
      · refine ⟨rfl, rfl, ?_, rfl, rfl, rfl, fun _ hheld => hheld, fun _ _ _ => rfl⟩
        rintro nodeId ⟨scope, hnone, -⟩
        cases hnone
      · rw [bothHeld, Bool.and_eq_true] at hheld
        cases hheld.2

theorem Inv.run {events : List Event} (hinv : state.Inv) (hsafe : state.SafeRun setting events)
    (hrun : state.run setting events = some next) : next.Inv := by
  induction events generalizing state with
  | nil =>
    cases hrun
    exact hinv
  | cons event events ih =>
    obtain ⟨middle, hmiddle, hrest⟩ := Option.bind_eq_some_iff.mp hrun
    exact ih (hinv.after hsafe.1 hmiddle) (hsafe.2 middle hmiddle) hrest

theorem initial_inv (source destination : Contents) : (initial source destination).Inv := by
  have hwitnessed : (initial source destination).Witnessed := fun hheld => by cases hheld
  refine ⟨hwitnessed, rfl, ?_, rfl, rfl⟩
  rintro nodeId ⟨scope, hnone, -⟩
  cases hnone

end State

/-- Outputs written in one write, and the source's lock taken first. -/
def plainSetting : Setting where
  sourceFirst := true
  chunks edit := [edit]
  replay_chunks _ _ := rfl
  touches_chunks := by
    intro edit chunk hchunk key hkey
    rwa [List.mem_singleton.mp hchunk] at hkey

def row (id : String) : StateNode :=
  { id := id, type := "t", provider := "p", providerVersion := "1", inputHash := "h" }

/-- One node, and one output of its stack. -/
def populated : Contents := ⟨insert ("s:t:a", row "s:t:a") ∅, insert ("s:x", .int 1) ∅⟩

/-- Another run's first row. -/
def theirs : NodeEdit := ⟨[], insert ("s:t:b", row "s:t:b") ∅⟩

def steps (count : Nat) : List Event := List.replicate count .migrate

end Migrate

end Atlantide
