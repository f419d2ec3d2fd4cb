import Atlantide.State.S3.LockFootprint
import Atlantide.State.S3.OutputSafety

/-! # No committed write is lost or resurrected

Every backend process keeps to the protocol, so every reachable world keeps the journal invariant:
whatever the interleaving of commits, bulk writes, folds and deletions, and wherever a process stops,
an item's effective value is what its last commit wrote, and the entry it needs is there. -/

namespace Atlantide

open Interleaving History

variable {tid : Tid} {world : World} {ctx : S3Context}

/-- On a process's main thread a lock call may be asked for at any time. -/
theorem legit_of_locking (hmain : tid.thread = 0) {world : World} {request : Request}
    (h : request.Locking) : Legit tid world request := by
  match request, h with
  | .aws (.transact items), ⟨hnone, _⟩ =>
    refine ⟨fun update hmem => ?_, ?_⟩
    · cases List.filterMap_eq_nil_iff.mp hnone _ hmem
    · rw [hnone]
      exact List.nodup_nil
  | .aws (.getSnapshot), _ | .aws (.headSnapshot), _ | .aws (.listPage ..), _
  | .aws (.getEntry _), _ | .aws (.getHead _), _ | .aws (.getRow _), _ | .aws (.getLease _), _
  | .aws (.putLease ..), _ | .aws (.extendLease ..), _ | .aws (.revokeLease ..), _
  | .aws (.deleteLease ..), _ | .aws (.deleteRow ..), _ | .aws (.unlockRow _), _
  | .aws (.bumpFence ..), _ | .aws (.readFence), _ | .uuid, _ | .schedule, _ | .paging, _ => trivial
  | .memory op, h => cases op <;> first | exact h.elim | trivial

theorem safe_locking {α : Type} {program : Backend α} (hmain : tid.thread = 0)
    (honly : program.Only Request.Locking) : SafeTask tid program world anyway :=
  SafeTask.of_only honly fun _ _ _ => legit_of_locking hmain

namespace LockTable

theorem safe_takeScope (hmain : tid.thread = 0) (owner : String) (ttl : Int) (scope : List String)
    (renewing : Bool) (hinv : WorldInv world) :
    SafeTask tid (takeScope ctx owner ttl scope renewing) world anyway := by
  refine SafeTask.andThen (safe_memory_any fun _ _ _ => trivial) hinv ?_ fun _ _ => trivial
  intro a now _ hinva _
  refine SafeTask.ite (fun _ => trivial) fun _ => ?_
  refine SafeTask.andThen Snapshots.safe_ensure hinva ?_ fun _ _ => trivial
  exact fun b snap _ _ _ => safe_locking hmain (locking_claimScope owner ttl scope renewing now snap)

theorem safe_renew (hmain : tid.thread = 0) (owner : String) (ttl : Int) (scope : List String)
    (hinv : WorldInv world) : SafeTask tid (renew ctx owner ttl scope) world anyway := by
  refine SafeTask.andThen (safe_locking hmain (locking_renewable owner scope)) hinv ?_
    fun _ _ => trivial
  intro a found _ hinva _
  cases found with
  | none => exact safe_takeScope hmain owner ttl scope true hinva
  | some grant =>
    exact safe_locking hmain (Prog.Only.bind (only_memory trivial) fun _ =>
      locking_extend owner grant _ scope)

end LockTable

/-- What holds when a call ends: a read's cut is one the journal had. -/
def CallPost (tid : Tid) (call : Call) (world : World) : Except Error Result → Prop
  | .ok (.cut (some cut)) => call = .read → ∃ start, CutSeen tid cut start world
  | _ => True

/-- Every call keeps to the protocol, whatever the other tasks do. -/
theorem safe_program (ctx : S3Context) (tid : Tid) (call : Call) (hinv : WorldInv world) :
    SafeTask tid ((backends ctx).program tid call) world (CallPost tid call) := by
  have hany : ∀ {α : Type} {program : Backend α} {result : α → Result},
      SafeTask tid program world anyway → (∀ value cut, result value ≠ .cut cut) →
      SafeTask tid (program.bind fun value => .ret (result value)) world (CallPost tid call) := by
    intro α program result hsafe hresult
    refine Safe.bind (hsafe.mono ?_)
    rintro a (error | value) -
    · trivial
    · show CallPost tid call a (.ok (result value))
      unfold CallPost
      split
      next cut hcut => exact absurd (Except.ok.inj hcut) (hresult value _)
      next => trivial
  have hmaybe : tid.thread = 0 ∨ call.shared = true → SafeTask tid (call.program ctx) world
      (CallPost tid call) := by
    intro hallowed
    cases call with
    | read =>
      refine Safe.bind ((Reads.safe_cut hinv).mono ?_)
      rintro a (error | found) hread
      · trivial
      · cases found with
        | none => trivial
        | some cut =>
          obtain ⟨start, -, hseen⟩ := hread.2 cut rfl
          exact fun _ => ⟨start, hseen⟩
    | load =>
      refine hany ((Views.safe_ensure hinv).mono fun _ _ _ => trivial) fun _ _ h => nomatch h
    | put node => exact hany (Writes.safe_writeNode _ _ hinv) fun _ _ h => nomatch h
    | delete node => exact hany (Writes.safe_writeNode _ _ hinv) fun _ _ h => nomatch h
    | compact => exact hany (Maintenance.safe_compact hinv) fun _ _ h => nomatch h
    | replaceMany deleteIds nodes =>
      have hmain : tid.thread = 0 := hallowed.resolve_right Bool.false_ne_true
      exact hany (Writes.safe_replaceMany deleteIds nodes hmain hinv) fun _ _ h => nomatch h
    | setOutputs outputs remove =>
      have hmain : tid.thread = 0 := hallowed.resolve_right Bool.false_ne_true
      exact hany (OutputWrites.safe_setOutputs hmain outputs remove hinv) fun _ _ h => nomatch h
    | acquire owner ttl scope =>
      have hmain : tid.thread = 0 := hallowed.resolve_right Bool.false_ne_true
      exact hany (LockTable.safe_takeScope hmain owner ttl scope false hinv) fun _ _ h => nomatch h
    | renew owner ttl scope =>
      have hmain : tid.thread = 0 := hallowed.resolve_right Bool.false_ne_true
      exact hany (LockTable.safe_renew hmain owner ttl scope hinv) fun _ _ h => nomatch h
    | release owner =>
      have hmain : tid.thread = 0 := hallowed.resolve_right Bool.false_ne_true
      exact hany (safe_locking hmain (LockTable.locking_release owner)) fun _ _ h => nomatch h
    | forceUnlock nodes =>
      have hmain : tid.thread = 0 := hallowed.resolve_right Bool.false_ne_true
      exact hany (safe_locking hmain (LockTable.locking_forceUnlock nodes)) fun _ _ h => nomatch h
  exact SafeTask.ite hmaybe fun _ => trivial

theorem WorldInv.initial : WorldInv {} where
  journal := JournalInv.initial
  behind _ _ h := nomatch h

/-- **The protocol is kept**, by any number of processes in any interleaving. -/
theorem protocol (ctx : S3Context) :
    System.Disciplined (backends ctx) WorldInv Rely Legit CallPost where
  rely_refl := Rely.refl
  rely_trans _ _ _ _ := Rely.trans
  inv_env event _ hinv := World.env_keeps event hinv
  rely_env tid event world _ := World.env_rely tid event world
  inv_serve _ choice _ _ hinv hlegit := (World.serve_keeps hinv hlegit choice).1
  rely_serve _ _ _ _ _ hne hinv hlegit := World.serve_rely hne hinv hlegit
  start tid call _ hinv := safe_program ctx tid call hinv

/-- **No committed write is lost or resurrected.** In every reachable state each item's effective
value is what the last commit to it wrote, or the empty state's where there was none, and the entry
of every effective head is there. -/
theorem commits_kept (ctx : S3Context) {acts : List (System.Act Tid Choice Surroundings Call)}
    {config : Backends} (hrun : (backends ctx).run acts (System.initial {}) = some config)
    (item : Item) :
    (∀ value, LastCommit config.world.history item value →
      config.world.store.effective item = some value) ∧
    (commits item config.world.history = [] →
      config.world.store.effective item = some (({} : StateDocument).value item)) ∧
    (Cut.past config.world.store.doc item (config.world.store.head item) = true →
      ∃ ref entry, (config.world.store.head item).ref = some ref ∧
        config.world.store.entries[ref]? = some entry) := by
  have hinv := ((protocol ctx).reachable WorldInv.initial hrun).1.journal
  exact ⟨hinv.effective_last item, hinv.effective_initial item, hinv.effective_entry⟩

/-- A first write, folded into the snapshot, and its entry deleted. -/
def writeThenFold : List (System.Act Tid Choice Surroundings Call) :=
  .start ⟨0, 0⟩ (.put { id := "net:vpc", type := "Vpc", provider := "aws", providerVersion := "1"
                        inputHash := "h" }) :: served ⟨0, 0⟩ 18 ++
  .start ⟨0, 1⟩ .compact :: served ⟨0, 1⟩ 9

theorem commits_kept_folded : ∃ config,
    (backends {}).run writeThenFold (System.initial {}) = some config ∧
      ∀ value, LastCommit config.world.history ⟨.node, "net:vpc"⟩ value →
        config.world.store.effective ⟨.node, "net:vpc"⟩ = some value := by
  have hruns : ((backends {}).run writeThenFold (System.initial {})).isSome = true := by
    decide +kernel
  obtain ⟨config, hrun⟩ := Option.isSome_iff_exists.mp hruns
  exact ⟨config, hrun, (commits_kept {} hrun ⟨.node, "net:vpc"⟩).1⟩

end Atlantide
