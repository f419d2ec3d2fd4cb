import Atlantide.State.Holds

/-! # Superseded leases

The journal decides a leased write at the heads of the nodes it changes, where the fence of the
newest lease over a node stays once that lease is gone. The tables decide it from the holds that are
left. The two decide alike as long as what the heads remember can still be told from the holds. -/

namespace Atlantide

/-- The heads after the grants: each acquisition raised the fence of every node of its scope. -/
def journalHeads (granted : List Lease) : Store :=
  granted.foldr (fun lease store =>
    lease.scope.foldl (fun store node => store.raiseFence node lease.fence) store) {}

theorem head_raiseFences (fence : Nat) (scope : List String) (store : Store) (node : String) :
    ((scope.foldl (fun store node => store.raiseFence node fence) store).head ⟨.node, node⟩).fence =
      if node ∈ scope then some fence else (store.head ⟨.node, node⟩).fence := by
  induction scope generalizing store with
  | nil => simp
  | cons first scope ih =>
    rw [List.foldl_cons, ih]
    by_cases hfirst : first = node
    · subst hfirst
      simp [Store.head_raiseFence_self]
    · rw [Store.head_raiseFence_of_ne store fence fun h => hfirst (Item.mk.inj h).2]
      simp [Ne.symm hfirst]

/-- A head is at the fence of the newest lease granted over its node. -/
theorem head_journalHeads (granted : List Lease) (node : String) :
    ((journalHeads granted).head ⟨.node, node⟩).fence =
      (newestGrant granted node).map Lease.fence := by
  induction granted with
  | nil => rfl
  | cons lease granted ih =>
    show ((lease.scope.foldl _ (journalHeads granted)).head ⟨.node, node⟩).fence = _
    rw [head_raiseFences, ih]
    split
    next hmem => rw [newestGrant_cons_of_mem hmem, Option.map_some]
    next hmem => rw [newestGrant_cons_of_not_mem hmem]

namespace NodeWrite

/-- The rows the write leaves, whatever was there. -/
def fresh (write : NodeWrite) : Dict String StateNode :=
  write.stored.foldl (fun fresh node => fresh.insert node.id node) ∅

/-- The nodes whose rows the write changes. -/
def changes (write : NodeWrite) (nodes : Dict String StateNode) : List String :=
  (sortedSet write.touched).filter fun node => nodes[node]? ≠ write.fresh[node]?

/-- The nodes at whose heads the journal decides the write: one change is committed at its own head,
several in bulk once every node touched was looked at. -/
def decidedAt (write : NodeWrite) (nodes : Dict String StateNode) : List String :=
  match write.changes nodes with
  | [] => []
  | [only] => [only]
  | _ => write.touched

end NodeWrite

namespace Tables

/-- The journal's rule for a leased write. -/
def JournalAccepts (tables : Tables) (lease : Lease) (write : NodeWrite) : Prop :=
  (∀ node ∈ write.touched, node ∈ lease.scope) ∧
  ∀ node ∈ write.decidedAt tables.nodes,
    (journalHeads tables.granted).itemAllowed (.checkFence node lease.fence) = true

/-- Another owner has acquired one of the nodes with a higher fence. -/
def Superseded (tables : Tables) (lease : Lease) (nodes : List String) : Prop :=
  ∃ node ∈ nodes, ∃ newer ∈ tables.granted,
    node ∈ newer.scope ∧ newer.owner ≠ lease.owner ∧ lease.fence < newer.fence

def Accepts (tables : Tables) (now : Int) (lease : Lease) (write : NodeWrite) : Prop :=
  ∃ tables', tables.write now (some lease) write = .ok tables'

/-- A superseded lease writes nothing, and a write that changes anything is accepted just when the
journal accepts it. -/
def WriteAgrees (tables : Tables) (now : Int) (call : StateCall) : Prop :=
  ∀ lease write, call = .write (some lease) write → lease ∈ tables.granted →
    (tables.Superseded lease write.touched → ¬tables.Accepts now lease write) ∧
    (write.changes tables.nodes ≠ [] →
      (tables.Accepts now lease write ↔ tables.JournalAccepts lease write))

/-- The lease is the newest grant over what the write is decided at, all it touches in its scope. -/
def Newest (tables : Tables) (lease : Lease) (write : NodeWrite) : Prop :=
  (∀ node ∈ write.touched, node ∈ lease.scope) ∧
  ∀ node ∈ write.decidedAt tables.nodes, newestGrant tables.granted node = some lease

/-- The holds that are left tell what the heads remember. Under the newest lease no hold over a node
touched has lapsed or is another's; under any other some hold still bars the write. -/
def HoldsTell (tables : Tables) (now : Int) (call : StateCall) : Prop :=
  ∀ lease write, call = .write (some lease) write → lease ∈ tables.granted →
    (write.changes tables.nodes ≠ [] → tables.Newest lease write →
      ¬tables.Superseded lease write.touched ∧
      ∀ node ∈ write.touched, ∀ hold, tables.holds[node]? = some hold →
        hold.fence = lease.fence ∧ now < hold.expiresAt) ∧
    (tables.Superseded lease write.touched ∨
      write.changes tables.nodes ≠ [] ∧ ¬tables.Newest lease write →
      ∃ node ∈ write.touched, tables.Bars now lease node)

end Tables

open Tables

namespace Granted

variable {tables : Tables} {lease : Lease}

theorem accepts_iff (hgranted : Granted tables) (hmem : lease ∈ tables.granted) (now : Int)
    (write : NodeWrite) :
    tables.Accepts now lease write ↔ ¬∃ node ∈ write.touched, tables.Bars now lease node := by
  rw [← hgranted.fenceViolation_iff hmem, not_not]
  unfold Accepts Tables.write
  cases fenceViolation (some lease) tables.holds now write.touched <;> simp

/-- The head of a node in the lease's scope is at its fence when no newer lease was granted. -/
theorem itemAllowed_iff (hgranted : Granted tables) (hmem : lease ∈ tables.granted) {node : String}
    (hscope : node ∈ lease.scope) :
    (journalHeads tables.granted).itemAllowed (.checkFence node lease.fence) = true ↔
      newestGrant tables.granted node = some lease := by
  obtain ⟨newest, hnewest⟩ := exists_newestGrant hmem hscope
  simp only [Store.itemAllowed, head_journalHeads, hnewest, Option.map_some, Option.some.injEq,
    decide_eq_true_eq]
  constructor
  · intro hfence
    rcases hgranted.fence_lt hmem hscope hnewest with rfl | hlt
    · rfl
    · exact absurd hfence (Nat.ne_of_gt hlt)
  · rintro rfl
    rfl

theorem decidedAt_subset {write : NodeWrite} {nodes : Dict String StateNode} {node : String}
    (hmem : node ∈ write.decidedAt nodes) : node ∈ write.touched := by
  have hchanges : ∀ node ∈ write.changes nodes, node ∈ write.touched := fun node hmem =>
    mem_sortedSet.mp (List.mem_filter.mp hmem).1
  unfold NodeWrite.decidedAt at hmem
  split at hmem
  next => cases hmem
  next only honly => exact hchanges node (honly ▸ hmem)
  next => exact hmem

theorem journalAccepts_iff (hgranted : Granted tables) (hmem : lease ∈ tables.granted)
    (write : NodeWrite) : tables.JournalAccepts lease write ↔ tables.Newest lease write := by
  refine and_congr_right fun hscope => forall₂_congr fun node hnode => ?_
  exact hgranted.itemAllowed_iff hmem (hscope node (decidedAt_subset hnode))

/-- Within its scope a lease is barred by the holds that are not its own live ones. -/
theorem not_bars_iff (now : Int) {nodes : List String} (hscope : ∀ node ∈ nodes, node ∈ lease.scope) :
    (¬∃ node ∈ nodes, tables.Bars now lease node) ↔
      ∀ node ∈ nodes, ∀ hold, tables.holds[node]? = some hold →
        hold.fence = lease.fence ∧ now < hold.expiresAt := by
  simp only [not_exists, not_and]
  refine forall₂_congr fun node hnode => ?_
  unfold Bars
  cases tables.holds[node]? with
  | none => simp [hscope node hnode]
  | some hold =>
    simp only [if_pos (hscope node hnode), Option.some.injEq, forall_eq']
    omega

/-- One write agrees with the journal exactly when the holds tell what the heads remember. -/
theorem writeAgrees_iff (hgranted : Granted tables) (now : Int) (call : StateCall) :
    WriteAgrees tables now call ↔ HoldsTell tables now call := by
  refine forall₄_congr fun lease write _ hmem => ?_
  rw [hgranted.accepts_iff hmem, hgranted.journalAccepts_iff hmem]
  by_cases hnewest : tables.Newest lease write
  · rw [← not_bars_iff now hnewest.1]
    generalize (∃ node ∈ write.touched, tables.Bars now lease node) = barred
    tauto
  · generalize (∃ node ∈ write.touched, tables.Bars now lease node) = barred
    tauto

end Granted

/-- A run's lease lapses, another run takes its node over and ends, and the first run wakes. -/
def wokenWrite : List (Int × StateCall) :=
  [(0, .acquire "first" 10 ["net:vpc"]), (50, .acquire "second" 10 ["net:vpc"]),
    (55, .release "second"),
    (56, .write (some ⟨"first", 10, ["net:vpc"], 1⟩) (.delete "net:vpc"))]

end Atlantide
