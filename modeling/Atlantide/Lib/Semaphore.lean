import Mathlib.Data.List.Basic
import Mathlib.Data.List.Nodup

/-! # A semaphore with a queue of waiters

A permit that comes free is handed to the first waiter that still waits, which takes it when it next
runs; until then it stands in the queue as woken, and newcomers queue behind it. A waiter that was
cancelled leaves the queue when it next runs, and hands on the permit it may have been given. -/

/-- What became of a waiter that has not run since. -/
inductive Semaphore.Status
  | pending
  | woken
  | cancelled
  deriving DecidableEq

structure Semaphore (ι : Type) where
  value : Nat
  waiters : List (ι × Semaphore.Status) := []

namespace Semaphore

variable {ι : Type} [DecidableEq ι]

/-- Whether a newcomer has to wait. -/
def locked (sem : Semaphore ι) : Bool :=
  sem.value = 0 || sem.waiters.any fun waiter => waiter.2 ≠ .cancelled

/-- Wakes the first waiter that is still pending, if there is one. -/
def wakeFirst : List (ι × Status) → Option (List (ι × Status))
  | [] => none
  | (who, .pending) :: waiters => some ((who, .woken) :: waiters)
  | waiter :: waiters => (wakeFirst waiters).map (waiter :: ·)

/-- Gives a free permit to the first pending waiter. -/
def wakeNext (sem : Semaphore ι) : Semaphore ι :=
  match wakeFirst sem.waiters with
  | some waiters => ⟨sem.value - 1, waiters⟩
  | none => sem

/-- Takes a permit, or a place in the queue. -/
def acquire (sem : Semaphore ι) (who : ι) : Bool × Semaphore ι :=
  if sem.locked then (false, { sem with waiters := sem.waiters ++ [(who, .pending)] })
  else (true, { sem with value := sem.value - 1 })

def release (sem : Semaphore ι) : Semaphore ι :=
  wakeNext { sem with value := sem.value + 1 }

/-- A woken waiter runs, with its permit. -/
def resume (sem : Semaphore ι) (who : ι) : Semaphore ι :=
  let left : Semaphore ι := { sem with waiters := sem.waiters.erase (who, .woken) }
  if 0 < left.value then left.wakeNext else left

/-- A waiter runs only to find itself cancelled. -/
def withdraw (sem : Semaphore ι) (who : ι) : Semaphore ι :=
  if (who, .woken) ∈ sem.waiters then
    release { sem with waiters := sem.waiters.erase (who, .woken) }
  else { sem with waiters := sem.waiters.erase (who, .cancelled) }

/-- Cancels every pending waiter. -/
def cancelAll (sem : Semaphore ι) : Semaphore ι :=
  { sem with waiters := sem.waiters.map fun waiter =>
      if waiter.2 = .pending then (waiter.1, .cancelled) else waiter }

/-- The permits nobody holds: free, or given to a waiter that has not run yet. -/
def permits (sem : Semaphore ι) : Nat :=
  sem.value + sem.waiters.countP fun waiter => waiter.2 = .woken

/-- Nobody waits while a permit is free and nobody is about to run. -/
def Attentive (sem : Semaphore ι) : Prop :=
  ∀ who, (who, Status.pending) ∈ sem.waiters → sem.value = 0 ∨ ∃ next, (next, .woken) ∈ sem.waiters

omit [DecidableEq ι] in
theorem wakeFirst_eq_none {waiters : List (ι × Status)} (hnone : wakeFirst waiters = none) (who : ι) :
    (who, Status.pending) ∉ waiters := by
  induction waiters with
  | nil => exact List.not_mem_nil
  | cons waiter waiters ih =>
    obtain ⟨first, status⟩ := waiter
    cases status with
    | pending => cases hnone
    | woken | cancelled =>
      rw [wakeFirst, Option.map_eq_none_iff] at hnone
      · rw [List.mem_cons, not_or]
        exact ⟨nofun, ih hnone⟩
      · exact nofun

omit [DecidableEq ι] in
/-- Waking turns one waiter from pending to woken. -/
theorem wakeFirst_eq_some {waiters waiters' : List (ι × Status)}
    (hsome : wakeFirst waiters = some waiters') :
    ∃ before who after, waiters = before ++ (who, .pending) :: after ∧
      waiters' = before ++ (who, .woken) :: after := by
  induction waiters generalizing waiters' with
  | nil => cases hsome
  | cons waiter waiters ih =>
    obtain ⟨first, status⟩ := waiter
    cases status with
    | pending =>
      cases hsome
      exact ⟨[], first, waiters, rfl, rfl⟩
    | woken | cancelled =>
      rw [wakeFirst, Option.map_eq_some_iff] at hsome
      · obtain ⟨found, hfound, rfl⟩ := hsome
        obtain ⟨before, who, after, rfl, rfl⟩ := ih hfound
        exact ⟨_ :: before, who, after, rfl, rfl⟩
      · exact nofun

omit [DecidableEq ι] in
theorem wakeNext_attentive (sem : Semaphore ι) : sem.wakeNext.Attentive := by
  intro who hpending
  unfold wakeNext at hpending ⊢
  cases hwake : wakeFirst sem.waiters with
  | none =>
    rw [hwake] at hpending
    exact absurd hpending (wakeFirst_eq_none hwake who)
  | some waiters =>
    obtain ⟨before, next, after, -, rfl⟩ := wakeFirst_eq_some hwake
    exact .inr ⟨next, List.mem_append_right _ (List.mem_cons_self ..)⟩

omit [DecidableEq ι] in
theorem wakeNext_permits {sem : Semaphore ι} (hfree : 0 < sem.value) :
    sem.wakeNext.permits = sem.permits := by
  unfold wakeNext
  cases hwake : wakeFirst sem.waiters with
  | none => rfl
  | some waiters =>
    obtain ⟨before, who, after, hbefore, rfl⟩ := wakeFirst_eq_some hwake
    simp only [permits, hbefore, List.countP_append, List.countP_cons]
    simp
    omega

omit [DecidableEq ι] in
theorem wakeNext_names (sem : Semaphore ι) :
    sem.wakeNext.waiters.map Prod.fst = sem.waiters.map Prod.fst := by
  unfold wakeNext
  cases hwake : wakeFirst sem.waiters with
  | none => rfl
  | some waiters =>
    obtain ⟨before, who, after, hbefore, rfl⟩ := wakeFirst_eq_some hwake
    simp [hbefore]

omit [DecidableEq ι] in
/-- Waking adds no waiter that still waits. -/
theorem mem_wakeNext {sem : Semaphore ι} {who : ι} {status : Status} (hasleep : status ≠ .woken)
    (hmem : (who, status) ∈ sem.wakeNext.waiters) : (who, status) ∈ sem.waiters := by
  unfold wakeNext at hmem
  cases hwake : wakeFirst sem.waiters with
  | none => rwa [hwake] at hmem
  | some waiters =>
    obtain ⟨before, next, after, hbefore, rfl⟩ := wakeFirst_eq_some hwake
    rw [hwake] at hmem
    rw [hbefore]
    rcases List.mem_append.mp hmem with hmem | hmem
    · exact List.mem_append_left _ hmem
    · rcases List.mem_cons.mp hmem with heq | hmem
      · exact absurd (Prod.mk.inj heq).2 hasleep
      · exact List.mem_append_right _ (List.mem_cons_of_mem _ hmem)

section

variable {sem : Semaphore ι} {who : ι}

omit [DecidableEq ι] in
theorem locked_eq_false (hfree : sem.locked = false) :
    0 < sem.value ∧ ∀ waiter ∈ sem.waiters, waiter.2 = .cancelled := by
  simp only [locked, Bool.or_eq_false_iff, decide_eq_false_iff_not, List.any_eq_false,
    decide_eq_true_eq, not_not] at hfree
  exact ⟨Nat.pos_of_ne_zero hfree.1, hfree.2⟩

omit [DecidableEq ι] in
/-- A newcomer that need not wait takes one of the permits. -/
theorem acquire_free (hfree : sem.locked = false) :
    (sem.acquire who).1 = true ∧ (sem.acquire who).2.permits + 1 = sem.permits ∧
      (sem.acquire who).2.Attentive ∧ (sem.acquire who).2.waiters = sem.waiters := by
  obtain ⟨hvalue, hcancelled⟩ := locked_eq_false hfree
  simp only [acquire, hfree, Bool.false_eq_true, if_false, true_and]
  refine ⟨?_, fun other hpending => ?_, trivial⟩
  · simp only [permits]
    omega
  · cases hcancelled _ hpending

omit [DecidableEq ι] in
/-- One that has to wait goes to the end of the queue. -/
theorem acquire_locked (hlocked : sem.locked = true) (hattentive : sem.Attentive) :
    (sem.acquire who).1 = false ∧ (sem.acquire who).2.permits = sem.permits ∧
      (sem.acquire who).2.Attentive ∧
      (sem.acquire who).2.waiters = sem.waiters ++ [(who, .pending)] := by
  simp only [acquire, hlocked, if_true, true_and, and_true]
  refine ⟨?_, fun other hpending => ?_⟩
  · simp [permits]
  · have hbefore : sem.value = 0 ∨ ∃ next, (next, Status.woken) ∈ sem.waiters := by
      simp only [locked, Bool.or_eq_true, decide_eq_true_eq, List.any_eq_true] at hlocked
      rcases hlocked with hvalue | ⟨⟨next, status⟩, hmem, hstatus⟩
      · exact .inl hvalue
      · cases status with
        | pending => exact hattentive next hmem
        | woken => exact .inr ⟨next, hmem⟩
        | cancelled => exact absurd rfl hstatus
    exact hbefore.imp id fun ⟨next, hmem⟩ => ⟨next, List.mem_append_left _ hmem⟩

omit [DecidableEq ι] in
theorem release_permits (sem : Semaphore ι) : sem.release.permits = sem.permits + 1 := by
  rw [release, wakeNext_permits (Nat.succ_pos _)]
  simp only [permits]
  omega

omit [DecidableEq ι] in
theorem release_attentive (sem : Semaphore ι) : sem.release.Attentive := wakeNext_attentive _

omit [DecidableEq ι] in
theorem release_names (sem : Semaphore ι) :
    sem.release.waiters.map Prod.fst = sem.waiters.map Prod.fst := wakeNext_names _

omit [DecidableEq ι] in
theorem mem_release {other : ι} {status : Status} (hasleep : status ≠ .woken)
    (hmem : (other, status) ∈ sem.release.waiters) : (other, status) ∈ sem.waiters := by
  have hbefore := mem_wakeNext hasleep hmem
  exact hbefore

theorem mem_resume {other : ι} {status : Status} (hasleep : status ≠ .woken)
    (hmem : (other, status) ∈ (sem.resume who).waiters) : (other, status) ∈ sem.waiters := by
  unfold resume at hmem
  dsimp only at hmem
  split at hmem
  · exact List.mem_of_mem_erase (mem_wakeNext hasleep hmem)
  · exact List.mem_of_mem_erase hmem

theorem mem_withdraw {other : ι} {status : Status} (hasleep : status ≠ .woken)
    (hmem : (other, status) ∈ (sem.withdraw who).waiters) : (other, status) ∈ sem.waiters := by
  unfold withdraw at hmem
  split at hmem
  · exact List.mem_of_mem_erase (mem_release hasleep hmem)
  · exact List.mem_of_mem_erase hmem

theorem erase_countP (hwoken : (who, Status.woken) ∈ sem.waiters) :
    ((sem.waiters.erase (who, .woken)).countP fun waiter => waiter.2 = .woken) + 1 =
      sem.waiters.countP fun waiter => waiter.2 = .woken := by
  rw [(List.perm_cons_erase hwoken).countP_eq, List.countP_cons]
  simp

theorem erase_names {status : Status} (hmem : (who, status) ∈ sem.waiters) :
    (sem.waiters.map Prod.fst).Perm (who :: (sem.waiters.erase (who, status)).map Prod.fst) :=
  (List.perm_cons_erase hmem).map Prod.fst

/-- A woken waiter that runs holds one of the permits. -/
theorem resume_spec (hwoken : (who, Status.woken) ∈ sem.waiters) :
    (sem.resume who).permits + 1 = sem.permits ∧ (sem.resume who).Attentive ∧
      (sem.waiters.map Prod.fst).Perm (who :: (sem.resume who).waiters.map Prod.fst) := by
  have hcount := erase_countP hwoken
  have hnames := erase_names hwoken
  unfold resume
  dsimp only
  split
  next hfree =>
    refine ⟨?_, wakeNext_attentive _, ?_⟩
    · have hleft : 0 < (⟨sem.value, sem.waiters.erase (who, .woken)⟩ : Semaphore ι).value := hfree
      rw [wakeNext_permits hleft]
      simp only [permits]
      omega
    · rw [wakeNext_names]
      exact hnames
  next hnone =>
    refine ⟨?_, fun _ _ => .inl (Nat.eq_zero_of_not_pos hnone), hnames⟩
    simp only [permits]
    omega

/-- A cancelled waiter leaves the permits as they were. -/
theorem withdraw_spec (hattentive : sem.Attentive)
    (hwaits : (who, Status.woken) ∈ sem.waiters ∨ (who, Status.cancelled) ∈ sem.waiters) :
    (sem.withdraw who).permits = sem.permits ∧ (sem.withdraw who).Attentive ∧
      (sem.waiters.map Prod.fst).Perm (who :: (sem.withdraw who).waiters.map Prod.fst) := by
  unfold withdraw
  split
  next hwoken =>
    have hcount := erase_countP hwoken
    refine ⟨?_, release_attentive _, ?_⟩
    · rw [release_permits]
      simp only [permits]
      omega
    · rw [release_names]
      exact erase_names hwoken
  next hasleep =>
    have hcancelled := hwaits.resolve_left hasleep
    refine ⟨?_, fun other hpending => ?_, erase_names hcancelled⟩
    · simp only [permits]
      rw [(List.perm_cons_erase hcancelled).countP_eq, List.countP_cons]
      simp
    · refine (hattentive other (List.mem_of_mem_erase hpending)).imp id fun ⟨next, hnext⟩ => ?_
      have hother : (next, Status.woken) ≠ (who, .cancelled) := by simp
      exact ⟨next, (List.mem_erase_of_ne hother).mpr hnext⟩

omit [DecidableEq ι] in
theorem not_mem_cancelAll (sem : Semaphore ι) (who : ι) :
    (who, Status.pending) ∉ sem.cancelAll.waiters := by
  intro hpending
  obtain ⟨⟨other, status⟩, -, hsame⟩ := List.mem_map.mp hpending
  cases status <;> cases hsame

omit [DecidableEq ι] in
theorem cancelAll_spec (sem : Semaphore ι) : sem.cancelAll.permits = sem.permits ∧
    sem.cancelAll.Attentive ∧ sem.cancelAll.waiters.map Prod.fst = sem.waiters.map Prod.fst := by
  refine ⟨?_, fun who hpending => ?_, ?_⟩
  · simp only [permits, cancelAll, List.countP_map]
    congr 1
    refine List.countP_congr fun waiter _ => ?_
    obtain ⟨who, status⟩ := waiter
    cases status <;> simp
  · exact absurd hpending (sem.not_mem_cancelAll who)
  · simp only [cancelAll, List.map_map]
    refine List.map_congr_left fun waiter _ => ?_
    dsimp only [Function.comp]
    split <;> rfl

end

end Semaphore
