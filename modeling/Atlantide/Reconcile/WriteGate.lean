import Atlantide.Reconcile.StateWriter

/-! # What the write gate excludes

Those that hold the gate exclude each other whoever is interrupted. A call that runs is alone as
long as its caller waits for it: interrupted, the caller releases the gate under the call, and
others are let in beside it. -/

namespace Atlantide

namespace StateWriter

/-- Whether a write holds the gate. -/
def WritePhase.holds : WritePhase → Bool
  | .admitted | .queued | .running | .landed => true
  | _ => false

/-- Whether a write's turn for its key has come and not passed. -/
def WritePhase.active : WritePhase → Bool
  | .new | .lined | .ended => false
  | _ => true

/-- Whether a call holds the gate alone. -/
def CallPhase.owns : CallPhase → Bool
  | .holding | .queued true | .running true | .finished => true
  | _ => false

/-- Whether a call goes on without its caller. -/
def CallPhase.abandoned : CallPhase → Bool
  | .queued false | .running false => true
  | _ => false

def CallPhase.inProgress (phase : CallPhase) : Bool := phase.owns || phase.abandoned

section

variable {W C K : Type} [DecidableEq W] [DecidableEq C] [DecidableEq K]

/-- What the gate says of the writes and the calls, where no call but those interrupted was
abandoned. -/
structure Guarded (interrupted : Set C) (gate : ReadWriteGate) (writes : W → WritePhase)
    (calls : C → CallPhase) : Prop where
  shared : ∃ holders : Finset W, (∀ write, write ∈ holders ↔ (writes write).holds) ∧
    gate.shared = holders.card
  waiting : ∃ waiters : Finset C, (∀ call, call ∈ waiters ↔ calls call = .waiting) ∧
    gate.exclusiveWaiting = waiters.card
  owner : gate.exclusive = true ↔ ∃ call, (calls call).owns
  only : ∀ call other, (calls call).owns → (calls other).owns → call = other
  apart : gate.exclusive = true → gate.shared = 0
  known : ∀ call, (calls call).abandoned → call ∈ interrupted

namespace Guarded

variable {interrupted : Set C} {gate : ReadWriteGate} {writes : W → WritePhase}
  {calls : C → CallPhase}

omit [DecidableEq C] in
/-- A write goes on with what it holds. -/
theorem write_same (hguarded : Guarded interrupted gate writes calls) {write : W}
    {phase : WritePhase} (hsame : phase.holds = (writes write).holds) :
    Guarded interrupted gate (Function.update writes write phase) calls := by
  obtain ⟨holders, hholders, hshared⟩ := hguarded.shared
  refine { hguarded with shared := ⟨holders, fun other => ?_, hshared⟩ }
  rw [hholders]
  by_cases hother : other = write
  · rw [hother, Function.update_self, hsame]
  · rw [Function.update_of_ne hother]

omit [DecidableEq C] in
theorem acquireShared (hguarded : Guarded interrupted gate writes calls) {write : W}
    {phase : WritePhase} {after : ReadWriteGate} (hafter : gate.acquireShared = some after)
    (hbefore : (writes write).holds = false) (hholds : phase.holds) :
    Guarded interrupted after (Function.update writes write phase) calls := by
  rw [ReadWriteGate.acquireShared, Option.ite_none_left_eq_some] at hafter
  obtain ⟨hfree, hafter⟩ := hafter
  cases hafter
  obtain ⟨holders, hholders, hshared⟩ := hguarded.shared
  refine { hguarded with shared := ⟨insert write holders, fun other => ?_, ?_⟩, apart := ?_ }
  · rw [Finset.mem_insert, hholders]
    by_cases hother : other = write
    · rw [hother, Function.update_self]
      exact iff_of_true (.inl rfl) hholds
    · rw [Function.update_of_ne hother, or_iff_right hother]
  · rw [Finset.card_insert_of_notMem, hshared]
    rw [hholders, hbefore]
    exact Bool.false_ne_true
  · exact fun hexclusive => absurd (.inl hexclusive) hfree

omit [DecidableEq C] in
theorem releaseShared (hguarded : Guarded interrupted gate writes calls) {write : W}
    {phase : WritePhase} (hbefore : (writes write).holds) (hholds : phase.holds = false) :
    Guarded interrupted gate.releaseShared (Function.update writes write phase) calls := by
  obtain ⟨holders, hholders, hshared⟩ := hguarded.shared
  have hmem : write ∈ holders := (hholders write).mpr hbefore
  refine { hguarded with shared := ⟨holders.erase write, fun other => ?_, ?_⟩, apart := ?_ }
  · rw [Finset.mem_erase, hholders]
    by_cases hother : other = write
    · rw [hother, Function.update_self, hholds]
      exact iff_of_false (fun hboth => hboth.1 rfl) Bool.false_ne_true
    · rw [Function.update_of_ne hother, and_iff_right hother]
  · rw [Finset.card_erase_of_mem hmem, ReadWriteGate.releaseShared, hshared]
  · intro hexclusive
    rw [ReadWriteGate.releaseShared, hguarded.apart hexclusive]

omit [DecidableEq W] in
theorem known_update (hguarded : Guarded interrupted gate writes calls) {call : C}
    {phase : CallPhase} (hphase : phase.abandoned → call ∈ interrupted) (other : C)
    (habandoned : (Function.update calls call phase other).abandoned) : other ∈ interrupted := by
  by_cases hother : other = call
  · rw [hother, Function.update_self] at habandoned
    exact hother ▸ hphase habandoned
  · rw [Function.update_of_ne hother] at habandoned
    exact hguarded.known other habandoned

omit [DecidableEq W] in
/-- A call goes on with the hold it has. -/
theorem call_same (hguarded : Guarded interrupted gate writes calls) {call : C} {phase : CallPhase}
    (howns : phase.owns = (calls call).owns) (hknown : phase.abandoned → call ∈ interrupted)
    (hbefore : calls call ≠ .waiting) (hafter : phase ≠ .waiting) :
    Guarded interrupted gate writes (Function.update calls call phase) := by
  have hsame : ∀ other, (Function.update calls call phase other).owns = (calls other).owns := by
    intro other
    by_cases hother : other = call
    · rw [hother, Function.update_self, howns]
    · rw [Function.update_of_ne hother]
  obtain ⟨waiters, hwaiters, hwaiting⟩ := hguarded.waiting
  refine { hguarded with
    waiting := ⟨waiters, fun other => ?_, hwaiting⟩
    owner := ?_
    only := ?_
    known := hguarded.known_update hknown }
  · rw [hwaiters]
    by_cases hother : other = call
    · rw [hother, Function.update_self]
      exact iff_of_false hbefore hafter
    · rw [Function.update_of_ne hother]
  · simp only [hsame]
    exact hguarded.owner
  · simp only [hsame]
    exact hguarded.only

omit [DecidableEq W] in
theorem request (hguarded : Guarded interrupted gate writes calls) {call : C}
    (hnew : calls call = .new) :
    Guarded interrupted gate.request writes (Function.update calls call .waiting) := by
  have hsame : ∀ other,
      (Function.update calls call CallPhase.waiting other).owns = (calls other).owns := by
    intro other
    by_cases hother : other = call
    · rw [hother, Function.update_self, hnew]
      rfl
    · rw [Function.update_of_ne hother]
  obtain ⟨waiters, hwaiters, hwaiting⟩ := hguarded.waiting
  refine { hguarded with
    waiting := ⟨insert call waiters, fun other => ?_, ?_⟩
    owner := ?_
    only := ?_
    known := hguarded.known_update fun habandoned => by cases habandoned }
  · rw [Finset.mem_insert, hwaiters]
    by_cases hother : other = call
    · rw [hother, Function.update_self]
      exact iff_of_true (.inl rfl) rfl
    · rw [Function.update_of_ne hother, or_iff_right hother]
  · rw [Finset.card_insert_of_notMem, ReadWriteGate.request, hwaiting]
    rw [hwaiters, hnew]
    exact CallPhase.noConfusion
  · simp only [hsame]
    exact hguarded.owner
  · simp only [hsame]
    exact hguarded.only

omit [DecidableEq W] in
/-- The waiters without one of them. -/
theorem waiting_erase (hguarded : Guarded interrupted gate writes calls) {call : C}
    {phase : CallPhase} (hwaiting : calls call = .waiting) (hphase : phase ≠ .waiting) :
    ∃ waiters : Finset C,
      (∀ other, other ∈ waiters ↔ Function.update calls call phase other = .waiting) ∧
        gate.exclusiveWaiting - 1 = waiters.card := by
  obtain ⟨waiters, hwaiters, hcount⟩ := hguarded.waiting
  refine ⟨waiters.erase call, fun other => ?_, ?_⟩
  · rw [Finset.mem_erase, hwaiters]
    by_cases hother : other = call
    · rw [hother, Function.update_self]
      exact iff_of_false (fun hboth => hboth.1 rfl) hphase
    · rw [Function.update_of_ne hother, and_iff_right hother]
  · rw [Finset.card_erase_of_mem ((hwaiters call).mpr hwaiting), hcount]

omit [DecidableEq W] in
theorem acquireExclusive (hguarded : Guarded interrupted gate writes calls) {call : C}
    {after : ReadWriteGate} (hwaiting : calls call = .waiting)
    (hafter : gate.acquireExclusive = some after) :
    Guarded interrupted after writes (Function.update calls call .holding) := by
  rw [ReadWriteGate.acquireExclusive, Option.ite_none_left_eq_some, not_or, not_not,
    Bool.not_eq_true] at hafter
  obtain ⟨⟨hfree, hdrained⟩, hafter⟩ := hafter
  cases hafter
  have hnone : ∀ other, (calls other).owns = false := by
    intro other
    by_contra howns
    rw [Bool.not_eq_false] at howns
    rw [hguarded.owner.mpr ⟨other, howns⟩] at hfree
    cases hfree
  have honly : ∀ other, (Function.update calls call CallPhase.holding other).owns →
      other = call := by
    intro other howns
    by_contra hother
    rw [Function.update_of_ne hother, hnone] at howns
    cases howns
  refine ⟨hguarded.shared, hguarded.waiting_erase hwaiting CallPhase.noConfusion, ?_, ?_,
    fun _ => hdrained, hguarded.known_update fun habandoned => by cases habandoned⟩
  · refine iff_of_true rfl ⟨call, ?_⟩
    rw [Function.update_self]
    rfl
  · exact fun first second hfirst hsecond =>
      (honly first hfirst).trans (honly second hsecond).symm

omit [DecidableEq W] in
theorem withdraw (hguarded : Guarded interrupted gate writes calls) {call : C}
    (hwaiting : calls call = .waiting) :
    Guarded interrupted gate.withdraw writes (Function.update calls call .ended) := by
  have hsame : ∀ other,
      (Function.update calls call CallPhase.ended other).owns = (calls other).owns := by
    intro other
    by_cases hother : other = call
    · rw [hother, Function.update_self, hwaiting]
      rfl
    · rw [Function.update_of_ne hother]
  refine ⟨hguarded.shared, hguarded.waiting_erase hwaiting CallPhase.noConfusion, ?_, ?_,
    hguarded.apart, hguarded.known_update fun habandoned => by cases habandoned⟩
  · simp only [hsame]
    exact hguarded.owner
  · simp only [hsame]
    exact hguarded.only

omit [DecidableEq W] in
/-- A call gives the gate back; interrupted, it may go on. -/
theorem releaseExclusive (hguarded : Guarded interrupted gate writes calls) {call : C}
    {phase : CallPhase} (howns : (calls call).owns) (hphase : phase.owns = false)
    (hwaiting : phase ≠ .waiting) (hknown : phase.abandoned → call ∈ interrupted) :
    Guarded interrupted gate.releaseExclusive writes (Function.update calls call phase) := by
  have hnone : ∀ other, (Function.update calls call phase other).owns = false := by
    intro other
    by_cases hother : other = call
    · rw [hother, Function.update_self, hphase]
    · rw [Function.update_of_ne hother]
      by_contra hheld
      exact hother (hguarded.only other call (Bool.not_eq_false _ ▸ hheld) howns)
  obtain ⟨waiters, hwaiters, hcount⟩ := hguarded.waiting
  refine ⟨hguarded.shared, ⟨waiters, fun other => ?_, hcount⟩, ?_, ?_, fun hexclusive => ?_,
    hguarded.known_update hknown⟩
  · rw [hwaiters]
    by_cases hother : other = call
    · rw [hother, Function.update_self]
      refine iff_of_false (fun hwaits => ?_) hwaiting
      rw [hwaits] at howns
      cases howns
    · rw [Function.update_of_ne hother]
  · refine iff_of_false Bool.false_ne_true ?_
    rintro ⟨other, hheld⟩
    rw [hnone] at hheld
    cases hheld
  · intro first second hfirst
    rw [hnone] at hfirst
    cases hfirst
  · cases hexclusive

end Guarded

/-- What the lines say of the writes that asked for a key. -/
structure Lined (key : W → Option K) (lines : K → List W) (submitted : List W)
    (writes : W → WritePhase) : Prop where
  once : submitted.Nodup
  listed : ∀ write, write ∈ submitted ↔ writes write ≠ .new
  line_eq : ∀ name, lines name =
    submitted.filter fun write => decide (key write = some name ∧ writes write ≠ .ended)
  first : ∀ write name, key write = some name → (writes write).active →
    (lines name).head? = some write

namespace Lined

variable {key : W → Option K} {lines : K → List W} {submitted : List W} {writes : W → WritePhase}
  {write : W} {phase : WritePhase}

/-- A write goes on once it is first in its line. -/
theorem proceed (hlined : Lined key lines submitted writes) (hnew : writes write ≠ .new)
    (hended : writes write ≠ .ended) (hphase : phase ≠ .new) (hphaseEnded : phase ≠ .ended)
    (hfirst : ∀ name, key write = some name → (lines name).head? = some write) :
    Lined key lines submitted (Function.update writes write phase) := by
  refine ⟨hlined.once, fun other => ?_, fun name => ?_, fun other name hkey hactive => ?_⟩
  · rw [hlined.listed]
    by_cases hother : other = write
    · rw [hother, Function.update_self]
      exact iff_of_true hnew hphase
    · rw [Function.update_of_ne hother]
  · rw [hlined.line_eq name]
    congr 1
    funext other
    by_cases hother : other = write
    · rw [hother, Function.update_self]
      simp only [ne_eq, hended, hphaseEnded]
    · rw [Function.update_of_ne hother]
  · by_cases hother : other = write
    · subst hother
      exact hfirst name hkey
    · rw [Function.update_of_ne hother] at hactive
      exact hlined.first other name hkey hactive

theorem proceed_active (hlined : Lined key lines submitted writes)
    (hactive : (writes write).active) (hphase : phase.active) :
    Lined key lines submitted (Function.update writes write phase) := by
  have hne : ∀ {phase : WritePhase}, phase.active → phase ≠ .new ∧ phase ≠ .ended := by
    intro phase hphase
    constructor <;> rintro rfl <;> cases hphase
  exact hlined.proceed (hne hactive).1 (hne hactive).2 (hne hphase).1 (hne hphase).2
    fun name hkey => hlined.first write name hkey hactive

/-- A write is submitted: it takes its place at the end of its line. -/
theorem submit (hlined : Lined key lines submitted writes) (hnew : writes write = .new)
    (hphase : phase ≠ .new) (hphaseEnded : phase ≠ .ended)
    (hactive : phase.active → ∀ name, key write = some name → lines name = [])
    {after : K → List W} (hafter : ∀ name, after name =
      if key write = some name then lines name ++ [write] else lines name) :
    Lined key after (submitted ++ [write]) (Function.update writes write phase) := by
  have hout : write ∉ submitted := by
    rw [hlined.listed, hnew]
    exact fun hne => hne rfl
  refine ⟨?_, fun other => ?_, fun name => ?_, fun other name hkey hotherActive => ?_⟩
  · rw [← List.concat_eq_append]
    exact List.Nodup.concat hout hlined.once
  · rw [List.mem_append, List.mem_singleton, hlined.listed]
    by_cases hother : other = write
    · rw [hother, Function.update_self]
      exact iff_of_true (.inr rfl) hphase
    · rw [Function.update_of_ne hother, or_iff_left hother]
  · have hold : submitted.filter (fun other => decide (key other = some name ∧
        Function.update writes write phase other ≠ .ended)) = lines name := by
      rw [hlined.line_eq name]
      apply List.filter_congr
      intro other hother
      have hne : other ≠ write := fun hsame => hout (hsame ▸ hother)
      rw [Function.update_of_ne hne]
    rw [List.filter_append, hold, hafter name, List.filter_singleton, Function.update_self]
    by_cases hkey : key write = some name
    · simp [hkey, hphaseEnded]
    · simp [hkey]
  · rw [hafter name]
    by_cases hother : other = write
    · subst hother
      rw [Function.update_self] at hotherActive
      rw [if_pos hkey, hactive hotherActive name hkey]
      rfl
    · rw [Function.update_of_ne hother] at hotherActive
      have hhead := hlined.first other name hkey hotherActive
      split
      · rw [List.head?_append, hhead]
        rfl
      · exact hhead

/-- A write ends: it leaves its line. -/
theorem leave (hlined : Lined key lines submitted writes) (hnew : writes write ≠ .new)
    {after : K → List W} (hafter : ∀ name, after name =
      if key write = some name then (lines name).erase write else lines name) :
    Lined key after submitted (Function.update writes write .ended) := by
  have herase : ∀ name, after name = (lines name).filter fun other => other != write := by
    intro name
    have hnodup : (lines name).Nodup := hlined.line_eq name ▸ hlined.once.filter _
    rw [hafter name]
    split
    next =>
      exact hnodup.erase_eq_filter write
    next hkey =>
      refine (List.filter_eq_self.mpr fun other hother => ?_).symm
      rw [hlined.line_eq name, List.mem_filter, decide_eq_true_iff] at hother
      apply bne_iff_ne.mpr
      rintro rfl
      exact hkey hother.2.1
  refine ⟨hlined.once, fun other => ?_, fun name => ?_, fun other name hkey hactive => ?_⟩
  · rw [hlined.listed]
    by_cases hother : other = write
    · rw [hother, Function.update_self]
      exact iff_of_true hnew WritePhase.noConfusion
    · rw [Function.update_of_ne hother]
  · rw [herase name, hlined.line_eq name, List.filter_filter]
    congr 1
    funext other
    by_cases hother : other = write
    · simp [hother]
    · simp [hother]
  · have hother : other ≠ write := by
      rintro rfl
      rw [Function.update_self] at hactive
      cases hactive
    rw [Function.update_of_ne hother] at hactive
    have hhead := hlined.first other name hkey hactive
    rw [herase name]
    cases hline : lines name with
    | nil =>
      rw [hline] at hhead
      cases hhead
    | cons first rest =>
      rw [hline, List.head?_cons] at hhead
      cases hhead
      have hkeep : (other != write) = true := bne_iff_ne.mpr hother
      rw [List.filter_cons, if_pos hkeep, List.head?_cons]

end Lined

/-- Whether the newest renewal of a log, newest event first, is not settled. -/
def renewing : List (Event W C) → Bool
  | [] => false
  | .admitted _ :: log => renewing log
  | .renewing _ :: _ => true
  | .settled :: _ => false

/-- No write was admitted between a renewal and the rebind after it. -/
def Quiet (log : List (Event W C)) : Prop :=
  ∀ later write earlier, log = later ++ .admitted write :: earlier → renewing earlier = false

/-- Whether the loop's thread is kept by its calls. -/
def Loop.calls : Loop W C → Bool
  | .calling _ _ | .rebinding _ => true
  | _ => false

/-- What the log and the loop say of each other. -/
structure Windowed (log : List (Event W C)) (loop : Loop W C) : Prop where
  quiet : Quiet log
  kept : renewing log = true → loop.calls = true

namespace Windowed

variable {log : List (Event W C)} {loop after : Loop W C}

omit [DecidableEq W] [DecidableEq C] in
theorem settled_of (hwindowed : Windowed log loop) (hloop : loop.calls = false) :
    renewing log = false := by
  by_contra hopen
  rw [hwindowed.kept (Bool.not_eq_false _ ▸ hopen)] at hloop
  cases hloop

omit [DecidableEq W] [DecidableEq C] in
/-- The loop's thread goes on from where no call keeps it. -/
theorem move (hwindowed : Windowed log loop) (hloop : loop.calls = false) :
    Windowed log after where
  quiet := hwindowed.quiet
  kept hopen := by
    rw [hwindowed.settled_of hloop] at hopen
    cases hopen

omit [DecidableEq W] [DecidableEq C] in
/-- An event that admits nothing leaves a log quiet. -/
theorem quiet_cons (hquiet : Quiet log) {event : Event W C}
    (hevent : ∀ write, event = .admitted write → renewing log = false) : Quiet (event :: log) := by
  intro later write earlier hsplit
  cases later with
  | nil =>
    obtain ⟨rfl, rfl⟩ := List.cons.inj hsplit
    exact hevent write rfl
  | cons first later =>
    obtain ⟨_, hsplit⟩ := List.cons.inj hsplit
    exact hquiet later write earlier hsplit

omit [DecidableEq W] [DecidableEq C] in
theorem enter (hwindowed : Windowed log loop) (hloop : loop.calls = false) (write : W) :
    Windowed (.admitted write :: log) after where
  quiet := quiet_cons hwindowed.quiet fun _ _ => hwindowed.settled_of hloop
  kept hopen := by
    rw [renewing, hwindowed.settled_of hloop] at hopen
    cases hopen

omit [DecidableEq W] [DecidableEq C] in
theorem renew (hwindowed : Windowed log loop) (call : C) (hafter : after.calls = true) :
    Windowed (.renewing call :: log) after where
  quiet := quiet_cons hwindowed.quiet fun _ hevent => nomatch hevent
  kept _ := hafter

omit [DecidableEq W] [DecidableEq C] in
theorem settle (hwindowed : Windowed log loop) : Windowed (.settled :: log) after where
  quiet := quiet_cons hwindowed.quiet fun _ hevent => nomatch hevent
  kept hopen := nomatch hopen

end Windowed

/-- What holds in every state, where no call but those interrupted was abandoned. -/
structure Sound (key : W → Option K) (interrupted : Set C) (state : State W C K) : Prop where
  guarded : Guarded interrupted state.gate state.writes state.calls
  lined : Lined key state.lines state.submitted state.writes
  windowed : Windowed state.log state.loop

namespace Sound

variable {key : W → Option K} {interrupted : Set C} {state : State W C K}

omit [DecidableEq W] in
theorem afterCall (hsound : Sound key interrupted state) (call : C) (succeeds : Bool) :
    Sound key interrupted (state.afterCall call succeeds) := by
  unfold State.afterCall
  split
  next made next hloop =>
    split
    · split
      · exact ⟨hsound.guarded, hsound.lined, hsound.windowed.quiet, fun _ => rfl⟩
      · exact ⟨hsound.guarded, hsound.lined, hsound.windowed.settle⟩
    · exact hsound
  next => exact hsound

omit [DecidableEq W] in
theorem released (hsound : Sound key interrupted state) {call : C} {phase : CallPhase}
    (howns : (state.calls call).owns) (hphase : phase.owns = false) (hwaiting : phase ≠ .waiting)
    (hknown : phase.abandoned → call ∈ interrupted) :
    Sound key interrupted { state.setCall call phase with gate := state.gate.releaseExclusive } :=
  ⟨hsound.guarded.releaseExclusive howns hphase hwaiting hknown, hsound.lined, hsound.windowed⟩

omit [DecidableEq W] in
theorem concluded (hsound : Sound key interrupted state) {call : C}
    (howns : (state.calls call).owns) :
    Sound key interrupted { state.setCall call .ended with gate := state.gate.releaseExclusive } :=
  hsound.released howns rfl CallPhase.noConfusion fun habandoned => by cases habandoned

omit [DecidableEq C] in
/-- A write that ends leaves its line. -/
theorem lined_leave (hsound : Sound key interrupted state) {write : W}
    (hnew : state.writes write ≠ .new) :
    Lined key (state.leave key write).lines state.submitted
      (Function.update state.writes write .ended) := by
  refine hsound.lined.leave hnew fun name => ?_
  unfold State.leave
  cases hkey : key write with
  | none => rw [if_neg fun hsome => by cases hsome]
  | some own =>
    by_cases hname : own = name
    · subst hname
      rw [if_pos rfl]
      exact Function.update_self ..
    · rw [if_neg fun hsome => hname (Option.some.inj hsome)]
      exact Function.update_of_ne (Ne.symm hname) ..

theorem submit {workers : Nat} (hsound : Sound key interrupted state) {write : W}
    {after : State W C K}
    (hafter : StateWriter.step workers key state (.submit write) = some after) :
    Sound key interrupted after := by
  obtain ⟨hguarded, hlined, hwindowed⟩ := hsound
  rw [StateWriter.step, Option.ite_none_right_eq_some] at hafter
  obtain ⟨⟨hloop, hnew⟩, hafter⟩ := hafter
  have hidle : state.loop.calls = false := hloop ▸ rfl
  have hheld : ∀ {phase : WritePhase}, phase.holds = false →
      phase.holds = (state.writes write).holds := fun hphase => by
    rw [hnew, hphase]
    rfl
  cases hkey : key write with
  | none =>
    simp only [hkey] at hafter
    cases hafter
    refine ⟨hguarded.write_same (hheld rfl), ?_, hwindowed.move hidle⟩
    refine hlined.submit hnew WritePhase.noConfusion WritePhase.noConfusion
      (fun _ name hsome => ?_) fun name => ?_
    · rw [hkey] at hsome
      cases hsome
    · rw [hkey, if_neg fun hsome => by cases hsome]
      rfl
  | some own =>
    have hlines : ∀ name, Function.update state.lines own (state.lines own ++ [write]) name =
        if key write = some name then state.lines name ++ [write] else state.lines name := by
      intro name
      by_cases hname : own = name
      · subst hname
        rw [hkey, if_pos rfl, Function.update_self]
      · rw [hkey, if_neg fun hsome => hname (Option.some.inj hsome),
          Function.update_of_ne (Ne.symm hname)]
    simp only [hkey] at hafter
    split at hafter
    next hempty =>
      cases hafter
      refine ⟨hguarded.write_same (hheld rfl), ?_, hwindowed.move hidle⟩
      refine hlined.submit hnew WritePhase.noConfusion WritePhase.noConfusion
        (fun _ name hsome => ?_) hlines
      rw [hkey] at hsome
      cases hsome
      exact hempty
    next =>
      cases hafter
      refine ⟨hguarded.write_same (hheld rfl), ?_, hwindowed⟩
      refine hlined.submit hnew WritePhase.noConfusion WritePhase.noConfusion
        (fun hactive => ?_) hlines
      cases hactive

/-- **A step keeps all of it.** -/
theorem step {workers : Nat} (hsound : Sound key interrupted state) {action : Action W C}
    {after : State W C K} (hknown : ∀ call, action = .interrupt call → call ∈ interrupted)
    (hafter : StateWriter.step workers key state action = some after) :
    Sound key interrupted after := by
  have ⟨hguarded, hlined, hwindowed⟩ := hsound
  cases action with
  | submit write => exact hsound.submit hafter
  | advance write =>
    rw [StateWriter.step, Option.ite_none_right_eq_some] at hafter
    obtain ⟨⟨hloop, hphase, hhead⟩, hafter⟩ := hafter
    cases hafter
    refine ⟨hguarded.write_same (hphase ▸ rfl), ?_, hwindowed.move (hloop ▸ rfl)⟩
    refine hlined.proceed (hphase ▸ WritePhase.noConfusion) (hphase ▸ WritePhase.noConfusion)
      WritePhase.noConfusion WritePhase.noConfusion fun name hkey => ?_
    rw [hkey, Option.any_some, decide_eq_true_iff] at hhead
    exact hhead
  | enter write =>
    rw [StateWriter.step, Option.ite_none_right_eq_some] at hafter
    obtain ⟨⟨hloop, hphase⟩, hafter⟩ := hafter
    obtain ⟨gate, hgate, hafter⟩ := Option.map_eq_some_iff.mp hafter
    cases hafter
    exact ⟨hguarded.acquireShared hgate (hphase ▸ rfl) rfl,
      hlined.proceed_active (hphase ▸ rfl) rfl, hwindowed.enter (hloop ▸ rfl) write⟩
  | interruptAdmission write =>
    rw [StateWriter.step, Option.ite_none_right_eq_some] at hafter
    obtain ⟨⟨hloop, hphase⟩, hafter⟩ := hafter
    cases hafter
    exact ⟨hguarded.write_same (hphase ▸ rfl), hsound.lined_leave (hphase ▸ WritePhase.noConfusion),
      hwindowed.move (hloop ▸ rfl)⟩
  | enqueue write =>
    rw [StateWriter.step, Option.ite_none_right_eq_some] at hafter
    obtain ⟨⟨hloop, hphase⟩, hafter⟩ := hafter
    cases hafter
    exact ⟨hguarded.write_same (hphase ▸ rfl), hlined.proceed_active (hphase ▸ rfl) rfl,
      hwindowed.move (hloop ▸ rfl)⟩
  | refuse write =>
    rw [StateWriter.step, Option.ite_none_right_eq_some] at hafter
    obtain ⟨⟨hloop, hphase⟩, hafter⟩ := hafter
    cases hafter
    exact ⟨hguarded.releaseShared (hphase ▸ rfl) rfl,
      hsound.lined_leave (hphase ▸ WritePhase.noConfusion), hwindowed.move (hloop ▸ rfl)⟩
  | withdraw write =>
    rw [StateWriter.step, Option.ite_none_right_eq_some] at hafter
    obtain ⟨⟨hloop, hphase⟩, hafter⟩ := hafter
    cases hafter
    exact ⟨hguarded.write_same (hphase ▸ rfl), hsound.lined_leave (hphase ▸ WritePhase.noConfusion),
      hwindowed⟩
  | cancel write =>
    rw [StateWriter.step, Option.ite_none_right_eq_some] at hafter
    obtain ⟨_, hafter⟩ := hafter
    cases hafter
    exact hsound
  | finish write =>
    rw [StateWriter.step, Option.ite_none_right_eq_some] at hafter
    obtain ⟨⟨hloop, hphase⟩, hafter⟩ := hafter
    cases hafter
    exact ⟨hguarded.write_same (hphase ▸ rfl), hsound.lined_leave (hphase ▸ WritePhase.noConfusion),
      hwindowed⟩
  | start =>
    rw [StateWriter.step, Option.ite_none_right_eq_some] at hafter
    obtain ⟨_, hafter⟩ := hafter
    split at hafter
    next write queue hqueue =>
      rw [Option.ite_none_right_eq_some] at hafter
      obtain ⟨hphase, hafter⟩ := hafter
      cases hafter
      exact ⟨hguarded.write_same (hphase ▸ rfl), hlined.proceed_active (hphase ▸ rfl) rfl,
        hwindowed⟩
    next call queue hqueue =>
      split at hafter
      next attended hphase =>
        cases hafter
        have hrunning := hguarded.known call
        rw [hphase] at hrunning
        refine ⟨?_, hlined, hwindowed⟩
        cases attended with
        | false =>
          exact hguarded.call_same (hphase ▸ rfl) hrunning (hphase ▸ CallPhase.noConfusion)
            CallPhase.noConfusion
        | true =>
          exact hguarded.call_same (hphase ▸ rfl) hrunning (hphase ▸ CallPhase.noConfusion)
            CallPhase.noConfusion
      next => cases hafter
    next => cases hafter
  | land write =>
    rw [StateWriter.step, Option.ite_none_right_eq_some] at hafter
    obtain ⟨hphase, hafter⟩ := hafter
    cases hafter
    exact ⟨hguarded.write_same (hphase ▸ rfl), hlined.proceed_active (hphase ▸ rfl) rfl, hwindowed⟩
  | release write =>
    rw [StateWriter.step, Option.ite_none_right_eq_some] at hafter
    obtain ⟨hphase, hafter⟩ := hafter
    cases hafter
    exact ⟨hguarded.releaseShared (hphase ▸ rfl) rfl, hlined.proceed_active (hphase ▸ rfl) rfl,
      hwindowed⟩
  | request call =>
    rw [StateWriter.step, Option.ite_none_right_eq_some] at hafter
    obtain ⟨hphase, hafter⟩ := hafter
    cases hafter
    exact ⟨hguarded.request hphase, hlined, hwindowed⟩
  | requestOnLoop call next =>
    rw [StateWriter.step, Option.ite_none_right_eq_some] at hafter
    obtain ⟨⟨hloop, hphase⟩, hafter⟩ := hafter
    cases hafter
    refine ⟨hguarded.request hphase, hlined, ?_⟩
    cases next with
    | none => exact hwindowed.move (hloop ▸ rfl)
    | some next => exact hwindowed.renew call rfl
  | rebind call =>
    rw [StateWriter.step, Option.ite_none_right_eq_some] at hafter
    obtain ⟨⟨hloop, hphase⟩, hafter⟩ := hafter
    cases hafter
    exact ⟨hguarded.request hphase, hlined, hwindowed.quiet, fun _ => rfl⟩
  | grant call =>
    rw [StateWriter.step, Option.ite_none_right_eq_some] at hafter
    obtain ⟨hphase, hafter⟩ := hafter
    obtain ⟨gate, hgate, hafter⟩ := Option.map_eq_some_iff.mp hafter
    cases hafter
    exact ⟨hguarded.acquireExclusive hphase hgate, hlined, hwindowed⟩
  | interruptWait call =>
    rw [StateWriter.step, Option.ite_none_right_eq_some] at hafter
    obtain ⟨hphase, hafter⟩ := hafter
    cases hafter
    have hended : Sound key interrupted
        { state.setCall call .ended with gate := state.gate.withdraw } :=
      ⟨hguarded.withdraw hphase, hlined, hwindowed⟩
    exact hended.afterCall call false
  | dispatch call =>
    rw [StateWriter.step, Option.ite_none_right_eq_some] at hafter
    obtain ⟨hphase, hafter⟩ := hafter
    cases hafter
    exact ⟨hguarded.call_same (hphase ▸ rfl) (fun habandoned => by cases habandoned)
      (hphase ▸ CallPhase.noConfusion) CallPhase.noConfusion, hlined, hwindowed⟩
  | refuseCall call =>
    rw [StateWriter.step, Option.ite_none_right_eq_some] at hafter
    obtain ⟨hphase, hafter⟩ := hafter
    cases hafter
    exact (hsound.concluded (hphase ▸ rfl)).afterCall call false
  | complete call =>
    rw [StateWriter.step] at hafter
    split at hafter
    next attended hphase =>
      cases hafter
      refine ⟨?_, hlined, hwindowed⟩
      cases attended with
      | false =>
        exact hguarded.call_same (hphase ▸ rfl) (fun habandoned => by cases habandoned)
          (hphase ▸ CallPhase.noConfusion) CallPhase.noConfusion
      | true =>
        exact hguarded.call_same (hphase ▸ rfl) (fun habandoned => by cases habandoned)
          (hphase ▸ CallPhase.noConfusion) CallPhase.noConfusion
    next => cases hafter
  | conclude call succeeds =>
    rw [StateWriter.step, Option.ite_none_right_eq_some] at hafter
    obtain ⟨hphase, hafter⟩ := hafter
    cases hafter
    exact (hsound.concluded (hphase ▸ rfl)).afterCall call succeeds
  | interrupt call =>
    rw [StateWriter.step] at hafter
    have hhere := hknown call rfl
    split at hafter
    next hphase =>
      cases hafter
      exact (hsound.released (hphase ▸ rfl) rfl CallPhase.noConfusion fun _ => hhere).afterCall
        call false
    next hphase =>
      cases hafter
      exact (hsound.released (hphase ▸ rfl) rfl CallPhase.noConfusion fun _ => hhere).afterCall
        call false
    next => cases hafter

omit [DecidableEq W] [DecidableEq C] in
theorem initial (key : W → Option K) (interrupted : Set C) :
    Sound key interrupted ({} : State W C K) where
  guarded :=
    { shared := ⟨∅, fun _ => iff_of_false (Finset.notMem_empty _) Bool.false_ne_true, rfl⟩
      waiting := ⟨∅, fun _ => iff_of_false (Finset.notMem_empty _) CallPhase.noConfusion, rfl⟩
      owner := iff_of_false Bool.false_ne_true fun ⟨_, howns⟩ => by cases howns
      only := fun _ _ howns => by cases howns
      apart := fun hexclusive => by cases hexclusive
      known := fun _ habandoned => by cases habandoned }
  lined :=
    { once := List.nodup_nil
      listed := fun _ => iff_of_false List.not_mem_nil fun hne => hne rfl
      line_eq := fun _ => rfl
      first := fun _ _ _ hactive => by cases hactive }
  windowed :=
    { quiet := fun later write earlier hsplit => by
        have hlength := congrArg List.length hsplit
        rw [List.length_append, List.length_cons, List.length_nil] at hlength
        omega
      kept := fun hopen => by cases hopen }

/-- What holds in a state holds after a run. -/
theorem run {workers : Nat} {actions : List (Action W C)} {after : State W C K}
    (hsound : Sound key interrupted state)
    (hknown : ∀ call, .interrupt call ∈ actions → call ∈ interrupted)
    (hrun : StateWriter.run workers key actions state = some after) :
    Sound key interrupted after := by
  induction actions generalizing state with
  | nil =>
    cases hrun
    exact hsound
  | cons action actions ih =>
    rw [StateWriter.run, Option.bind_eq_some_iff] at hrun
    obtain ⟨next, hnext, hrest⟩ := hrun
    have hhere : ∀ call, action = .interrupt call → call ∈ interrupted := by
      rintro call rfl
      exact hknown call List.mem_cons_self
    have hlater : ∀ call, .interrupt call ∈ actions → call ∈ interrupted :=
      fun call hmem => hknown call (List.mem_cons_of_mem _ hmem)
    exact ih (hsound.step hhere hnext) hlater hrest

omit [DecidableEq W] [DecidableEq C] in
/-- While a call holds the gate no write does. -/
theorem holds_of_owns (hsound : Sound key interrupted state) {call : C}
    (howns : (state.calls call).owns) (write : W) : (state.writes write).holds = false := by
  obtain ⟨holders, hholders, hcount⟩ := hsound.guarded.shared
  have hshared := hsound.guarded.apart (hsound.guarded.owner.mpr ⟨call, howns⟩)
  rw [hshared, eq_comm, Finset.card_eq_zero] at hcount
  by_contra hholds
  rw [Bool.not_eq_false] at hholds
  have hmem := (hholders write).mpr hholds
  rw [hcount] at hmem
  exact Finset.notMem_empty _ hmem

omit [DecidableEq W] [DecidableEq C] in
/-- Of two writes with one key, the later has its turn only once the earlier has ended. -/
theorem ended_of_active (hsound : Sound key interrupted state) {earlier later : W} {name : K}
    (hearlier : key earlier = some name) (hlater : key later = some name)
    (horder : [earlier, later].Sublist state.submitted)
    (hactive : (state.writes later).active) : state.writes earlier = .ended := by
  by_contra hended
  have hlaterEnded : state.writes later ≠ .ended := by
    intro hphase
    rw [hphase] at hactive
    cases hactive
  have hline := horder.filter fun write =>
    decide (key write = some name ∧ state.writes write ≠ .ended)
  rw [← hsound.lined.line_eq name, List.filter_cons_of_pos, List.filter_cons_of_pos,
    List.filter_nil] at hline
  · have hhead := hsound.lined.first later name hlater hactive
    obtain ⟨rest, hrest⟩ := List.head?_eq_some_iff.mp hhead
    rw [hrest] at hline
    have hnodup : (later :: rest).Nodup := by
      rw [← hrest, hsound.lined.line_eq name]
      exact hsound.lined.once.filter _
    have hdistinct := List.nodup_cons.mp (horder.nodup hsound.lined.once)
    have hne : earlier ≠ later := fun hsame => hdistinct.1 (hsame ▸ List.mem_singleton_self _)
    -- The earlier write is not the head, so both stand in the rest.
    have hboth := hline.of_cons_of_ne hne
    exact (List.nodup_cons.mp hnodup).1 (hboth.subset (List.mem_cons_of_mem _ List.mem_cons_self))
  · exact decide_eq_true ⟨hlater, hlaterEnded⟩
  · exact decide_eq_true ⟨hearlier, hended⟩

end Sound

/-- What the gate, the lines and the window keep whatever is interrupted. -/
structure Orders (workers : Nat) (key : W → Option K) (state : State W C K) : Prop where
  /-- A call that holds the gate is alone among the writes and the calls that hold it. -/
  gated : ∀ call, (state.calls call).owns → (∀ write, (state.writes write).holds = false) ∧
    ∀ other, (state.calls other).owns → other = call
  /-- No write is admitted while a call waits. -/
  barred : ∀ write, (step workers key state (.enter write)).isSome →
    ∀ call, state.calls call ≠ .waiting
  /-- A write with a key has its turn once those submitted before it with the key have ended. -/
  ordered : ∀ earlier later name, key earlier = some name → key later = some name →
    [earlier, later].Sublist state.submitted → (state.writes later).active →
      state.writes earlier = .ended
  /-- Two writes with one key do not have their turn together. -/
  apart : ∀ write other name, key write = some name → key other = some name →
    (state.writes write).active → (state.writes other).active → write = other
  /-- The shared count is zero once no write holds the gate. -/
  drained : (∀ write, (state.writes write).holds = false) → state.gate.shared = 0
  /-- No write is admitted between a renewal and the rebind after it. -/
  window : Quiet state.log

/-- The write gate excludes. -/
structure Excludes (workers : Nat) (key : W → Option K) (state : State W C K) : Prop extends
    Orders workers key state where
  /-- A call in progress, with its caller or without, is alone. -/
  alone : ∀ call, (state.calls call).inProgress →
    (∀ write, (state.writes write).holds = false) ∧
      ∀ other, (state.calls other).inProgress → other = call

theorem Sound.orders {key : W → Option K} {interrupted : Set C} {state : State W C K}
    (hsound : Sound key interrupted state) (workers : Nat) : Orders workers key state where
  gated call howns := by
    constructor
    · exact hsound.holds_of_owns howns
    · exact fun other hother => hsound.guarded.only other call hother howns
  barred write henter call hwaiting := by
    obtain ⟨waiters, hwaiters, hcount⟩ := hsound.guarded.waiting
    have hpos : 0 < waiters.card := Finset.card_pos.mpr ⟨call, (hwaiters call).mpr hwaiting⟩
    obtain ⟨after, hafter⟩ := Option.isSome_iff_exists.mp henter
    rw [StateWriter.step, Option.ite_none_right_eq_some] at hafter
    obtain ⟨gate, hgate, _⟩ := Option.map_eq_some_iff.mp hafter.2
    rw [ReadWriteGate.acquireShared, Option.ite_none_left_eq_some] at hgate
    apply hgate.1
    right
    omega
  ordered _ _ _ hearlier hlater horder hactive :=
    hsound.ended_of_active hearlier hlater horder hactive
  apart write other name hkey hother hactive hotherActive := by
    have hfirst := hsound.lined.first write name hkey hactive
    rw [hsound.lined.first other name hother hotherActive] at hfirst
    exact (Option.some.inj hfirst).symm
  drained hnone := by
    obtain ⟨holders, hholders, hcount⟩ := hsound.guarded.shared
    rw [hcount, Finset.card_eq_zero, Finset.eq_empty_iff_forall_notMem]
    intro write hmem
    rw [hholders, hnone] at hmem
    cases hmem
  window := hsound.windowed.quiet

/-- **Whoever is interrupted, those that hold the gate exclude each other.** -/
theorem orders_run (workers : Nat) (key : W → Option K) {actions : List (Action W C)}
    {state : State W C K} (hrun : run workers key actions {} = some state) :
    Orders workers key state :=
  ((Sound.initial key { call | .interrupt call ∈ actions }).run (fun _ hmem => hmem) hrun).orders
    workers

/-- **Calls in progress are alone too, in a run that interrupts none on the pool.** -/
theorem excludes_of_attended (workers : Nat) (key : W → Option K) {actions : List (Action W C)}
    (hattended : ∀ call, .interrupt call ∉ actions) {state : State W C K}
    (hrun : run workers key actions {} = some state) : Excludes workers key state := by
  have hsound := (Sound.initial key ∅).run (fun call hmem => absurd hmem (hattended call)) hrun
  have howned : ∀ call, (state.calls call).inProgress → (state.calls call).owns := by
    intro call hprogress
    rw [CallPhase.inProgress, Bool.or_eq_true] at hprogress
    exact hprogress.resolve_right (hsound.guarded.known call)
  have horders := hsound.orders workers
  refine { horders with alone := fun call hprogress => ?_ }
  obtain ⟨hwrites, hcalls⟩ := horders.gated call (howned call hprogress)
  exact ⟨hwrites, fun other hother => hcalls other (howned other hother)⟩

/-- A renewal and its rebind while one write is on the pool and the next stands in line for its
key. -/
def renewalRun : List (Action Bool Bool) :=
  [.submit false, .enter false, .enqueue false, .submit true, .start,
    .requestOnLoop false (some true), .land false, .release false, .grant false,
    .dispatch false, .start, .complete false, .conclude false true, .rebind true,
    .grant true, .dispatch true, .start, .complete true, .conclude true true,
    .finish false, .advance true, .enter true]

theorem excludes_of_attended_renewal :
    ∃ state : State Bool Bool Unit, run 2 (fun _ => some ()) renewalRun {} = some state ∧
      Excludes 2 (fun _ => some ()) state := by
  have hattended : ∀ call, .interrupt call ∉ renewalRun := by decide
  exact ⟨_, rfl, excludes_of_attended 2 (fun _ => some ()) hattended rfl⟩

/-- A write runs beside a call whose caller was interrupted. -/
theorem interrupted_call_overlapped :
    ∃ state : State Unit Unit Unit,
      run 2 (fun _ => none)
        [.request (), .grant (), .dispatch (), .start, .interrupt (), .submit (), .enter (),
          .enqueue (), .start] {} = some state ∧
        ¬Excludes 2 (fun _ => none) state := by
  refine ⟨_, rfl, fun hexcludes => ?_⟩
  have hwrites := (hexcludes.alone () rfl).1 ()
  cases hwrites

end

end StateWriter

end Atlantide
