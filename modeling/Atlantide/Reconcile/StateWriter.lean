import Mathlib.Data.Finset.Card
import Mathlib.Data.List.Sublists
import Mathlib.Logic.Function.Basic

/-! # The state writer and its gate

State writes run on a pool and hold a readers-writer gate shared; the lock scaffold's calls hold it
alone. A write takes its hold on the event loop, where it is submitted, and gives it back on the
thread that ran it. A call blocks the thread it is made on, which may be the loop's: there a renewal
and the rebind that follows it leave the loop no turn in between. -/

namespace Atlantide

structure ReadWriteGate where
  shared : Nat := 0
  exclusive : Bool := false
  exclusiveWaiting : Nat := 0

namespace ReadWriteGate

/-- A shared caller gets past its wait. -/
def acquireShared (gate : ReadWriteGate) : Option ReadWriteGate :=
  if gate.exclusive ∨ gate.exclusiveWaiting ≠ 0 then none
  else some { gate with shared := gate.shared + 1 }

def releaseShared (gate : ReadWriteGate) : ReadWriteGate :=
  { gate with shared := gate.shared - 1 }

/-- An exclusive caller begins to wait. -/
def request (gate : ReadWriteGate) : ReadWriteGate :=
  { gate with exclusiveWaiting := gate.exclusiveWaiting + 1 }

/-- An exclusive caller gets past its wait. -/
def acquireExclusive (gate : ReadWriteGate) : Option ReadWriteGate :=
  if gate.exclusive ∨ gate.shared ≠ 0 then none
  else some { gate with exclusiveWaiting := gate.exclusiveWaiting - 1, exclusive := true }

/-- An exclusive caller is interrupted in its wait. -/
def withdraw (gate : ReadWriteGate) : ReadWriteGate :=
  { gate with exclusiveWaiting := gate.exclusiveWaiting - 1 }

def releaseExclusive (gate : ReadWriteGate) : ReadWriteGate :=
  { gate with exclusive := false }

end ReadWriteGate

namespace StateWriter

/-- How far a write is: waiting for its key, at the gate, past it, on the pool, its call over, its
hold given back, its submitter told. -/
inductive WritePhase
  | new
  | lined
  | admitting
  | admitted
  | queued
  | running
  | landed
  | released
  | ended
  deriving DecidableEq

/-- How far an exclusive call is; `attended` as long as its caller waits for it. -/
inductive CallPhase
  | new
  | waiting
  | holding
  | queued (attended : Bool)
  | running (attended : Bool)
  | finished
  | ended
  deriving DecidableEq

/-- What the loop's thread is in the middle of. -/
inductive Loop (W C : Type)
  | idle
  | admitting (write : W)
  | admitted (write : W)
  /-- In a call, and the call to make right after it. -/
  | calling (call : C) (next : Option C)
  | rebinding (call : C)
  deriving DecidableEq

inductive Event (W C : Type)
  | admitted (write : W)
  /-- A renewal begins. -/
  | renewing (call : C)
  /-- The rebind after it is over, or will not come. -/
  | settled
  deriving DecidableEq

structure State (W C K : Type) where
  gate : ReadWriteGate := {}
  writes : W → WritePhase := fun _ => .new
  calls : C → CallPhase := fun _ => .new
  /-- Those that asked for a key and have not ended, in the order they asked. -/
  lines : K → List W := fun _ => []
  queue : List (W ⊕ C) := []
  busy : Nat := 0
  loop : Loop W C := .idle
  submitted : List W := []
  /-- Newest first. -/
  log : List (Event W C) := []

inductive Action (W C : Type)
  /-- `run` is awaited. -/
  | submit (write : W)
  /-- The write's turn for its key has come. -/
  | advance (write : W)
  /-- The write gets past its wait at the gate. -/
  | enter (write : W)
  | interruptAdmission (write : W)
  | enqueue (write : W)
  /-- The pool does not take the write. -/
  | refuse (write : W)
  /-- The submitter is cancelled while it waits for the key. -/
  | withdraw (write : W)
  /-- The submitter is cancelled while its write is on the pool: it waits on. -/
  | cancel (write : W)
  | finish (write : W)
  /-- A thread of the pool takes what is first in the queue. -/
  | start
  | land (write : W)
  | release (write : W)
  /-- `call` on a thread of its own. -/
  | request (call : C)
  /-- `call` on the loop's thread, with the call it makes right after this one succeeds. -/
  | requestOnLoop (call : C) (next : Option C)
  | rebind (call : C)
  | grant (call : C)
  | interruptWait (call : C)
  | dispatch (call : C)
  | refuseCall (call : C)
  | complete (call : C)
  /-- The result is there and the caller goes on with it. -/
  | conclude (call : C) (succeeds : Bool)
  /-- The caller is interrupted while it waits for the result. -/
  | interrupt (call : C)
  deriving DecidableEq

section

variable {W C K : Type} [DecidableEq W] [DecidableEq C] [DecidableEq K]

namespace State

def setWrite (state : State W C K) (write : W) (phase : WritePhase) : State W C K :=
  { state with writes := Function.update state.writes write phase }

def setCall (state : State W C K) (call : C) (phase : CallPhase) : State W C K :=
  { state with calls := Function.update state.calls call phase }

/-- A write's submitter ends, and the key goes to the next in line. -/
def leave (key : W → Option K) (state : State W C K) (write : W) : State W C K :=
  { state.setWrite write .ended with
    lines := match key write with
      | none => state.lines
      | some name => Function.update state.lines name ((state.lines name).erase write) }

/-- The loop's thread goes on after a call, if it made it. -/
def afterCall (state : State W C K) (call : C) (succeeds : Bool) : State W C K :=
  match state.loop with
  | .calling made next =>
    if made = call then
      match next, succeeds with
      | some next, true => { state with loop := .rebinding next }
      | _, _ => { state with loop := .idle, log := .settled :: state.log }
    else state
  | _ => state

end State

variable (workers : Nat) (key : W → Option K)

def step (state : State W C K) : Action W C → Option (State W C K)
  | .submit write =>
    if state.loop = .idle ∧ state.writes write = .new then
      let state := { state with submitted := state.submitted ++ [write] }
      match key write with
      | none => some { state.setWrite write .admitting with loop := .admitting write }
      | some name =>
        let lined := { state with
          lines := Function.update state.lines name (state.lines name ++ [write]) }
        if state.lines name = [] then
          some { lined.setWrite write .admitting with loop := .admitting write }
        else some (lined.setWrite write .lined)
    else none
  | .advance write =>
    if state.loop = .idle ∧ state.writes write = .lined ∧
        (key write).any fun name => (state.lines name).head? = some write then
      some { state.setWrite write .admitting with loop := .admitting write }
    else none
  | .enter write =>
    if state.loop = .admitting write ∧ state.writes write = .admitting then
      state.gate.acquireShared.map fun gate =>
        { state.setWrite write .admitted with
          gate, loop := .admitted write, log := .admitted write :: state.log }
    else none
  | .interruptAdmission write =>
    if state.loop = .admitting write ∧ state.writes write = .admitting then
      some { state.leave key write with loop := .idle }
    else none
  | .enqueue write =>
    if state.loop = .admitted write ∧ state.writes write = .admitted then
      some { state.setWrite write .queued with queue := state.queue ++ [.inl write], loop := .idle }
    else none
  | .refuse write =>
    if state.loop = .admitted write ∧ state.writes write = .admitted then
      some { state.leave key write with gate := state.gate.releaseShared, loop := .idle }
    else none
  | .withdraw write =>
    if state.loop = .idle ∧ state.writes write = .lined then some (state.leave key write) else none
  | .cancel write =>
    if state.loop = .idle ∧ (state.writes write = .queued ∨ state.writes write = .running ∨
        state.writes write = .landed ∨ state.writes write = .released) then some state
    else none
  | .finish write =>
    if state.loop = .idle ∧ state.writes write = .released then some (state.leave key write)
    else none
  | .start =>
    if state.busy < workers then
      match state.queue with
      | .inl write :: queue =>
        if state.writes write = .queued then
          some { state.setWrite write .running with queue, busy := state.busy + 1 }
        else none
      | .inr call :: queue =>
        match state.calls call with
        | .queued attended =>
          some { state.setCall call (.running attended) with queue, busy := state.busy + 1 }
        | _ => none
      | [] => none
    else none
  | .land write =>
    if state.writes write = .running then some (state.setWrite write .landed) else none
  | .release write =>
    if state.writes write = .landed then
      some { state.setWrite write .released with
        gate := state.gate.releaseShared, busy := state.busy - 1 }
    else none
  | .request call =>
    if state.calls call = .new then
      some { state.setCall call .waiting with gate := state.gate.request }
    else none
  | .requestOnLoop call next =>
    if state.loop = .idle ∧ state.calls call = .new then
      some { state.setCall call .waiting with
        gate := state.gate.request
        loop := .calling call next
        log := if next.isSome then .renewing call :: state.log else state.log }
    else none
  | .rebind call =>
    if state.loop = .rebinding call ∧ state.calls call = .new then
      some { state.setCall call .waiting with
        gate := state.gate.request, loop := .calling call none }
    else none
  | .grant call =>
    if state.calls call = .waiting then
      state.gate.acquireExclusive.map fun gate => { state.setCall call .holding with gate }
    else none
  | .interruptWait call =>
    if state.calls call = .waiting then
      some (State.afterCall { state.setCall call .ended with gate := state.gate.withdraw } call
        false)
    else none
  | .dispatch call =>
    if state.calls call = .holding then
      some { state.setCall call (.queued true) with queue := state.queue ++ [.inr call] }
    else none
  | .refuseCall call =>
    if state.calls call = .holding then
      some (State.afterCall { state.setCall call .ended with gate := state.gate.releaseExclusive }
        call false)
    else none
  | .complete call =>
    match state.calls call with
    | .running attended =>
      some { state.setCall call (if attended then .finished else .ended) with
        busy := state.busy - 1 }
    | _ => none
  | .conclude call succeeds =>
    if state.calls call = .finished then
      some (State.afterCall { state.setCall call .ended with gate := state.gate.releaseExclusive }
        call succeeds)
    else none
  | .interrupt call =>
    match state.calls call with
    | .queued true =>
      some (State.afterCall
        { state.setCall call (.queued false) with gate := state.gate.releaseExclusive } call false)
    | .running true =>
      some (State.afterCall
        { state.setCall call (.running false) with gate := state.gate.releaseExclusive } call false)
    | _ => none

def run : List (Action W C) → State W C K → Option (State W C K)
  | [], state => some state
  | action :: actions, state => (step workers key state action).bind (run actions)

end

end StateWriter

end Atlantide
