import Atlantide.State.S3.Outputs
import Atlantide.State.S3.Acquire

/-! # Backend processes

A process's thread `0` makes its lock calls, bulk writes, output commits and reads one at a time; node
writes and background folds run on any of its threads, beside whatever thread `0` is doing. -/

namespace Atlantide

open Interleaving

inductive Call
  | read
  | load
  | put (node : StateNode)
  | delete (node : String)
  | replaceMany (deleteIds : List String) (nodes : List StateNode)
  | setOutputs (outputs : Dict String Value) (remove : List String)
  | compact
  | acquire (owner : String) (ttl : Int) (scope : List String)
  | renew (owner : String) (ttl : Int) (scope : List String)
  | release (owner : String)
  | forceUnlock (nodes : List String)

inductive Result
  | done
  | cut (cut : Option Cut)
  | view (view : View)
  | report (report : CompactionReport)
  | lease (lease : Except Error Lease)
  | count (count : Nat)

/-- The calls any thread may make. -/
def Call.shared : Call → Bool
  | read | put _ | delete _ | compact => true
  | _ => false

def Call.program (ctx : S3Context) : Call → Backend Result
  | read => do pure (.cut (← Reads.cut))
  | load => do pure (.view (← Views.ensure))
  | put node => do
    Writes.writeNode node.id (some node)
    pure .done
  | delete node => do
    Writes.writeNode node none
    pure .done
  | replaceMany deleteIds nodes => do
    Writes.replaceMany deleteIds nodes
    pure .done
  | setOutputs outputs remove => do
    OutputWrites.setOutputs outputs remove
    pure .done
  | compact => do pure (.report (← Maintenance.compact))
  | acquire owner ttl scope => do pure (.lease (← LockTable.acquire ctx owner ttl scope))
  | renew owner ttl scope => do pure (.lease (← LockTable.renew ctx owner ttl scope))
  | release owner => do
    LockTable.release owner
    pure .done
  | forceUnlock nodes => do pure (.count (← LockTable.forceUnlock nodes))

/-- A state of the whole system: the world, and what is left of every task. -/
abbrev Backends := System.Config Tid World Request Request.Reply Call Error Result

/-- Any number of backend processes over one pair of stores. -/
def backends (ctx : S3Context) :
    System Tid Choice World Request Request.Reply Surroundings Call Error Result where
  serve := World.serve
  env := World.env
  program tid call :=
    if tid.thread = 0 ∨ call.shared then call.program ctx else .raise .keptMoving

/-- The task's next requests are served and answered. -/
def served (tid : Tid) (requests : Nat) : List (System.Act Tid Choice Surroundings Call) :=
  List.replicate requests (.serve tid {})

end Atlantide
