import Atlantide.Reconcile.Changes

/-! # Did an upstream value move -/

namespace Atlantide

/-- A stored row's reference field compared with what it resolves to now. Only these two verdicts
are reported: an unchanged or unresolvable field has none. -/
inductive Consumed
  | moved
  | unrecorded
  deriving DecidableEq

/-- Per node id, the verdict of each reported field. -/
abbrev ConsumedRefs := Dict String (Dict String Consumed)

/-- Whether `value` references an upstream in `moved`, `desired` itself aside. -/
def touches (desired : IRNode) (value : Value) (moved : List String) : Bool :=
  value.collectRefTargets.any fun target => target ≠ desired.id && target ∈ moved

/-- `desired.properties.get(name)`. -/
def IRNode.property (desired : IRNode) (name : String) : Value :=
  desired.properties.getD name .null

/-- Whether every upstream `name` references keeps its outputs this run. -/
def stable (desired : IRNode) (name : String) (moved : List String) : Bool :=
  !touches desired (desired.property name) moved

/-- Fields known to consume a moved value, their upstreams stable. -/
def settled (desired : IRNode) (verdicts : Dict String Consumed) (moved : List String) :
    List String :=
  verdicts.keys.filter fun name => verdicts[name]? = some .moved && stable desired name moved

/-- Reference fields a row from before the record cannot vouch for. -/
def unrecorded (desired : IRNode) (verdicts : Dict String Consumed) (moved : List String) :
    List String :=
  verdicts.keys.filter fun name =>
    verdicts[name]? = some .unrecorded && name ∉ desired.ignoreChanges &&
      stable desired name moved

@[simp] theorem touches_nil (desired : IRNode) (value : Value) : touches desired value [] = false := by
  simp [touches]

@[simp] theorem stable_nil (desired : IRNode) (name : String) : stable desired name [] = true := by
  simp [stable]

theorem mem_settled {desired : IRNode} {verdicts : Dict String Consumed} {moved : List String}
    {name : String} : name ∈ settled desired verdicts moved ↔
      verdicts[name]? = some .moved ∧ stable desired name moved := by
  simp only [settled, List.mem_filter, Std.ExtTreeMap.mem_keys, Bool.and_eq_true,
    decide_eq_true_eq, and_iff_right_iff_imp, and_imp]
  intro hverdict _
  exact Std.ExtTreeMap.mem_iff_isSome_getElem?.mpr (by rw [hverdict]; rfl)

theorem mem_unrecorded {desired : IRNode} {verdicts : Dict String Consumed} {moved : List String}
    {name : String} : name ∈ unrecorded desired verdicts moved ↔
      verdicts[name]? = some .unrecorded ∧ name ∉ desired.ignoreChanges ∧
        stable desired name moved := by
  simp only [unrecorded, List.mem_filter, Std.ExtTreeMap.mem_keys, Bool.and_eq_true,
    decide_eq_true_eq, and_assoc, and_iff_right_iff_imp, and_imp]
  intro hverdict _ _
  exact Std.ExtTreeMap.mem_iff_isSome_getElem?.mpr (by rw [hverdict]; rfl)

end Atlantide
