import Std.Data.ExtTreeMap.Lemmas
import Mathlib.Init
import Mathlib.Data.List.Basic

/-! # Edits of a table

An edit drops some keys and puts some entries. What a key holds after a sequence of edits depends on
what it held before only as long as no edit touches it. -/

namespace Edits

variable {K V : Type} [Ord K] [Std.TransOrd K] [Std.LawfulEqOrd K] [DecidableEq K]

structure Edit (K V : Type) [Ord K] where
  removes : List K
  puts : Std.ExtTreeMap K V compare

/-- Drops the keys, then overlays the entries. -/
def Edit.apply (edit : Edit K V) (table : Std.ExtTreeMap K V compare) :
    Std.ExtTreeMap K V compare :=
  (table.filter fun key _ => key ∉ edit.removes) ∪ edit.puts

def Edit.Touches (edit : Edit K V) (key : K) : Prop := key ∈ edit.removes ∨ key ∈ edit.puts

instance (edit : Edit K V) (key : K) : Decidable (edit.Touches key) :=
  inferInstanceAs (Decidable (_ ∨ _))

/-- The table after the edits, in order. -/
def replay (edits : List (Edit K V)) (table : Std.ExtTreeMap K V compare) :
    Std.ExtTreeMap K V compare :=
  edits.foldl (fun table edit => edit.apply table) table

/-- Every entry of the one table is in the other. -/
def Within (table other : Std.ExtTreeMap K V compare) : Prop :=
  ∀ (key : K) (value : V), table[key]? = some value → other[key]? = some value

section

variable {table other : Std.ExtTreeMap K V compare} {key : K} {edits : List (Edit K V)}

theorem Edit.getElem?_apply (edit : Edit K V) : (edit.apply table)[key]? =
    edit.puts[key]?.or (if key ∈ edit.removes then none else table[key]?) := by
  rw [Edit.apply, Std.ExtTreeMap.getElem?_union, Std.ExtTreeMap.getElem?_filter']
  refine congrArg (edit.puts[key]?.or ·) ?_
  cases table[key]? with
  | none => exact (ite_self none).symm
  | some value =>
    rw [Option.filter_some]
    by_cases hremoved : key ∈ edit.removes <;> simp [hremoved]

theorem Edit.getElem?_apply_of_not_touches {edit : Edit K V} (hfree : ¬ edit.Touches key) :
    (edit.apply table)[key]? = table[key]? := by
  obtain ⟨hkept, hput⟩ := not_or.mp hfree
  rw [edit.getElem?_apply, Std.ExtTreeMap.getElem?_eq_none hput, Option.none_or, if_neg hkept]

/-- What a key holds after an edit is settled by what it held. -/
theorem Edit.getElem?_apply_congr (edit : Edit K V) (hsame : table[key]? = other[key]?) :
    (edit.apply table)[key]? = (edit.apply other)[key]? := by
  rw [edit.getElem?_apply, edit.getElem?_apply, hsame]

omit [Std.LawfulEqOrd K] [DecidableEq K] in
theorem Within.refl (table : Std.ExtTreeMap K V compare) : Within table table :=
  fun _ _ hfound => hfound

/-- The same edit of both keeps the entries of the one in the other. -/
theorem Within.apply (hwithin : Within table other) (edit : Edit K V) :
    Within (edit.apply table) (edit.apply other) := by
  intro key value hfound
  rw [edit.getElem?_apply] at hfound ⊢
  cases hput : edit.puts[key]? with
  | some put => rwa [hput] at hfound
  | none =>
    rw [hput, Option.none_or] at hfound
    rw [Option.none_or]
    split at hfound
    next => cases hfound
    next hkept =>
      rw [if_neg hkept]
      exact hwithin key value hfound

omit [Std.LawfulEqOrd K] in
@[simp]
theorem replay_nil : replay [] table = table := rfl

omit [Std.LawfulEqOrd K] in
@[simp]
theorem replay_concat (edit : Edit K V) :
    replay (edits ++ [edit]) table = edit.apply (replay edits table) := by
  rw [replay, List.foldl_append, List.foldl_cons, List.foldl_nil, replay]

/-- A key that no edit touches holds what it held. -/
theorem getElem?_replay_of_forall_not_touches (hfree : ∀ edit ∈ edits, ¬ edit.Touches key) :
    (replay edits table)[key]? = table[key]? := by
  induction edits generalizing table with
  | nil => rfl
  | cons edit edits ih =>
    obtain ⟨hfirst, hrest⟩ := List.forall_mem_cons.mp hfree
    calc (replay (edit :: edits) table)[key]?
        = (edit.apply table)[key]? := ih hrest
      _ = table[key]? := Edit.getElem?_apply_of_not_touches hfirst

theorem getElem?_replay_congr (hsame : table[key]? = other[key]?) :
    (replay edits table)[key]? = (replay edits other)[key]? := by
  induction edits generalizing table other with
  | nil => exact hsame
  | cons edit edits ih => exact ih (edit.getElem?_apply_congr hsame)

theorem Within.replay (hwithin : Within table other) :
    Within (replay edits table) (replay edits other) := by
  induction edits generalizing table other with
  | nil => exact hwithin
  | cons edit edits ih => exact ih (hwithin.apply edit)

/-- An edit commutes with edits that touch none of its keys. -/
theorem apply_replay_comm {edit : Edit K V}
    (hapart : ∀ key, edit.Touches key → ∀ other ∈ edits, ¬ other.Touches key) :
    edit.apply (replay edits table) = replay edits (edit.apply table) := by
  refine Std.ExtTreeMap.ext_getElem? fun key => ?_
  by_cases htouches : edit.Touches key
  · have hfree := hapart key htouches
    rw [getElem?_replay_of_forall_not_touches hfree]
    exact edit.getElem?_apply_congr (getElem?_replay_of_forall_not_touches hfree)
  · rw [Edit.getElem?_apply_of_not_touches htouches]
    exact getElem?_replay_congr (Edit.getElem?_apply_of_not_touches htouches).symm

end

end Edits
