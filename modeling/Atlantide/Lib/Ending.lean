import Mathlib.Data.List.Forall2

/-! # How a computation that may fail ends

A computation on a state ends with a value and the state it leaves, or fails. What holds either way
is composed along the computation; over a list, what one element's computation keeps and makes true
is kept and made true by all of them, when it stays true as the state grows. -/

namespace Ending

variable {σ ε α β : Type}

def Ends (run : StateT σ (Except ε) α) (before : σ) (returns : α → σ → Prop) (fails : ε → Prop) :
    Prop :=
  match run.run before with
  | .ok (value, after) => returns value after
  | .error fault => fails fault

section

variable {run : StateT σ (Except ε) α} {next : α → StateT σ (Except ε) β} {before : σ}
  {returns : α → σ → Prop} {fails : ε → Prop}

theorem Ends.pure {value : α} (hreturns : returns value before) :
    Ends (pure value) before returns fails :=
  hreturns

theorem Ends.throw {fault : ε} (hfails : fails fault) :
    Ends (throw fault) before returns fails :=
  hfails

theorem Ends.get {returns : σ → σ → Prop} (hreturns : returns before before) :
    Ends get before returns fails :=
  hreturns

theorem Ends.modify {returns : Unit → σ → Prop} {change : σ → σ}
    (hreturns : returns () (change before)) : Ends (modify change) before returns fails :=
  hreturns

theorem Ends.bind {after : β → σ → Prop}
    (hrun : Ends run before (fun value state => Ends (next value) state after fails) fails) :
    Ends (run >>= next) before after fails := by
  unfold Ends at hrun ⊢
  rw [StateT.run_bind]
  cases hresult : run.run before with
  | error fault =>
    rw [hresult] at hrun
    exact hrun
  | ok found =>
    rw [hresult] at hrun
    exact hrun

theorem Ends.mono {weaker : α → σ → Prop} (hrun : Ends run before returns fails)
    (hweaker : ∀ value after, returns value after → weaker value after) :
    Ends run before weaker fails := by
  unfold Ends at hrun ⊢
  cases hresult : run.run before with
  | error fault =>
    rw [hresult] at hrun
    exact hrun
  | ok found =>
    rw [hresult] at hrun
    exact hweaker _ _ hrun

theorem Ends.map {image : α → β} {after : β → σ → Prop}
    (hrun : Ends run before (fun value state => after (image value) state) fails) :
    Ends (image <$> run) before after fails := by
  rw [map_eq_pure_bind]
  exact Ends.bind hrun

end

/-- What a list's computations keep and make true, element by element. -/
theorem Ends.mapM {act : α → StateT σ (Except ε) β} {kept : σ → Prop} (grows : σ → σ → Prop)
    (made : α → β → σ → Prop) {fails : ε → Prop} (hrefl : ∀ state, grows state state)
    (htrans : ∀ {first second third}, grows first second → grows second third → grows first third)
    (hmade : ∀ {source image first second}, grows first second → made source image first →
      made source image second)
    {sources : List α}
    (hact : ∀ source ∈ sources, ∀ before, kept before → Ends (act source) before
      (fun image after => kept after ∧ grows before after ∧ made source image after) fails) :
    ∀ before, kept before → Ends (sources.mapM act) before
      (fun images after => kept after ∧ grows before after ∧
        List.Forall₂ (made · · after) sources images) fails := by
  induction sources with
  | nil => exact fun before hkept => Ends.pure ⟨hkept, hrefl before, .nil⟩
  | cons source sources ih =>
    rw [List.forall_mem_cons] at hact
    intro before hkept
    rw [List.mapM_cons]
    apply Ends.bind
    apply (hact.1 before hkept).mono
    rintro image after ⟨hkept, hgrows, himage⟩
    apply Ends.bind
    apply (ih hact.2 after hkept).mono
    rintro images final ⟨hkept, hlater, himages⟩
    exact Ends.pure ⟨hkept, htrans hgrows hlater, .cons (hmade hlater himage) himages⟩

end Ending
