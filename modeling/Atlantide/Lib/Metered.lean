import Mathlib.Data.List.Basic

/-! # Computations that spend an allowance

A computation reads an allowance it cannot change, works on a state and ends with a value or an
error, or is cut off unfinished. A meter says how much a state has spent so far. A computation is
fair when a larger allowance never changes what it does, only whether it gets there: run with the
smaller one, it does the same or ends by exhausting it. -/

def Metered (S E α : Type) := Nat → S → Option (Except E α) × S

namespace Metered

variable {S E α β ι : Type}

def finish (value : α) : Metered S E α := fun _ state => (some (.ok value), state)

def raise (error : E) : Metered S E α := fun _ state => (some (.error error), state)

/-- Cut off before the end. -/
def unfinished : Metered S E α := fun _ state => (none, state)

def bind (first : Metered S E α) (next : α → Metered S E β) : Metered S E β := fun allowance state =>
  match first allowance state with
  | (some (.ok value), after) => next value allowance after
  | (some (.error error), after) => (some (.error error), after)
  | (none, after) => (none, after)

instance : Monad (Metered S E) where
  pure := finish
  bind := bind

def inspect (view : S → α) : Metered S E α := fun _ state => (some (.ok (view state)), state)

def update (change : S → S) : Metered S E Unit := fun _ state => (some (.ok ()), change state)

def ofExcept (outcome : Except E α) : Metered S E α := fun _ state => (some outcome, state)

/-- How the computation ends, as a value. -/
def outcome (first : Metered S E α) : Metered S E (Except E α) := fun allowance state =>
  match first allowance state with
  | (some result, after) => (some (.ok result), after)
  | (none, after) => (none, after)

/-- Runs `body` from the point it last reached until it says where it ends, at most `steps` times. -/
def iterate : Nat → (β → Metered S E (β ⊕ α)) → β → Metered S E α
  | 0, _, _ => unfinished
  | steps + 1, body, point => body point >>= fun
    | .inl next => iterate steps body next
    | .inr value => pure value

/-- Runs `act` on each element in order and collects the values. -/
def each (act : ι → Metered S E α) : List ι → Metered S E (List α)
  | [] => pure []
  | element :: rest => do
    let value ← act element
    let values ← each act rest
    pure (value :: values)

/-- What a state has spent, how spending can be refused, and which error says it was. A state is
clean when nothing met on the way to it has hidden such an error. -/
structure Meter (S E : Type) where
  spent : S → Nat
  spend : Nat → S → S
  exhaustion : E
  clean : S → Prop
  spent_spend : ∀ cost state, spent (spend cost state) = spent state + cost
  clean_spend : ∀ cost state, clean (spend cost state) ↔ clean state

variable {m : Meter S E}

/-- Spends a price that is worked out from the state and from what is left of the allowance. -/
def charge (m : Meter S E) (price : S → Nat → Except E Nat) : Metered S E Unit :=
  fun allowance state =>
    match price state (allowance - m.spent state) with
    | .error error => (some (.error error), state)
    | .ok cost =>
      if allowance < m.spent (m.spend cost state) then
        (some (.error m.exhaustion), m.spend cost state)
      else (some (.ok ()), m.spend cost state)

/-- A price that looks at what is left to stop counting early, and is the same whatever is left as
long as it can be paid. -/
def Clamped (price : Nat → Except E Nat) : Prop :=
  ∀ less more, less ≤ more →
    match price less with
    | .ok cost => cost ≤ less → price more = .ok cost
    | .error error => price more = .error error

def Exhausted (m : Meter S E) (reached : Option (Except E α) × S) : Prop :=
  reached.1 = some (.error m.exhaustion)

/-- **Fairness.** A computation that stays within an allowance is the same with any larger one, and
one that leaves it ends exhausted. -/
structure Fair (m : Meter S E) (first : Metered S E α) : Prop where
  grows : ∀ allowance state, m.spent state ≤ m.spent (first allowance state).2
  traced : ∀ allowance state, m.clean (first allowance state).2 → m.clean state
  blind : ∀ less more state, less ≤ more → m.spent (first less state).2 ≤ less →
    first more state = first less state
  surfaces : ∀ allowance state, m.spent state ≤ allowance → m.clean (first allowance state).2 →
    allowance < m.spent (first allowance state).2 → Exhausted m (first allowance state)

theorem bind_eq (first : Metered S E α) (next : α → Metered S E β) :
    (first >>= next) = bind first next := rfl

namespace Fair

/-- What leaves the state as it is and does not look at the allowance. -/
theorem still {first : Metered S E α}
    (hstate : ∀ allowance state, (first allowance state).2 = state)
    (hsame : ∀ less more state, first more state = first less state) : Fair m first := by
  refine ⟨fun allowance state => ?_, fun allowance state hclean => ?_,
    fun less more state _ _ => hsame less more state, fun allowance state hwithin _ hover => ?_⟩
  · exact Nat.le_of_eq (congrArg m.spent (hstate allowance state).symm)
  · rwa [hstate] at hclean
  · rw [hstate] at hover
    omega

theorem pure (value : α) : Fair m (Pure.pure value : Metered S E α) :=
  still (fun _ _ => rfl) fun _ _ _ => rfl

theorem raise (error : E) : Fair m (raise error : Metered S E α) :=
  still (fun _ _ => rfl) fun _ _ _ => rfl

theorem unfinished : Fair m (unfinished : Metered S E α) :=
  still (fun _ _ => rfl) fun _ _ _ => rfl

theorem inspect (view : S → α) : Fair m (inspect view : Metered S E α) :=
  still (fun _ _ => rfl) fun _ _ _ => rfl

theorem update {change : S → S} (hspent : ∀ state, m.spent (change state) = m.spent state)
    (hclean : ∀ state, m.clean (change state) → m.clean state) :
    Fair m (update change : Metered S E Unit) := by
  refine ⟨fun _ state => Nat.le_of_eq (hspent state).symm,
    fun _ state hafter => hclean state hafter, fun _ _ _ _ _ => rfl,
    fun allowance state hwithin _ hover => ?_⟩
  have hsame := hspent state
  simp only [Metered.update] at hover
  omega

theorem bind {first : Metered S E α} {next : α → Metered S E β} (hfirst : Fair m first)
    (hnext : ∀ value, Fair m (next value)) : Fair m (first >>= next) := by
  constructor
  · intro allowance state
    have hgrows := hfirst.grows allowance state
    rw [bind_eq]
    unfold Metered.bind
    rcases hreached : first allowance state with ⟨_ | (error | value), after⟩ <;>
      simp only [hreached] at hgrows ⊢
    · exact hgrows
    · exact hgrows
    · exact Nat.le_trans hgrows ((hnext value).grows allowance after)
  · intro allowance state hclean
    apply hfirst.traced allowance state
    rw [bind_eq] at hclean
    unfold Metered.bind at hclean
    rcases hreached : first allowance state with ⟨_ | (error | value), after⟩ <;>
      simp only [hreached] at hclean ⊢
    · exact hclean
    · exact hclean
    · exact (hnext value).traced allowance after hclean
  · intro less more state hle hwithin
    have hblind := hfirst.blind less more state hle
    rw [bind_eq] at hwithin ⊢
    unfold Metered.bind at hwithin ⊢
    rcases hreached : first less state with ⟨_ | (error | value), after⟩ <;>
      simp only [hreached] at hwithin hblind ⊢
    · rw [hblind hwithin]
    · rw [hblind hwithin]
    · rw [hblind (Nat.le_trans ((hnext value).grows less after) hwithin)]
      exact (hnext value).blind less more after hle hwithin
  · intro allowance state hwithin hclean hover
    have hsurfaces := hfirst.surfaces allowance state hwithin
    rw [bind_eq] at hclean hover ⊢
    unfold Metered.bind at hclean hover ⊢
    rcases hreached : first allowance state with ⟨_ | (error | value), after⟩ <;>
      simp only [hreached] at hclean hover hsurfaces ⊢
    · cases hsurfaces hclean hover
    · cases hsurfaces hclean hover
      rfl
    · by_cases hafter : m.spent after ≤ allowance
      · exact (hnext value).surfaces allowance after hafter hclean hover
      · cases hsurfaces ((hnext value).traced allowance after hclean) (by omega)

theorem each {act : ι → Metered S E α} (hact : ∀ element, Fair m (act element)) :
    ∀ elements : List ι, Fair m (each act elements) := by
  intro elements
  induction elements with
  | nil => exact pure []
  | cons element rest ih => exact (hact element).bind fun _ => ih.bind fun _ => pure _

/-- Looking at how a computation ends is fair when whoever is shown an exhaustion ends exhausted. -/
theorem outcome_bind {first : Metered S E α} {next : Except E α → Metered S E β}
    (hfirst : Fair m first) (hnext : ∀ result, Fair m (next result))
    (hpasses : ∀ allowance state, m.clean (next (.error m.exhaustion) allowance state).2 →
      Exhausted m (next (.error m.exhaustion) allowance state)) :
    Fair m (outcome first >>= next) := by
  constructor
  · intro allowance state
    have hgrows := hfirst.grows allowance state
    rw [bind_eq]
    unfold Metered.bind outcome
    rcases hreached : first allowance state with ⟨_ | result, after⟩ <;>
      simp only [hreached] at hgrows ⊢
    · exact hgrows
    · exact Nat.le_trans hgrows ((hnext result).grows allowance after)
  · intro allowance state hclean
    apply hfirst.traced allowance state
    rw [bind_eq] at hclean
    unfold Metered.bind outcome at hclean
    rcases hreached : first allowance state with ⟨_ | result, after⟩ <;>
      simp only [hreached] at hclean ⊢
    · exact hclean
    · exact (hnext result).traced allowance after hclean
  · intro less more state hle hwithin
    have hblind := hfirst.blind less more state hle
    rw [bind_eq] at hwithin ⊢
    unfold Metered.bind outcome at hwithin ⊢
    rcases hreached : first less state with ⟨_ | result, after⟩ <;>
      simp only [hreached] at hwithin hblind ⊢
    · rw [hblind hwithin]
    · rw [hblind (Nat.le_trans ((hnext result).grows less after) hwithin)]
      exact (hnext result).blind less more after hle hwithin
  · intro allowance state hwithin hclean hover
    have hsurfaces := hfirst.surfaces allowance state hwithin
    rw [bind_eq] at hclean hover ⊢
    unfold Metered.bind outcome at hclean hover ⊢
    rcases hreached : first allowance state with ⟨_ | result, after⟩ <;>
      simp only [hreached] at hclean hover hsurfaces ⊢
    · cases hsurfaces hclean hover
    · by_cases hafter : m.spent after ≤ allowance
      · exact (hnext result).surfaces allowance after hafter hclean hover
      · cases hsurfaces ((hnext result).traced allowance after hclean) (by omega)
        exact hpasses allowance after hclean

theorem charge {price : S → Nat → Except E Nat} (hprice : ∀ state, Clamped (price state)) :
    Fair m (charge m price) := by
  constructor
  · intro allowance state
    unfold Metered.charge
    split
    · exact Nat.le_refl _
    · split <;> simp only [m.spent_spend] <;> omega
  · intro allowance state hclean
    unfold Metered.charge at hclean
    split at hclean
    · exact hclean
    · split at hclean <;> exact (m.clean_spend _ _).mp hclean
  · intro less more state hle hwithin
    have hclamped := hprice state (less - m.spent state) (more - m.spent state) (by omega)
    unfold Metered.charge at hwithin ⊢
    cases hcost : price state (less - m.spent state) with
    | error error =>
      rw [hcost] at hclamped
      rw [hclamped]
    | ok cost =>
      have hspent := m.spent_spend cost state
      have hpaid : m.spent state + cost ≤ less := by
        rw [hcost] at hwithin
        simp only at hwithin
        split at hwithin <;> simpa only [hspent] using hwithin
      rw [hcost] at hclamped
      rw [hclamped (by omega)]
      simp only [hspent]
      rw [if_neg (by omega), if_neg (by omega)]
  · intro allowance state hwithin _ hover
    unfold Metered.charge at hover ⊢
    split at hover
    · simp only at hover
      omega
    · split at hover
      · rename_i hspent
        rw [if_pos hspent]
        rfl
      · rename_i hspent
        simp only at hover
        omega

end Fair

protected theorem id_map (first : Metered S E α) : id <$> first = first := by
  funext allowance state
  change bind first finish allowance state = first allowance state
  unfold bind finish
  rcases first allowance state with ⟨_ | (error | value), after⟩ <;> rfl

protected theorem bind_assoc {γ : Type} (first : Metered S E α) (next : α → Metered S E β)
    (last : β → Metered S E γ) :
    first >>= next >>= last = first >>= fun value => next value >>= last := by
  funext allowance state
  change bind (bind first next) last allowance state =
    bind first (fun value => bind (next value) last) allowance state
  unfold bind
  rcases first allowance state with ⟨_ | (error | value), after⟩ <;> rfl

instance : LawfulMonad (Metered S E) := LawfulMonad.mk' _ Metered.id_map (fun _ _ => rfl)
  Metered.bind_assoc

theorem each_map {κ : Type} (act : ι → Metered S E α) (view : κ → ι) (elements : List κ) :
    each act (elements.map view) = each (fun element => act (view element)) elements := by
  induction elements with
  | nil => rfl
  | cons element rest ih =>
    rw [List.map_cons]
    simp only [each, ih]

theorem each_append (act : ι → Metered S E α) (before after : List ι) :
    each act (before ++ after) = (do
      let values ← each act before
      let others ← each act after
      pure (values ++ others)) := by
  induction before with
  | nil => simp [each]
  | cons element rest ih => simp [each, ih]

/-! ## Errors that never come -/

/-- The computation never ends with such an error. -/
def Avoids (bad : E → Prop) (first : Metered S E α) : Prop :=
  ∀ allowance state error, (first allowance state).1 = some (.error error) → ¬ bad error

namespace Avoids

variable {bad : E → Prop}

theorem pure (value : α) : Avoids bad (Pure.pure value : Metered S E α) := nofun

theorem unfinished : Avoids bad (unfinished : Metered S E α) := nofun

theorem inspect (view : S → α) : Avoids bad (inspect view : Metered S E α) := nofun

theorem update (change : S → S) : Avoids bad (update change : Metered S E Unit) := nofun

theorem raise {error : E} (hgood : ¬ bad error) : Avoids bad (raise error : Metered S E α) := by
  intro allowance state other hended
  cases hended
  exact hgood

theorem bind {first : Metered S E α} {next : α → Metered S E β} (hfirst : Avoids bad first)
    (hnext : ∀ value, Avoids bad (next value)) : Avoids bad (first >>= next) := by
  intro allowance state error hended
  rw [bind_eq] at hended
  unfold Metered.bind at hended
  rcases hreached : first allowance state with ⟨_ | (other | value), after⟩ <;>
    simp only [hreached] at hended
  · cases hended
  · cases hended
    exact hfirst allowance state error (by rw [hreached])
  · exact hnext value allowance after error hended

theorem mono {worse : E → Prop} {first : Metered S E α} (hfirst : Avoids bad first)
    (hworse : ∀ error, worse error → bad error) : Avoids worse first :=
  fun allowance state error hended hbad =>
    hfirst allowance state error hended (hworse error hbad)

/-- Looking at how a computation ends does not raise what it ends with. -/
theorem outcome (first : Metered S E α) : Avoids bad (outcome first) := by
  intro allowance state error hended
  unfold Metered.outcome at hended
  split at hended
  · cases hended
  · cases hended

/-- What follows an end only has to be judged for the ends there can be. -/
theorem outcome_bind {other : E → Prop} {first : Metered S E α}
    {next : Except E α → Metered S E β} (hfirst : Avoids other first)
    (hnext : ∀ result, (∀ error, result = .error error → ¬ other error) →
      Avoids bad (next result)) : Avoids bad (Metered.outcome first >>= next) := by
  intro allowance state error hended
  rw [bind_eq] at hended
  unfold Metered.bind Metered.outcome at hended
  rcases hreached : first allowance state with ⟨_ | result, after⟩ <;> simp only [hreached] at hended
  · cases hended
  · refine hnext result ?_ allowance after error hended
    rintro raised rfl
    exact hfirst allowance state raised (by rw [hreached])

theorem charge {price : S → Nat → Except E Nat} (hexhaustion : ¬ bad m.exhaustion)
    (hprice : ∀ state left error, price state left = .error error → ¬ bad error) :
    Avoids bad (charge m price) := by
  intro allowance state error hended
  unfold Metered.charge at hended
  split at hended
  · rename_i other hother
    cases hended
    exact hprice state _ error hother
  · split at hended
    · cases hended
      exact hexhaustion
    · cases hended

end Avoids

/-- What follows the end of a computation only has to agree on the ends it can have. -/
theorem outcome_bind_congr {bad : E → Prop} {first : Metered S E α}
    {next next' : Except E α → Metered S E β} (hfirst : Avoids bad first)
    (hagree : ∀ result, (∀ error, result = .error error → ¬ bad error) → next result = next' result) :
    outcome first >>= next = outcome first >>= next' := by
  funext allowance state
  rw [bind_eq, bind_eq]
  unfold bind outcome
  rcases hreached : first allowance state with ⟨_ | result, after⟩
  · rfl
  · simp only
    rw [hagree result]
    rintro error rfl
    exact hfirst allowance state error (by rw [hreached])

/-! ## Values that have a property -/

/-- Every value the computation ends with has the property. -/
def Yields (holds : α → Prop) (first : Metered S E α) : Prop :=
  ∀ allowance state value after, first allowance state = (some (.ok value), after) → holds value

namespace Yields

variable {holds : α → Prop}

theorem pure {value : α} (hvalue : holds value) :
    Yields holds (Pure.pure value : Metered S E α) := by
  intro allowance state other after hended
  cases hended
  exact hvalue

theorem trivial (first : Metered S E α) : Yields (fun _ => True) first := fun _ _ _ _ _ => True.intro

theorem bind {kept : β → Prop} {first : Metered S E α} {next : α → Metered S E β}
    (hfirst : Yields holds first) (hnext : ∀ value, holds value → Yields kept (next value)) :
    Yields kept (first >>= next) := by
  intro allowance state value after hended
  rw [bind_eq] at hended
  unfold Metered.bind at hended
  rcases hreached : first allowance state with ⟨_ | (error | middle), between⟩ <;>
    simp only [hreached] at hended
  · cases hended
  · cases hended
  · exact hnext middle (hfirst allowance state middle between hreached) allowance between value after
      hended

end Yields

end Metered
