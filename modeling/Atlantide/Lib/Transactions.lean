import Mathlib.Data.List.Basic

/-! # Transactions

The statements of a transaction run on a working copy of the store. One that refuses, or a driver that
raises on the way, leaves the store as it was. A COMMIT whose answer is lost leaves the whole of it,
and an attempt that failed may be made once more. -/

namespace Atlantide.Transactions

variable {σ ε α : Type}

abbrev Statement (σ ε : Type) := σ → Except ε σ

inductive Failed (ε : Type)
  | refused (refusal : ε)
  | driver
  deriving DecidableEq

/-- What a call answers, and the store it leaves. -/
abbrev Ended (σ ε : Type) := Except (Failed ε) Unit × σ

def perform : List (Statement σ ε) → σ → Except ε σ
  | [], store => .ok store
  | statement :: rest, store =>
    match statement store with
    | .ok working => perform rest working
    | .error refusal => .error refusal

/-- The statements and the COMMIT, where the driver raises once `fault` of them have ended well. -/
def work : List (Statement σ ε) → Option Nat → σ → Except (Failed ε) σ
  | [], fault, store => if fault = some 0 then .error .driver else .ok store
  | statement :: rest, fault, store =>
    if fault = some 0 then .error .driver
    else match statement store with
      | .ok working => work rest (fault.map (· - 1)) working
      | .error refusal => .error (.refused refusal)

def transaction (statements : List (Statement σ ε)) (fault : Option Nat) (store : σ) : Ended σ ε :=
  match work statements fault store with
  | .ok working => (.ok (), working)
  -- Rolled back.
  | .error failed => (.error failed, store)

/-- How an attempt over a connection goes. -/
inductive Course
  | answered
  /-- The driver raises, and the server rolls back. -/
  | raises (fault : Nat)
  /-- The connection is lost while the COMMIT is answered. -/
  | unanswered
  deriving DecidableEq

def attempt (statements : List (Statement σ ε)) (fate : Course) (store : σ) : Ended σ ε :=
  match fate with
  | .answered => transaction statements none store
  | .raises fault => transaction statements (some fault) store
  | .unanswered =>
    match transaction statements none store with
    | (.ok (), landed) => (.error .driver, landed)
    | refused => refused

/-- An attempt, and a second one if the driver raised what is worth another. -/
def retried (statements again : List (Statement σ ε)) (first second : Course) (worth : Bool)
    (store : σ) : Ended σ ε :=
  match attempt statements first store with
  | (.error .driver, left) => if worth then attempt again second left else (.error .driver, left)
  | ended => ended

/-! ## What is left of a transaction -/

theorem perform_append (statements rest : List (Statement σ ε)) (store : σ) :
    perform (statements ++ rest) store = (perform statements store).bind (perform rest) := by
  induction statements generalizing store with
  | nil => rfl
  | cons statement statements ih =>
    rw [List.cons_append, perform, perform]
    cases statement store with
    | ok working => exact ih working
    | error refusal => rfl

/-- Statements that never refuse are a fold. -/
theorem perform_map {statement : α → Statement σ ε} {step : σ → α → σ}
    (hstep : ∀ value store, statement value store = .ok (step store value)) (values : List α)
    (store : σ) : perform (values.map statement) store = .ok (values.foldl step store) := by
  induction values generalizing store with
  | nil => rfl
  | cons value values ih =>
    rw [List.map_cons, perform, hstep]
    exact ih (step store value)

theorem work_none (statements : List (Statement σ ε)) (store : σ) :
    work statements none store = (perform statements store).mapError .refused := by
  induction statements generalizing store with
  | nil => rfl
  | cons statement statements ih =>
    rw [work, perform, if_neg nofun]
    cases statement store with
    | ok working => exact ih working
    | error refusal => rfl

theorem perform_of_work {statements : List (Statement σ ε)} {fault : Option Nat} {store working : σ}
    (hwork : work statements fault store = .ok working) : perform statements store = .ok working := by
  induction statements generalizing store fault with
  | nil =>
    rw [work] at hwork
    split at hwork
    · cases hwork
    · cases hwork
      rfl
  | cons statement statements ih =>
    rw [work] at hwork
    rw [perform]
    split at hwork
    · cases hwork
    · cases hfirst : statement store with
      | ok working' =>
        rw [hfirst] at hwork
        exact ih hwork
      | error refusal =>
        rw [hfirst] at hwork
        cases hwork

theorem transaction_none (statements : List (Statement σ ε)) (store : σ) :
    transaction statements none store =
      match perform statements store with
      | .ok working => (.ok (), working)
      | .error refusal => (.error (.refused refusal), store) := by
  rw [transaction, work_none]
  cases perform statements store with
  | ok working => rfl
  | error refusal => rfl

/-- The whole of the statements, or nothing. -/
theorem transaction_cases (statements : List (Statement σ ε)) (fault : Option Nat) (store : σ) :
    (∃ working, perform statements store = .ok working ∧
        transaction statements fault store = (.ok (), working)) ∨
      ∃ failed, transaction statements fault store = (.error failed, store) := by
  unfold transaction
  cases hwork : work statements fault store with
  | ok working => exact .inl ⟨working, perform_of_work hwork, rfl⟩
  | error failed => exact .inr ⟨failed, rfl⟩

theorem attempt_cases (statements : List (Statement σ ε)) (fate : Course) (store : σ) :
    (∃ working, perform statements store = .ok working ∧
        attempt statements fate store = (.ok (), working)) ∨
      (∃ failed, attempt statements fate store = (.error failed, store)) ∨
        (fate = .unanswered ∧ ∃ working, perform statements store = .ok working ∧
          attempt statements fate store = (.error .driver, working)) := by
  cases fate with
  | answered =>
    exact (transaction_cases statements none store).imp_right .inl
  | raises fault =>
    exact (transaction_cases statements (some fault) store).imp_right .inl
  | unanswered =>
    rcases transaction_cases statements none store with ⟨working, hperform, hended⟩ | ⟨failed, hended⟩
    · exact .inr (.inr ⟨rfl, working, hperform, by rw [attempt, hended]⟩)
    · exact .inr (.inl ⟨failed, by rw [attempt, hended]⟩)

/-- How often the statements may have landed, and what that has to do with the answer. -/
theorem retried_cases (statements again : List (Statement σ ε)) (first second : Course) (worth : Bool)
    (store : σ) :
    (∃ failed, retried statements again first second worth store = (.error failed, store)) ∨
      (∃ answer left, retried statements again first second worth store = (answer, left) ∧
        (perform statements store = .ok left ∨ perform again store = .ok left ∨
          ∃ working, perform statements store = .ok working ∧ perform again working = .ok left) ∧
        (answer = .ok () ∨ first = .unanswered ∨ second = .unanswered)) := by
  unfold retried
  rcases attempt_cases statements first store with ⟨working, hperform, hended⟩ |
    ⟨failed, hended⟩ | ⟨hlost, working, hperform, hended⟩
  · rw [hended]
    exact .inr ⟨_, _, rfl, .inl hperform, .inl rfl⟩
  · rw [hended]
    cases failed with
    | refused refusal => exact .inl ⟨_, rfl⟩
    | driver =>
      dsimp only
      split
      · rcases attempt_cases again second store with ⟨working, hperform, hagain⟩ |
          ⟨failed, hagain⟩ | ⟨hlost, working, hperform, hagain⟩
        · exact .inr ⟨_, _, hagain, .inr (.inl hperform), .inl rfl⟩
        · exact .inl ⟨_, hagain⟩
        · exact .inr ⟨_, _, hagain, .inr (.inl hperform), .inr (.inr hlost)⟩
      · exact .inl ⟨_, rfl⟩
  · rw [hended]
    dsimp only
    split
    · rcases attempt_cases again second working with ⟨left, hagain, hended'⟩ |
        ⟨failed, hended'⟩ | ⟨-, left, hagain, hended'⟩
      · exact .inr ⟨_, _, hended', .inr (.inr ⟨working, hperform, hagain⟩), .inl rfl⟩
      · exact .inr ⟨_, _, hended', .inl hperform, .inr (.inl hlost)⟩
      · exact .inr ⟨_, _, hended', .inr (.inr ⟨working, hperform, hagain⟩), .inr (.inl hlost)⟩
    · exact .inr ⟨_, _, rfl, .inl hperform, .inr (.inl hlost)⟩

end Atlantide.Transactions
