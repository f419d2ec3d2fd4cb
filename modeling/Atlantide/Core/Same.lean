import Atlantide.Core.Markers

/-! # Python's equality of values

Numbers and booleans are equal by what they convert to, so equality is coarser than identity; it is
an equivalence all the same. -/

namespace Atlantide.Value

mutual

/-- Every value equals itself. -/
theorem same_self : ∀ value : Value, value.same value = true
  | null => rfl
  | bool _ | int _ | float _ => by simp [same, number]
  | str _ => by simp [same]
  | list items => by rw [same, sameItems_self items]
  | dict fields => by rw [same, sameFields_self fields]

theorem sameItems_self : ∀ items : List Value, sameItems items items = true
  | [] => rfl
  | item :: items => by rw [sameItems, same_self item, sameItems_self items, Bool.and_self]

theorem sameFields_self : ∀ fields : List (String × Value), sameFields fields fields = true
  | [] => rfl
  | (name, value) :: fields => by
    rw [sameFields, same_self value, sameFields_self fields, decide_eq_true rfl, Bool.and_self,
      Bool.and_self]

end

/-- Whether the value is compared as a number, if it is compared at all. -/
def isFlat : Value → Bool
  | bool _ | int _ | float _ => true
  | _ => false

theorem same_flat {a b : Value} (hflat : a.isFlat) : a.same b = true ↔ a.number = b.number := by
  cases a with
  | bool _ | int _ | float _ => cases b <;> simp [same, number]
  | _ => cases hflat

theorem isFlat_of_number {a b : Value} (hflat : a.isFlat) (hsame : a.number = b.number) :
    b.isFlat := by
  cases a with
  | bool _ | int _ | float _ => cases b <;> simp_all [number, isFlat]
  | _ => cases hflat

/-- What a value that is not a number equals has the same shape. -/
theorem same_cases {a b : Value} (hsame : a.same b = true) :
    (a.isFlat ∧ a.number = b.number) ∨ (a = .null ∧ b = .null) ∨ (∃ text, a = .str text ∧ b = .str text) ∨
      (∃ as bs, a = .list as ∧ b = .list bs ∧ sameItems as bs = true) ∨
      ∃ as bs, a = .dict as ∧ b = .dict bs ∧ sameFields as bs = true := by
  cases a with
  | bool _ | int _ | float _ => exact .inl ⟨rfl, (same_flat rfl).mp hsame⟩
  | null => cases b <;> simp_all [same, number]
  | str _ => cases b <;> simp_all [same, number]
  | list _ => cases b <;> simp_all [same, number]
  | dict _ => cases b <;> simp_all [same, number]

/-- A text equals itself alone. -/
theorem same_str {value : Value} {text : String} (hsame : value.same (.str text) = true) :
    value = .str text := by
  cases value <;> simp_all [same, number]

mutual

theorem same_symm : ∀ {a b : Value}, a.same b = true → b.same a = true
  | list as, b, hsame => by
    obtain ⟨hflat, -⟩ | ⟨h, -⟩ | ⟨_, h, -⟩ | ⟨_, bs, h, rfl, hitems⟩ | ⟨_, _, h, -⟩ := same_cases hsame
    · cases hflat
    · cases h
    · cases h
    · cases h
      rw [same]
      exact sameItems_symm hitems
    · cases h
  | dict as, b, hsame => by
    obtain ⟨hflat, -⟩ | ⟨h, -⟩ | ⟨_, h, -⟩ | ⟨_, _, h, -⟩ | ⟨_, bs, h, rfl, hfields⟩ := same_cases hsame
    · cases hflat
    · cases h
    · cases h
    · cases h
    · cases h
      rw [same]
      exact sameFields_symm hfields
  | null, b, hsame => by cases b <;> simp_all [same, number]
  | str _, b, hsame => by cases b <;> simp_all [same, number]
  | bool _, b, hsame | int _, b, hsame | float _, b, hsame => by
    have hnumber := (same_flat rfl).mp hsame
    exact (same_flat (isFlat_of_number rfl hnumber)).mpr hnumber.symm

theorem sameItems_symm : ∀ {as bs : List Value}, sameItems as bs = true → sameItems bs as = true
  | [], [], _ => rfl
  | [], _ :: _, hsame | _ :: _, [], hsame => nomatch hsame
  | a :: as, b :: bs, hsame => by
    rw [sameItems, Bool.and_eq_true] at hsame ⊢
    exact ⟨same_symm hsame.1, sameItems_symm hsame.2⟩

theorem sameFields_symm : ∀ {as bs : List (String × Value)}, sameFields as bs = true →
    sameFields bs as = true
  | [], [], _ => rfl
  | [], _ :: _, hsame | _ :: _, [], hsame => nomatch hsame
  | (_, a) :: as, (_, b) :: bs, hsame => by
    rw [sameFields, Bool.and_eq_true, Bool.and_eq_true, decide_eq_true_eq] at hsame ⊢
    exact ⟨⟨hsame.1.1.symm, same_symm hsame.1.2⟩, sameFields_symm hsame.2⟩

end

mutual

theorem same_trans : ∀ {a b c : Value}, a.same b = true → b.same c = true → a.same c = true
  | list as, b, c, hab, hbc => by
    obtain ⟨hflat, -⟩ | ⟨h, -⟩ | ⟨_, h, -⟩ | ⟨_, bs, h, rfl, hitems⟩ | ⟨_, _, h, -⟩ := same_cases hab
    · cases hflat
    · cases h
    · cases h
    · cases h
      obtain ⟨hflat, -⟩ | ⟨h, -⟩ | ⟨_, h, -⟩ | ⟨_, cs, h, rfl, hitems'⟩ | ⟨_, _, h, -⟩ := same_cases hbc
      · cases hflat
      · cases h
      · cases h
      · cases h
        rw [same]
        exact sameItems_trans hitems hitems'
      · cases h
    · cases h
  | dict as, b, c, hab, hbc => by
    obtain ⟨hflat, -⟩ | ⟨h, -⟩ | ⟨_, h, -⟩ | ⟨_, _, h, -⟩ | ⟨_, bs, h, rfl, hfields⟩ := same_cases hab
    · cases hflat
    · cases h
    · cases h
    · cases h
    · cases h
      obtain ⟨hflat, -⟩ | ⟨h, -⟩ | ⟨_, h, -⟩ | ⟨_, _, h, -⟩ | ⟨_, cs, h, rfl, hfields'⟩ := same_cases hbc
      · cases hflat
      · cases h
      · cases h
      · cases h
      · cases h
        rw [same]
        exact sameFields_trans hfields hfields'
  | null, b, c, hab, hbc => by
    obtain ⟨hflat, -⟩ | ⟨-, rfl⟩ | ⟨_, h, -⟩ | ⟨_, _, h, -⟩ | ⟨_, _, h, -⟩ := same_cases hab
    · cases hflat
    · exact hbc
    · cases h
    · cases h
    · cases h
  | str _, b, c, hab, hbc => by
    obtain ⟨hflat, -⟩ | ⟨h, -⟩ | ⟨_, h, rfl⟩ | ⟨_, _, h, -⟩ | ⟨_, _, h, -⟩ := same_cases hab
    · cases hflat
    · cases h
    · cases h
      exact hbc
    · cases h
    · cases h
  | bool _, b, c, hab, hbc | int _, b, c, hab, hbc | float _, b, c, hab, hbc => by
    have hnumber := (same_flat rfl).mp hab
    have hnext := (same_flat (isFlat_of_number rfl hnumber)).mp hbc
    exact (same_flat rfl).mpr (hnumber.trans hnext)

theorem sameItems_trans : ∀ {as bs cs : List Value}, sameItems as bs = true →
    sameItems bs cs = true → sameItems as cs = true
  | [], [], cs, _, hbc => hbc
  | [], _ :: _, _, hab, _ | _ :: _, [], _, hab, _ => nomatch hab
  | _ :: _, _ :: _, [], _, hbc => nomatch hbc
  | a :: as, b :: bs, c :: cs, hab, hbc => by
    rw [sameItems, Bool.and_eq_true] at hab hbc ⊢
    exact ⟨same_trans hab.1 hbc.1, sameItems_trans hab.2 hbc.2⟩

theorem sameFields_trans : ∀ {as bs cs : List (String × Value)}, sameFields as bs = true →
    sameFields bs cs = true → sameFields as cs = true
  | [], [], cs, _, hbc => hbc
  | [], _ :: _, _, hab, _ | _ :: _, [], _, hab, _ => nomatch hab
  | _ :: _, _ :: _, [], _, hbc => nomatch hbc
  | (_, a) :: as, (_, b) :: bs, (_, c) :: cs, hab, hbc => by
    rw [sameFields, Bool.and_eq_true, Bool.and_eq_true, decide_eq_true_eq] at hab hbc ⊢
    exact ⟨⟨hab.1.1.trans hbc.1.1, same_trans hab.1.2 hbc.1.2⟩, sameFields_trans hab.2 hbc.2⟩

end

end Atlantide.Value
