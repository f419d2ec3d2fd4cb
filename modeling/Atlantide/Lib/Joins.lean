import Mathlib.Data.List.Basic

/-! # Joined texts

What a separator between texts keeps of them: the texts themselves where none of them holds it, and
the pieces they fall into at it in any case. -/

namespace Joins

section

variable {α : Type} {sep : List α} {texts : List (List α)}

theorem mem_intercalate {item : α} (hmem : item ∈ sep.intercalate texts) :
    item ∈ sep ∨ ∃ text ∈ texts, item ∈ text := by
  induction texts with
  | nil => cases hmem
  | cons text texts ih =>
    cases texts with
    | nil =>
      rw [List.intercalate_singleton] at hmem
      exact .inr ⟨text, List.mem_cons_self, hmem⟩
    | cons next texts =>
      rw [List.intercalate_cons_cons, List.mem_append, List.mem_append] at hmem
      rcases hmem with (hmem | hmem) | hmem
      · exact .inr ⟨text, List.mem_cons_self, hmem⟩
      · exact .inl hmem
      · refine (ih hmem).imp_right ?_
        rintro ⟨other, hother, hmem⟩
        exact ⟨other, List.mem_cons_of_mem _ hother, hmem⟩

theorem le_length_intercalate {least : Nat} (hleast : ∀ text ∈ texts, least ≤ text.length) :
    least * texts.length ≤ (sep.intercalate texts).length := by
  induction texts with
  | nil => exact Nat.zero_le _
  | cons text texts ih =>
    obtain ⟨hfirst, hrest⟩ := List.forall_mem_cons.mp hleast
    cases texts with
    | nil => rwa [List.intercalate_singleton, List.length_singleton, Nat.mul_one]
    | cons next texts =>
      have hih := ih hrest
      rw [List.intercalate_cons_cons, List.length_append, List.length_append, List.length_cons,
        Nat.mul_succ]
      omega

end

section

variable {α : Type} {sep : α}

theorem intercalate_append_singleton {texts : List (List α)} (htexts : texts ≠ [])
    (text : List α) :
    [sep].intercalate (texts ++ [text]) = [sep].intercalate texts ++ sep :: text := by
  induction texts with
  | nil => exact absurd rfl htexts
  | cons first texts ih =>
    cases texts with
    | nil => simp
    | cons next texts =>
      rw [List.cons_append, List.intercalate_cons_of_ne_nil (by simp), ih (List.cons_ne_nil _ _),
        List.intercalate_cons_of_ne_nil (List.cons_ne_nil _ _)]
      simp only [List.append_assoc]

/-- Two pairs joined are the same text: the pairs are, or one's second part is the other's behind
what the other has at the end of its first one. -/
theorem joined_eq_iff {first second first' second' : List α} :
    first ++ sep :: second = first' ++ sep :: second' ↔
      (first = first' ∧ second = second') ∨
      (∃ between, first = first' ++ sep :: between ∧ second' = between ++ sep :: second) ∨
      ∃ between, first' = first ++ sep :: between ∧ second = between ++ sep :: second' := by
  constructor
  · intro hsame
    rcases List.append_eq_append_iff.mp hsame with ⟨tail, hlonger, hrest⟩ | ⟨tail, hlonger, hrest⟩
    · cases tail with
      | nil => exact .inl ⟨by simpa using hlonger.symm, (List.cons.inj hrest).2⟩
      | cons c tail =>
        obtain ⟨rfl, hafter⟩ := List.cons.inj hrest
        exact .inr (.inr ⟨tail, hlonger, hafter⟩)
    · cases tail with
      | nil => exact .inl ⟨by simpa using hlonger, (List.cons.inj hrest).2.symm⟩
      | cons c tail =>
        obtain ⟨rfl, hafter⟩ := List.cons.inj hrest
        exact .inr (.inl ⟨tail, hlonger, hafter⟩)
  · rintro (⟨rfl, rfl⟩ | ⟨between, rfl, rfl⟩ | ⟨between, rfl, rfl⟩)
    · rfl
    · simp
    · simp

/-- A separator that is in neither first part ends them. -/
theorem joined_inj_of_not_mem_first {first second first' second' : List α} (hfirst : sep ∉ first)
    (hfirst' : sep ∉ first') (hsame : first ++ sep :: second = first' ++ sep :: second') :
    first = first' ∧ second = second' := by
  rcases joined_eq_iff.mp hsame with hboth | ⟨between, rfl, -⟩ | ⟨between, rfl, -⟩
  · exact hboth
  · exact absurd (List.mem_append_right _ List.mem_cons_self) hfirst
  · exact absurd (List.mem_append_right _ List.mem_cons_self) hfirst'

/-- A separator that is in neither second part stands before them. -/
theorem joined_inj_of_not_mem_second {first second first' second' : List α}
    (hsecond : sep ∉ second) (hsecond' : sep ∉ second')
    (hsame : first ++ sep :: second = first' ++ sep :: second') :
    first = first' ∧ second = second' := by
  rcases joined_eq_iff.mp hsame with hboth | ⟨between, -, rfl⟩ | ⟨between, -, rfl⟩
  · exact hboth
  · exact absurd (List.mem_append_right _ List.mem_cons_self) hsecond'
  · exact absurd (List.mem_append_right _ List.mem_cons_self) hsecond

variable [BEq α] [LawfulBEq α]

/-- Joined texts split into the pieces of each. -/
theorem splitOn_intercalate {texts : List (List α)} (htexts : texts ≠ []) :
    ([sep].intercalate texts).splitOn sep = texts.flatMap (·.splitOn sep) := by
  induction texts with
  | nil => exact absurd rfl htexts
  | cons text texts ih =>
    cases texts with
    | nil => simp
    | cons next texts =>
      rw [List.intercalate_cons_of_ne_nil (List.cons_ne_nil _ _), List.append_assoc,
        List.singleton_append, List.splitOn_append_cons_self, ih (List.cons_ne_nil _ _)]
      rfl

/-- Joined texts are the same when the texts' pieces are. -/
theorem intercalate_inj {texts others : List (List α)} (htexts : texts ≠ [])
    (hothers : others ≠ []) :
    [sep].intercalate texts = [sep].intercalate others ↔
      texts.flatMap (·.splitOn sep) = others.flatMap (·.splitOn sep) := by
  rw [← splitOn_intercalate htexts, ← splitOn_intercalate hothers]
  constructor
  · exact congrArg _
  · intro hsplit
    have hjoined := congrArg [sep].intercalate hsplit
    rwa [List.intercalate_splitOn, List.intercalate_splitOn] at hjoined

end

end Joins
