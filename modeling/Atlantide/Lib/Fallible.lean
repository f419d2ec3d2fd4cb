import Mathlib.Data.List.Forall2

/-! # Fallible computations

What a computation that ended well went through, and what a list holds that was made of another one
element by element. -/

namespace Fallible

section

variable {ε δ α β : Type}

theorem map_eq_ok {image : α → β} {value : Except ε α} {found : β}
    (hok : value.map image = .ok found) : ∃ source, value = .ok source ∧ image source = found := by
  cases value with
  | error fault => cases hok
  | ok source =>
    cases hok
    exact ⟨source, rfl, rfl⟩

theorem bind_eq_ok {next : α → Except ε β} {value : Except ε α} {found : β}
    (hok : value >>= next = .ok found) : ∃ source, value = .ok source ∧ next source = .ok found := by
  cases value with
  | error fault => cases hok
  | ok source => exact ⟨source, rfl, hok⟩

theorem bind_of_ok {next : α → Except ε β} {value : Except ε α} {source : α}
    (hok : value = .ok source) : value >>= next = next source := by
  rw [hok]
  rfl

theorem mapError_eq_ok {image : ε → δ} {value : Except ε α} {found : α}
    (hok : value.mapError image = .ok found) : value = .ok found := by
  cases value with
  | error fault => cases hok
  | ok source =>
    cases hok
    rfl

theorem ok_of_toOption {result : Except ε α} {value : α}
    (hsome : result.toOption = some value) : result = .ok value := by
  cases result with
  | error fault => cases hsome
  | ok found =>
    cases hsome
    rfl

/-- What a loop that ended well did for each element. -/
theorem forM_eq_ok {elements : List α} {check : α → Except ε Unit}
    (hall : forM elements check = .ok ()) {element : α} (hmem : element ∈ elements) :
    check element = .ok () := by
  induction elements with
  | nil => cases hmem
  | cons first rest ih =>
    rw [List.forM_cons] at hall
    obtain ⟨_, hfirst, hrest⟩ := bind_eq_ok hall
    rcases List.mem_cons.mp hmem with rfl | hmem
    · exact hfirst
    · exact ih hrest hmem

/-- Every element has its image among the images. -/
theorem mapM_eq_ok {check : α → Except ε β} {elements : List α} {images : List β}
    (hok : elements.mapM check = .ok images) {element : α} (hmem : element ∈ elements) :
    ∃ image ∈ images, check element = .ok image := by
  induction elements generalizing images with
  | nil => cases hmem
  | cons first rest ih =>
    rw [List.mapM_cons] at hok
    obtain ⟨image, himage, hrest⟩ := bind_eq_ok hok
    obtain ⟨others, hothers, hmade⟩ := bind_eq_ok hrest
    cases hmade
    cases List.mem_cons.mp hmem with
    | inl hfirst =>
      rw [hfirst]
      exact ⟨image, List.mem_cons_self, himage⟩
    | inr hlater =>
      obtain ⟨found, hfound, hcheck⟩ := ih hothers hlater
      exact ⟨found, List.mem_cons_of_mem _ hfound, hcheck⟩

theorem isOk_iff {value : Except ε α} : value.isOk = true ↔ ∃ found, value = .ok found := by
  cases value with
  | error fault => simp [Except.isOk, Except.toBool]
  | ok found => simp [Except.isOk, Except.toBool]

end

section

variable {α β : Type} {related : α → β → Prop} {sources : List α} {images : List β}

theorem exists_of_forall₂ (hall : List.Forall₂ related sources images) :
    ∀ source ∈ sources, ∃ image ∈ images, related source image := by
  induction hall with
  | nil => exact List.forall_mem_nil _
  | cons hhead _ ih =>
    rw [List.forall_mem_cons]
    refine ⟨⟨_, List.mem_cons_self .., hhead⟩, fun source hmem => ?_⟩
    obtain ⟨image, himage, hrelated⟩ := ih source hmem
    exact ⟨image, List.mem_cons_of_mem _ himage, hrelated⟩

theorem getElem?_of_forall₂ (hall : List.Forall₂ related sources images) {source : α}
    (hmem : source ∈ sources) : ∃ image, ∃ index : Nat, sources[index]? = some source ∧
      images[index]? = some image ∧ related source image := by
  induction hall with
  | nil => cases hmem
  | cons hhead _ ih =>
    rcases List.mem_cons.mp hmem with rfl | hmem
    · exact ⟨_, 0, rfl, rfl, hhead⟩
    · obtain ⟨image, index, hsource, himage, hrelated⟩ := ih hmem
      exact ⟨image, index + 1, hsource, himage, hrelated⟩

/-- A search finds in the images what its counterpart finds in the sources. -/
theorem any_of_forall₂ {p : α → Bool} {q : β → Bool} (hall : List.Forall₂ related sources images)
    (hagree : ∀ source ∈ sources, ∀ image, related source image → q image = p source) :
    images.any q = sources.any p := by
  induction hall with
  | nil => rfl
  | cons hhead _ ih =>
    rw [List.forall_mem_cons] at hagree
    rw [List.any_cons, List.any_cons, hagree.1 _ hhead, ih hagree.2]

end

end Fallible
