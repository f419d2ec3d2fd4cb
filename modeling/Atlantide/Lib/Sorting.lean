import Mathlib.Data.List.Lex
import Mathlib.Data.List.Sort

/-! # Sorting by a key, before a rewrite and after it

A list is rewritten twice and sorted in between. Which of the rewrites comes first makes no
difference as long as the keys of the one rewrite agree with those of the other. -/

namespace Sorting

section

variable {α β γ κ : Type*}

/-- Sorts by a key; elements with one key keep their order. -/
def sortBy [LinearOrder κ] (key : α → κ) (items : List α) : List α :=
  items.insertionSort (key · ≤ key ·)

theorem perm_sortBy [LinearOrder κ] (key : α → κ) (items : List α) :
    (sortBy key items).Perm items :=
  List.perm_insertionSort _ items

theorem mem_sortBy [LinearOrder κ] {key : α → κ} {items : List α} {item : α} :
    item ∈ sortBy key items ↔ item ∈ items :=
  (perm_sortBy key items).mem_iff

theorem sortBy_map [LinearOrder κ] (key : β → κ) (f : α → β) (items : List α) :
    sortBy key (items.map f) = (sortBy (key ∘ f) items).map f :=
  (List.map_insertionSort _ _ f items fun _ _ _ _ => Iff.rfl).symm

theorem pairwise_sortBy [LinearOrder κ] (key : α → κ) (items : List α) :
    ((sortBy key items).map key).Pairwise (· ≤ ·) := by
  rw [List.pairwise_map]
  have : Std.Total fun a b => key a ≤ key b := ⟨fun a b => le_total (key a) (key b)⟩
  have : IsTrans α fun a b => key a ≤ key b := ⟨fun _ _ _ => le_trans⟩
  exact List.pairwise_insertionSort _ items

/-- Lists with one image under a function have one under any that it determines. -/
theorem map_congr_of_map {f : α → β} {g : α → γ} {items others : List α}
    (hmap : items.map f = others.map f)
    (htold : ∀ a ∈ items, ∀ b ∈ others, f a = f b → g a = g b) : items.map g = others.map g := by
  induction items generalizing others with
  | nil =>
    rw [List.map_nil, eq_comm, List.map_eq_nil_iff] at hmap
    rw [hmap, List.map_nil]
  | cons first items ih =>
    cases others with
    | nil => cases hmap
    | cons other others =>
      rw [List.map_cons, List.map_cons] at hmap
      obtain ⟨hfirst, hrest⟩ := List.cons.inj hmap
      rw [List.map_cons, List.map_cons,
        htold first List.mem_cons_self other List.mem_cons_self hfirst,
        ih hrest fun a ha b hb => htold a (List.mem_cons_of_mem _ ha) b (List.mem_cons_of_mem _ hb)]

/-- Two keys, the second never against the first, sort a list alike but for what has one key. -/
theorem map_sortBy_congr [LinearOrder κ] {key other : α → κ} {image : α → γ} {items : List α}
    (hmono : ∀ a ∈ items, ∀ b ∈ items, key a ≤ key b → other a ≤ other b)
    (hties : ∀ a ∈ items, ∀ b ∈ items, other a = other b → image a = image b) :
    (sortBy key items).map image = (sortBy other items).map image := by
  have hfirst : ((sortBy key items).map other).Pairwise (· ≤ ·) := by
    rw [List.pairwise_map]
    have hsorted := pairwise_sortBy key items
    rw [List.pairwise_map] at hsorted
    refine hsorted.imp_of_mem fun ha hb hle => ?_
    exact hmono _ (mem_sortBy.mp ha) _ (mem_sortBy.mp hb) hle
  have hperm : (sortBy key items).Perm (sortBy other items) :=
    (perm_sortBy key items).trans (perm_sortBy other items).symm
  have hkeys : (sortBy key items).map other = (sortBy other items).map other :=
    (hperm.map other).eq_of_pairwise' hfirst (pairwise_sortBy other items)
  exact map_congr_of_map hkeys fun a ha b hb =>
    hties a (mem_sortBy.mp ha) b (mem_sortBy.mp hb)

/-- Where the second key is in order along the first, it is never against it. -/
theorem le_of_lt_of_pairwise [LinearOrder κ] (key other : α → κ) {items : List α}
    (hsorted : ((sortBy key items).map other).Pairwise (· ≤ ·)) {a b : α} (ha : a ∈ items)
    (hb : b ∈ items) (hlt : key a < key b) : other a ≤ other b := by
  have hkeys := pairwise_sortBy key items
  rw [List.pairwise_map, List.pairwise_iff_getElem] at hsorted hkeys
  have hmemA : a ∈ sortBy key items := mem_sortBy.mpr ha
  have hmemB : b ∈ sortBy key items := mem_sortBy.mpr hb
  obtain ⟨i, hi, rfl⟩ := List.getElem_of_mem hmemA
  obtain ⟨j, hj, rfl⟩ := List.getElem_of_mem hmemB
  rcases Nat.lt_trichotomy i j with hbefore | rfl | hafter
  · exact hsorted i j hi hj hbefore
  · exact absurd hlt (lt_irrefl (key _))
  · exact absurd hlt (not_lt_of_ge (hkeys j i hj hi hafter))

end

/-! ## Rewrites that can fail -/

section

variable {α β δ γ κ : Type}

theorem mapM_eq_none {f : α → Option β} {items : List α} {item : α} (hmem : item ∈ items)
    (hnone : f item = none) : items.mapM f = none := by
  induction items with
  | nil => cases hmem
  | cons first items ih =>
    rw [List.mapM_cons]
    rcases List.mem_cons.mp hmem with rfl | hmem
    · rw [hnone]
      rfl
    · rw [ih hmem]
      cases f first <;> rfl

theorem mapM_eq_map {f : α → Option β} {g : α → β} {items : List α}
    (hall : ∀ item ∈ items, f item = some (g item)) : items.mapM f = some (items.map g) := by
  induction items with
  | nil => rfl
  | cons first items ih =>
    rw [List.mapM_cons, hall first List.mem_cons_self,
      ih fun item hmem => hall item (List.mem_cons_of_mem _ hmem)]
    rfl

theorem mapM_congr {f g : α → Option β} {items : List α}
    (hall : ∀ item ∈ items, f item = g item) : items.mapM f = items.mapM g := by
  induction items with
  | nil => rfl
  | cons first items ih =>
    rw [List.mapM_cons, List.mapM_cons, hall first List.mem_cons_self,
      ih fun item hmem => hall item (List.mem_cons_of_mem _ hmem)]

theorem mapM_eq_mapM_id (f : α → Option β) (items : List α) :
    items.mapM f = (items.map f).mapM id := by
  rw [List.mapM_map]
  rfl

theorem mapM_eq_singleton {f : α → Option β} {items : List α} {image : β}
    (hsingle : items.mapM f = some [image]) : ∃ item, items = [item] ∧ f item = some image := by
  cases items with
  | nil => cases hsingle
  | cons first items =>
    rw [List.mapM_cons, Option.bind_eq_bind, Option.bind_eq_some_iff] at hsingle
    obtain ⟨found, hfound, hrest⟩ := hsingle
    rw [Option.bind_eq_bind, Option.bind_eq_some_iff] at hrest
    obtain ⟨rest, hrest, hcons⟩ := hrest
    cases hcons
    cases items with
    | nil => exact ⟨first, rfl, hfound⟩
    | cons second items =>
      rw [List.mapM_cons, Option.bind_eq_bind, Option.bind_eq_some_iff] at hrest
      obtain ⟨_, _, hrest⟩ := hrest
      rw [Option.bind_eq_bind, Option.bind_eq_some_iff] at hrest
      obtain ⟨_, _, hnil⟩ := hrest
      cases hnil

theorem map_of_mapM_eq_some {f : α → Option β} {items : List α} {images : List β}
    (hsome : items.mapM f = some images) : items.map f = images.map some := by
  induction items generalizing images with
  | nil =>
    cases hsome
    rfl
  | cons first items ih =>
    rw [List.mapM_cons, Option.bind_eq_bind, Option.bind_eq_some_iff] at hsome
    obtain ⟨image, himage, hrest⟩ := hsome
    rw [Option.bind_eq_bind, Option.bind_eq_some_iff] at hrest
    obtain ⟨rest, hrest, hcons⟩ := hrest
    cases hcons
    rw [List.map_cons, List.map_cons, himage, ih hrest]

theorem isSome_of_mapM {f : α → Option β} {items : List α} (hsome : (items.mapM f).isSome)
    {item : α} (hmem : item ∈ items) : (f item).isSome := by
  by_contra hnone
  rw [mapM_eq_none hmem (Option.not_isSome_iff_eq_none.mp hnone)] at hsome
  cases hsome

/-- One rewrite after another, item by item. -/
theorem mapM_bind_mapM (f : α → Option β) (g : β → Option γ) (items : List α) :
    (items.mapM f).bind (·.mapM g) = items.mapM fun item => (f item).bind g := by
  induction items with
  | nil => rfl
  | cons first items ih =>
    rw [List.mapM_cons, List.mapM_cons, ← ih]
    cases hfirst : f first with
    | none => rfl
    | some image =>
      rw [Option.bind_some]
      cases items.mapM f with
      | none => cases g image <;> rfl
      | some images => exact List.mapM_cons

theorem eq_some_getD [Inhabited α] {found : Option α} (hsome : found.isSome) :
    found = some (found.getD default) := by
  obtain ⟨image, himage⟩ := Option.isSome_iff_exists.mp hsome
  rw [himage, Option.getD_some]

variable [Inhabited β] [Inhabited δ] [LinearOrder κ]

/-- The second rewrite over the sorted images of the first, when none of these fails. -/
theorem bind_sortBy_eq {f : α → Option β} {g : β → Option γ} {key : β → κ} {items : List α}
    (hall : ∀ item ∈ items, (f item).isSome) :
    ((items.mapM f).bind fun found => (sortBy key found).mapM g) =
      (sortBy (fun item => key ((f item).getD default)) items).mapM fun item =>
        (f item).bind g := by
  have hsome : ∀ item ∈ items, f item = some ((f item).getD default) :=
    fun item hmem => eq_some_getD (hall item hmem)
  rw [mapM_eq_map hsome, Option.bind_some, sortBy_map, List.mapM_map]
  refine mapM_congr fun item hmem => ?_
  conv_rhs => rw [hsome item (mem_sortBy.mp hmem)]
  rfl

/-- **Either rewrite may come first where their keys agree.** -/
theorem bind_sortBy_comm {f : α → Option β} {g : β → Option γ} {h : α → Option δ}
    {k : δ → Option γ} {key : β → κ} {other : δ → κ} {items : List α}
    (hsame : ∀ item ∈ items, (f item).bind g = (h item).bind k)
    (haligned : ∀ a ∈ items, ∀ b ∈ items, ∀ fa fb ha hb, f a = some fa → f b = some fb →
      h a = some ha → h b = some hb →
        (key fa ≤ key fb → other ha ≤ other hb) ∧ (other ha = other hb → k ha = k hb)) :
    ((items.mapM f).bind fun found => (sortBy key found).mapM g) =
      (items.mapM h).bind fun found => (sortBy other found).mapM k := by
  have hfails : ∀ item ∈ items, (f item).bind g = none →
      ((items.mapM h).bind fun found => (sortBy other found).mapM k) = none := by
    intro item hmem hnone
    by_cases hall : ∀ item ∈ items, (h item).isSome
    · rw [bind_sortBy_eq hall]
      apply mapM_eq_none (mem_sortBy.mpr hmem)
      rw [← hsame item hmem, hnone]
    · push Not at hall
      obtain ⟨first, hfirst, hleft⟩ := hall
      rw [mapM_eq_none hfirst (Option.not_isSome_iff_eq_none.mp hleft), Option.bind_none]
  by_cases hall : ∀ item ∈ items, (f item).isSome
  · by_cases hother : ∀ item ∈ items, (h item).isSome
    · have hf : ∀ item ∈ items, f item = some ((f item).getD default) :=
        fun item hmem => eq_some_getD (hall item hmem)
      have hh : ∀ item ∈ items, h item = some ((h item).getD default) :=
        fun item hmem => eq_some_getD (hother item hmem)
      have hsorted : (sortBy (fun item => key ((f item).getD default)) items).map
            (fun item => (h item).bind k) =
          (sortBy (fun item => other ((h item).getD default)) items).map
            fun item => (h item).bind k := by
        apply map_sortBy_congr
        · exact fun a ha b hb =>
            (haligned a ha b hb _ _ _ _ (hf a ha) (hf b hb) (hh a ha) (hh b hb)).1
        · intro a ha b hb heq
          rw [hh a ha, hh b hb]
          exact (haligned a ha b hb _ _ _ _ (hf a ha) (hf b hb) (hh a ha) (hh b hb)).2 heq
      rw [bind_sortBy_eq hall, bind_sortBy_eq hother,
        mapM_congr fun item hmem => hsame item (mem_sortBy.mp hmem)]
      rw [mapM_eq_mapM_id, hsorted, ← mapM_eq_mapM_id]
    · push Not at hother
      obtain ⟨first, hfirst, hleft⟩ := hother
      have hnone := Option.not_isSome_iff_eq_none.mp hleft
      rw [bind_sortBy_eq hall, mapM_eq_none (mem_sortBy.mpr hfirst),
        mapM_eq_none hfirst hnone, Option.bind_none]
      rw [hsame first hfirst, hnone, Option.bind_none]
  · push Not at hall
    obtain ⟨first, hfirst, hleft⟩ := hall
    have hnone := Option.not_isSome_iff_eq_none.mp hleft
    rw [mapM_eq_none hfirst hnone, Option.bind_none,
      hfails first hfirst (by rw [hnone, Option.bind_none])]

/-- Where the two orders of the rewrites come to the same, their keys agree. -/
theorem aligned_of_bind_sortBy {f : α → Option β} {g : β → Option γ} {h : α → Option δ}
    {k : δ → Option γ} {key : β → κ} {other : δ → κ} {items : List α}
    (hsame : ∀ item ∈ items, (f item).bind g = (h item).bind k)
    (hcomes : ((items.mapM f).bind fun found => (sortBy key found).mapM g) =
      (items.mapM h).bind fun found => (sortBy other found).mapM k)
    (hsome : ((items.mapM f).bind fun found => (sortBy key found).mapM g).isSome)
    (htold : ∀ a ∈ items, ∀ b ∈ items, ∀ ha hb, h a = some ha → h b = some hb → k ha = k hb →
      other ha = other hb)
    {a b : α} (ha : a ∈ items) (hb : b ∈ items) {fa fb : β} {la lb : δ} (hfa : f a = some fa)
    (hfb : f b = some fb) (hla : h a = some la) (hlb : h b = some lb) (hlt : key fa < key fb) :
    other la ≤ other lb := by
  have hall : ∀ item ∈ items, (f item).isSome := by
    intro item hmem
    apply isSome_of_mapM _ hmem
    exact Option.isSome_of_isSome_bind hsome
  have hother : ∀ item ∈ items, (h item).isSome := by
    intro item hmem
    apply isSome_of_mapM _ hmem
    exact Option.isSome_of_isSome_bind (hcomes ▸ hsome)
  rw [bind_sortBy_eq hall] at hcomes hsome
  rw [bind_sortBy_eq hother] at hcomes
  obtain ⟨images, himages⟩ := Option.isSome_iff_exists.mp hsome
  have hfirst := map_of_mapM_eq_some himages
  rw [List.map_congr_left fun item hmem => hsame item (mem_sortBy.mp hmem),
    ← map_of_mapM_eq_some (hcomes ▸ himages)] at hfirst
  have hkeys := map_congr_of_map (g := fun item => other ((h item).getD default)) hfirst
    fun a ha b hb heq => by
      have hla := eq_some_getD (hother a (mem_sortBy.mp ha))
      have hlb := eq_some_getD (hother b (mem_sortBy.mp hb))
      rw [hla, hlb] at heq
      exact htold a (mem_sortBy.mp ha) b (mem_sortBy.mp hb) _ _ hla hlb heq
  have hsorted := pairwise_sortBy (fun item => other ((h item).getD default)) items
  rw [← hkeys] at hsorted
  have hle := le_of_lt_of_pairwise (fun item => key ((f item).getD default))
    (fun item => other ((h item).getD default)) hsorted ha hb
  simp only [hfa, hfb, hla, hlb, Option.getD_some] at hle
  exact hle hlt

end

end Sorting
